import WasmFunclets.Proofs.Ssa.Endures
import WasmFunclets.Proofs.Ssa.Filling
import WasmFunclets.Proofs.Ssa.Fulfils

/-! What requests leave for good: values that are not phis, what stands for a value, the instructions of a
block, its arguments, and the edges into it with the values that they carry. -/

namespace WasmFunclets.Ssa.Builder

open Attempt

variable {α : Type} {b t u : Builder} {c id source : BlockId} {v : Value} {types : List ValueType}
variable {args : List ValueId}

theorem value_onPhi_plain {i : ValueId} (present : b.values[i]? = some v) (plain : v.phi? = none)
    (phi : ValueId) (change : Phi → Phi) : (b.onPhi phi change).values[i]? = some v := by
  rw [value_onPhi, present]
  split
  · obtain ⟨type, home, content⟩ := v
    cases content with
    | phi p => cases plain
    | _ => rfl
  · rfl

structure Descends (b t : Builder) : Prop where
  aliased : t.Aliased
  size : b.values.size ≤ t.values.size
  representative : ∀ id, t.representative (b.representative id) = t.representative id
  value : ∀ {id : ValueId} {v : Value}, b.values[id]? = some v → v.phi? = none → t.values[id]? = some v

theorem Descends.refl (aliased : b.Aliased) : b.Descends b :=
  ⟨aliased, Nat.le_refl _, aliased.representative_idem, fun present _ => present⟩

theorem Descends.trans (first : b.Descends t) (second : t.Descends u) : b.Descends u where
  aliased := second.aliased
  size := Nat.le_trans first.size second.size
  representative id := by
    rw [← second.representative, first.representative, second.representative]
  value present plain := second.value (first.value present plain) plain

theorem Shifts.descends (shifts : b.Shifts t) (size : b.values.size ≤ t.values.size)
    (value : ∀ {id : ValueId} {v : Value}, b.values[id]? = some v → v.phi? = none →
      t.values[id]? = some v) : b.Descends t :=
  ⟨shifts.aliased, size, shifts.representative, value⟩

theorem endures_descends (b : Builder) : Endures (fun t => b.Descends t) where
  aliased descends := descends.aliased
  onBlocks blocks descends :=
    ⟨descends.aliased.congr rfl rfl, descends.size, descends.representative, descends.value⟩
  withValue descends fresh := descends.trans <|
    (Shifts.withValue descends.aliased fresh.idle).descends (by simp) fun present _ => by
      rw [value_withValue, if_neg (Nat.ne_of_lt (Array.getElem?_eq_some_iff.mp present).1), present]
  fed phi operand descends inside := descends.trans <|
    (Shifts.fed descends.aliased phi inside).descends (Nat.le_of_eq (size_fed ..).symm)
      fun {id v} present plain => by
        rcases fed_cases _ phi operand with same | same <;> rw [same]
        · exact value_onPhi_plain present plain _ _
        · exact value_onPhi_plain (value_onPhi_plain present plain _ _) plain _ _
  finish phi descends := descends.trans <|
    (Shifts.finish descends.aliased phi).descends (by simp) fun present plain =>
      value_onPhi_plain present plain _ _
  replacedBy descends cedes := descends.trans <|
    (Shifts.replacedBy descends.aliased cedes).descends (by simp) fun present plain =>
      value_onPhi_plain (value_onPhi_plain present plain _ _) plain _ _

theorem Request.descends {request : Request} (aliased : b.Aliased)
    (ok : request.attempt b = .ok () t) : b.Descends t :=
  (((endures_descends b).attempt request).ends (.refl aliased)).of_ok ok

theorem append_ok {type : ValueType} {content : Content} : append c type content b = .ok id t ↔
    b.values.size < arenaLimit ∧ id = b.values.size ∧
      t = b.appended c ⟨type, some c, content⟩ := by
  simp only [append, addValue, modifyBlock, bind_ok, get_ok, modify_ok, maintain_ok, pure_ok]
  constructor
  · rintro ⟨_, _, ⟨_, _, ⟨rfl, rfl⟩, _, _, ⟨room, rfl⟩, _, _, rfl, rfl, rfl⟩, _, _, rfl, rfl, rfl⟩
    exact ⟨room, rfl, rfl⟩
  · rintro ⟨room, rfl, rfl⟩
    exact ⟨_, _, ⟨_, _, ⟨rfl, rfl⟩, (), _, ⟨room, rfl⟩, (), _, rfl, rfl, rfl⟩, (), _, rfl, rfl, rfl⟩

theorem emit_appends {opcode : UInt8} {type : ValueType} {operands : List ValueId} {immediate : UInt64}
    (ok : emit c opcode type operands immediate b = .ok id t) : c < b.blocks.size ∧
      append c type (.op opcode (operands.map b.representative) immediate) b = .ok id t := by
  simp only [emit, bind_ok, get_ok] at ok
  obtain ⟨_, _, check, _, _, ⟨rfl, rfl⟩, _, _, known, added⟩ := ok
  obtain ⟨inside, rfl⟩ := checkBlock_ok check
  obtain ⟨_, rfl⟩ := maintain_ok.mp known
  exact ⟨inside, added⟩

theorem constant_appends {type : ValueType} {bits : UInt64} (ok : constant c type bits b = .ok id t) :
    c < b.blocks.size ∧ append c type (.constant bits) b = .ok id t := by
  obtain ⟨_, _, check, added⟩ := bind_ok.mp ok
  obtain ⟨inside, rfl⟩ := checkBlock_ok check
  exact ⟨inside, added⟩

theorem project_appends {type : ValueType} {tuple : ValueId} {index : Nat}
    (ok : project c tuple index type b = .ok id t) : c < b.blocks.size ∧
      append c type (.project (b.representative tuple) index) b = .ok id t := by
  simp only [project, bind_ok, get_ok] at ok
  obtain ⟨_, _, check, _, _, ⟨rfl, rfl⟩, added⟩ := ok
  obtain ⟨inside, rfl⟩ := checkBlock_ok check
  exact ⟨inside, added⟩

theorem bodyOf_appended (v : Value) (inside : c < b.blocks.size) :
    (b.appended c v).bodyOf c = (b.bodyOf c).push b.values.size := by
  rw [bodyOf, bodyOf, appended, block_onBlock, if_pos rfl]
  change ((b.blocks[c]?.map _).map _).getD _ = _
  rw [Array.getElem?_eq_getElem inside]
  rfl

theorem append_prefix {type : ValueType} {content : Content} {block : BlockId}
    (inside : block < b.blocks.size) (ok : append block type content b = .ok id t) (c : BlockId) :
    ∃ more, t.bodyOf c = b.bodyOf c ++ more := by
  by_cases same : block = c
  · subst same
    obtain ⟨_, rfl, rfl⟩ := append_ok.mp ok
    exact ⟨#[b.values.size], bodyOf_appended _ inside⟩
  · exact ⟨#[], by rw [(append_bodyOf same type content).of_ok ok, Array.append_empty]⟩

theorem Request.bodies {request : Request} (ok : request.attempt b = .ok () t) (c : BlockId) :
    ∃ more, t.bodyOf c = b.bodyOf c ++ more := by
  have still (other : request.fills ≠ some c) : ∃ more, t.bodyOf c = b.bodyOf c ++ more :=
    ⟨#[], by rw [(request.attempt_bodyOf other).of_ok ok, Array.append_empty]⟩
  cases request with
  | setLocal block slot value =>
      have leaves : Leaves bodyOf (Builder.setLocal block slot value) := setLocal_leaves block slot value
      have same := leaves.of_ok ok
      exact ⟨#[], by rw [congrFun same c, Array.append_empty]⟩
  | emit block opcode type operands immediate =>
      obtain ⟨a, ok⟩ := discard_ok ok
      obtain ⟨inside, added⟩ := emit_appends ok
      exact append_prefix inside added c
  | constant block type bits =>
      obtain ⟨a, ok⟩ := discard_ok ok
      obtain ⟨inside, added⟩ := constant_appends ok
      exact append_prefix inside added c
  | project block tuple index type =>
      obtain ⟨a, ok⟩ := discard_ok ok
      obtain ⟨inside, added⟩ := project_appends ok
      exact append_prefix inside added c
  | _ => exact still nofun

def Retains (b t : Builder) : Prop :=
  ∀ (c : BlockId) (es : Array Predecessor), b.edges c = some es →
    ∃ es', t.edges c = some es' ∧ EdgesLast es es'

theorem retains_of_eq (same : t.edges = b.edges) : b.Retains t :=
  fun _ _ present => ⟨_, by rw [same, present], .refl _⟩

theorem Retains.trans (first : b.Retains t) (second : t.Retains u) : b.Retains u := by
  intro c es present
  obtain ⟨es', found, grown⟩ := first c es present
  obtain ⟨es'', last, grown'⟩ := second c es' found
  exact ⟨es'', last, grown.trans grown'⟩

theorem pad_fills {filled : List ValueId} (ok : pad types args b = .ok filled t) :
    ∃ front, filled = front ++ args ∧ (front ++ args).length = types.length := by
  rw [pad, bind_ok] at ok
  obtain ⟨_, _, fits, ok⟩ := ok
  obtain ⟨fits, rfl⟩ := maintain_ok.mp fits
  obtain ⟨front, _, made, ok⟩ := bind_ok.mp ok
  obtain ⟨rfl, _⟩ := pure_ok.mp ok
  refine ⟨front, rfl, ?_⟩
  have length := length_of_mapM_ok made
  rw [List.length_append, length, List.length_take]
  omega

theorem edges_push {b : Builder} {id : BlockId} {old : Array Predecessor} (before : b.edges id = some old)
    (edge : Predecessor) (c : BlockId) :
    edges { b with blocks := b.blocks.modify id fun k =>
      { k with predecessors := k.predecessors.push edge } } c =
        if c = id then some (old.push edge) else b.edges c := by
  rw [edges, Array.getElem?_modify]
  by_cases here : c = id
  · subst here
    obtain ⟨l, there, rfl⟩ := Option.map_eq_some_iff.mp before
    rw [if_pos rfl, if_pos rfl, there]
    rfl
  · rw [if_neg here, if_neg (Ne.symm here), edges]

/-- A new edge comes last, with as many values as its target takes. -/
theorem connect_edges {x : Unit} (ok : connect source c args b = .ok x t) :
    ∃ es front, b.edges c = some es ∧
      (∀ e, t.edges e = if e = c then some (es.push ⟨source, front ++ args⟩) else b.edges e) ∧
      (b.argsAt c = none → front = []) ∧
      ∀ phis, b.argsAt c = some phis → (front ++ args).length = phis.size := by
  simp only [connect, bind_ok] at ok
  obtain ⟨_, _, check, k, _, found, _, _, isOpen, ok⟩ := ok
  obtain ⟨_, rfl⟩ := checkBlock_ok check
  obtain ⟨present, rfl⟩ := blockAt_ok found
  obtain ⟨_, rfl⟩ := maintain_ok.mp isOpen
  have given : b.argsAt c = k.args := by rw [argsAt, present, Option.bind_some]
  have before : b.edges c = some k.predecessors := by rw [edges, present, Option.map_some]
  obtain ⟨front, u, bare, length, same, rfl⟩ : ∃ (front : List ValueId) (u : Builder),
      (k.args = none → front = []) ∧
      (∀ phis, k.args = some phis → (front ++ args).length = phis.size) ∧ u.edges = b.edges ∧
      t = { u with blocks := u.blocks.modify c fun k =>
        { k with predecessors := k.predecessors.push ⟨source, front ++ args⟩ } } := by
    cases declared : k.args with
    | none =>
        simp only [declared] at ok
        obtain ⟨_, _, none_, pushed⟩ := bind_ok.mp ok
        obtain ⟨rfl, rfl⟩ := pure_ok.mp none_
        refine ⟨[], _, fun _ => rfl, fun _ other => ?_, rfl, (modify_ok.mp pushed).symm⟩
        cases other
    | some phis =>
        simp only [declared, get_bind_ok] at ok
        obtain ⟨_, v, padded, ok⟩ := bind_ok.mp ok
        obtain ⟨_, w, fed, ok⟩ := bind_ok.mp ok
        obtain ⟨_, _, done, pushed⟩ := bind_ok.mp ok
        obtain ⟨rfl, rfl⟩ := pure_ok.mp done
        obtain ⟨front, rfl, length⟩ := pad_fills padded
        refine ⟨front, _, fun absent => ?_, ?_, ?_, (modify_ok.mp pushed).symm⟩
        · cases absent
        · rintro _ ⟨⟩
          rw [length, List.length_map, Array.length_toList]
        · exact ((feedAll_leaves _ _).of_ok fed).trans ((pad_leaves _ _).of_ok padded)
  rw [given]
  refine ⟨_, front, before, fun e => ?_, bare, length⟩
  rw [edges_push ((congrFun same c).trans before), same]

theorem connect_retains {x : Unit} (ok : connect source c args b = .ok x t) : b.Retains t := by
  obtain ⟨es, front, before, after, _⟩ := connect_edges ok
  intro e es' present
  rw [after]
  by_cases same : e = c
  · subst same
    rw [before] at present
    cases present
    exact ⟨_, if_pos rfl, edgesLast_push _ _⟩
  · exact ⟨es', by rw [if_neg same, present], .refl _⟩

theorem adoptEdges_retains {phis : List ValueId} {index : Nat} {preds : List Predecessor} {x : Unit}
    (ok : adoptEdges c types phis index preds b = .ok x t) {es : Array Predecessor}
    (present : b.edges c = some es)
    (places : ∀ (j : Nat) (pred : Predecessor), preds[j]? = some pred → es[index + j]? = some pred) :
    b.Retains t := by
  -- Each edge is padded in front, so what it carried before is still a suffix.
  induction preds generalizing b index es with
  | nil =>
      obtain ⟨_, rfl⟩ := pure_ok.mp ok
      exact retains_of_eq rfl
  | cons pred rest ih =>
      obtain ⟨filled, u, padded, ok⟩ := bind_ok.mp ok
      obtain ⟨front, rfl, _⟩ := pad_fills padded
      obtain ⟨_, v, changed, ok⟩ := bind_ok.mp ok
      obtain rfl := modify_ok.mp changed
      obtain ⟨_, w, fed, ok⟩ := bind_ok.mp ok
      have same : u.edges = b.edges := (pad_leaves _ _).of_ok padded
      have still : w.edges = _ := (feedAll_leaves _ _).of_ok fed
      have here : es[index]? = some pred := places 0 pred rfl
      have after : w.edges c = some (es.modify index fun p => { p with args := front ++ pred.args }) := by
        rw [still, edges, Array.getElem?_modify, if_pos rfl, Option.map_map]
        have shown := (congrFun same c).trans present
        obtain ⟨l, shown, edges⟩ := Option.map_eq_some_iff.mp shown
        rw [shown, Option.map_some, Function.comp_apply, edges]
      refine Retains.trans (fun e es' found => ?_) (ih ok after fun j p listed => ?_)
      · by_cases at_ : e = c
        · subst at_
          rw [present] at found
          cases found
          refine ⟨_, after, fun i p place => ?_⟩
          rw [Array.getElem?_modify]
          split
          · rename_i same
            subst same
            rw [here] at place
            cases place
            exact ⟨_, congrArg (Option.map _) here, rfl, List.suffix_append _ _⟩
          · exact ⟨p, place, rfl, List.suffix_refl _⟩
        · refine ⟨es', ?_, .refl _⟩
          rw [still, edges, Array.getElem?_modify, if_neg (Ne.symm at_)]
          exact (congrFun same e).trans found
      · rw [Array.getElem?_modify, if_neg (by omega), Nat.add_right_comm]
        exact places (j + 1) p listed

theorem addArguments_edges {index : Nat} {x : Unit} (ok : addArguments c index types b = .ok x t) :
    t.edges = b.edges := by
  induction types generalizing b index with
  | nil =>
      obtain ⟨_, rfl⟩ := pure_ok.mp ok
      rfl
  | cons type types ih =>
      obtain ⟨phi, u, made, ok⟩ := bind_ok.mp ok
      obtain ⟨_, v, changed, ok⟩ := bind_ok.mp ok
      obtain rfl := modify_ok.mp changed
      refine (ih ok).trans (Eq.trans ?_ (show u.edges = b.edges from (addPhi_leaves _ _ _).of_ok made))
      exact funext fun e => map_modify u.blocks c e fun _ => rfl

theorem declareArguments_retains {x : Unit} (ok : declareArguments c types b = .ok x t) :
    b.Retains t := by
  simp only [declareArguments, bind_ok] at ok
  obtain ⟨k, _, found, _, _, fresh, _, v, changed, _, u, added, l, _, found', adopts⟩ := ok
  obtain ⟨present, rfl⟩ := blockAt_ok found
  obtain ⟨_, rfl⟩ := maintain_ok.mp fresh
  obtain ⟨_, rfl⟩ := blockAt_ok found'
  have opened : v.edges = b.edges := by
    obtain rfl := modify_ok.mp changed
    exact funext fun e => map_modify b.blocks c e fun _ => rfl
  have same : u.edges = b.edges := (addArguments_edges added).trans opened
  refine Retains.trans (retains_of_eq same) (adoptEdges_retains adopts (?_ : _ = some k.predecessors) ?_)
  · rw [same, edges, present, Option.map_some]
  · intro j pred listed
    rwa [Nat.zero_add, ← Array.getElem?_toList]

theorem Request.retains {request : Request} (ok : request.attempt b = .ok () t) : b.Retains t := by
  have still {m : Attempt Builder Unit} (leaves : Leaves edges m) (ok : m b = .ok () t) : b.Retains t :=
    retains_of_eq (leaves.of_ok ok)
  cases request with
  | addBlock kind =>
      intro c es present
      refine ⟨es, ?_, .refl _⟩
      obtain ⟨a, ok⟩ := discard_ok ok
      rw [Builder.addBlock, get_bind_ok] at ok
      obtain ⟨_, _, pushed, ok⟩ := bind_ok.mp ok
      obtain rfl := modify_ok.mp pushed
      obtain ⟨rfl, rfl⟩ := pure_ok.mp ok
      obtain ⟨k, found, _⟩ := Option.map_eq_some_iff.mp present
      rw [edges, Array.getElem?_push_lt (Array.getElem?_eq_some_iff.mp found).1,
        ← Array.getElem?_eq_getElem]
      exact present
  | declareArguments block types => exact declareArguments_retains ok
  | connect source target carried => exact connect_retains ok
  | args block => exact still (along_bind (args_leaves _) fun _ => along_pure _) ok
  | sealBlock block => exact still (sealBlock_leaves _) ok
  | setLocal block slot value => exact still (setLocal_leaves _ _ _) ok
  | getLocal block slot => exact still (along_bind (getLocal_leaves _ _) fun _ => along_pure _) ok
  | emit block opcode type operands immediate =>
      exact still (along_bind (emit_leaves _ _ _ _ _) fun _ => along_pure _) ok
  | constant block type bits => exact still (along_bind (constant_leaves _ _ _) fun _ => along_pure _) ok
  | project block tuple index type =>
      exact still (along_bind (project_leaves _ _ _ _) fun _ => along_pure _) ok
  | undef type => exact still (along_bind (undef_leaves _) fun _ => along_pure _) ok

theorem append_argsAt {type : ValueType} {content : Content}
    (ok : append source type content b = .ok id t) : t.argsAt = b.argsAt := by
  obtain ⟨_, rfl, rfl⟩ := append_ok.mp ok
  funext e
  rw [argsAt, argsAt, appended, block_onBlock]
  change (if e = source then b.blocks[e]?.map _ else b.blocks[e]?).bind _ = _
  split
  · cases b.blocks[e]? <;> rfl
  · rfl

theorem declareArguments_argsAt (other : source ≠ c) (types : List ValueType) :
    Leaves (fun b => b.argsAt c) (declareArguments source types) := by
  have each {α : Type} {m : Attempt Builder α} (leaves : Leaves argsAt m) :
      Leaves (fun b => b.argsAt c) m := fun b =>
    (leaves b).mono (fun _ _ same => congrFun same c) fun _ _ same => congrFun same c
  have change (change : Block → Block) : Leaves (fun b => b.argsAt c) (modifyBlock source change) := by
    refine along_modify fun b => ?_
    beta_reduce
    rw [argsAt, argsAt, Array.getElem?_modify, if_neg other]
  have arguments (index : Nat) : Leaves (fun b => b.argsAt c) (addArguments source index types) := by
    induction types generalizing index with
    | nil => exact along_pure _
    | cons type types ih =>
        exact along_bind (each (addPhi_leaves _ _ _)) fun _ => along_bind (change _) fun _ => ih _
  have adopts (phis : List ValueId) (index : Nat) (preds : List Predecessor) :
      Leaves (fun b => b.argsAt c) (adoptEdges source types phis index preds) := by
    induction preds generalizing index with
    | nil => exact along_pure _
    | cons pred rest ih =>
        exact along_bind (each (pad_leaves _ _)) fun _ => along_bind (change _) fun _ =>
          along_bind (each (feedAll_leaves _ _)) fun _ => ih _
  exact along_bind (blockAt_leaves _) fun _ => along_bind (leaves_maintain _ _) fun _ =>
    along_bind (change _) fun _ => along_bind (arguments _) fun _ => along_bind (blockAt_leaves _)
      fun _ => adopts _ _ _

theorem connect_argsAt (target : BlockId) (args : List ValueId) :
    Leaves argsAt (connect source target args) := by
  have pushes (edge : Predecessor) : Leaves argsAt (modifyBlock target fun k =>
      { k with predecessors := k.predecessors.push edge }) := along_modify fun b => by
    funext e
    rw [argsAt, argsAt, Array.getElem?_modify]
    split
    · cases b.blocks[e]? <;> rfl
    · rfl
  refine along_bind (checkBlock_leaves _) fun _ => along_bind (blockAt_leaves _) fun block =>
    along_bind (leaves_maintain _ _) fun _ => ?_
  cases block.args with
  | none => exact pushes _
  | some phis =>
      exact along_bind along_get fun _ => along_bind (pad_leaves _ _) fun _ =>
        along_bind (feedAll_leaves _ _) fun _ => pushes _

/-- A block that has been given its arguments keeps them. -/
theorem Request.given {request : Request} (ok : request.attempt b = .ok () t) {phis : Array ValueId}
    (given : b.argsAt c = some phis) : t.argsAt c = some phis := by
  have still {m : Attempt Builder Unit} (leaves : Leaves argsAt m) (ok : m b = .ok () t) :
      t.argsAt c = some phis := by rw [leaves.of_ok ok, given]
  have same (unchanged : t.argsAt = b.argsAt) : t.argsAt c = some phis := by rw [unchanged, given]
  cases request with
  | addBlock kind =>
      obtain ⟨a, ok⟩ := discard_ok ok
      rw [Builder.addBlock, get_bind_ok] at ok
      obtain ⟨_, _, pushed, ok⟩ := bind_ok.mp ok
      obtain rfl := modify_ok.mp pushed
      obtain ⟨rfl, rfl⟩ := pure_ok.mp ok
      obtain ⟨k, found, _⟩ := Option.bind_eq_some_iff.mp given
      rw [argsAt, Array.getElem?_push_lt (Array.getElem?_eq_some_iff.mp found).1]
      rwa [argsAt, Array.getElem?_eq_getElem (Array.getElem?_eq_some_iff.mp found).1] at given
  | declareArguments block types =>
      have other : block ≠ c := by
        rintro rfl
        obtain ⟨k, present, undeclared, _⟩ := declareArguments_ok ok
        rw [argsAt, present, Option.bind_some, undeclared] at given
        cases given
      rw [← given]
      exact (declareArguments_argsAt other types).of_ok ok
  | connect source target carried => exact still (connect_argsAt _ _) ok
  | args block => exact still (along_bind (args_leaves _) fun _ => along_pure _) ok
  | sealBlock block => exact still (sealBlock_leaves _) ok
  | setLocal block slot value => exact still (setLocal_leaves _ _ _) ok
  | getLocal block slot => exact still (along_bind (getLocal_leaves _ _) fun _ => along_pure _) ok
  | emit block opcode type operands immediate =>
      obtain ⟨a, ok⟩ := discard_ok ok
      obtain ⟨_, added⟩ := emit_appends ok
      exact same (append_argsAt added)
  | constant block type bits =>
      obtain ⟨a, ok⟩ := discard_ok ok
      obtain ⟨_, added⟩ := constant_appends ok
      exact same (append_argsAt added)
  | project block tuple index type =>
      obtain ⟨a, ok⟩ := discard_ok ok
      obtain ⟨_, added⟩ := project_appends ok
      exact same (append_argsAt added)
  | undef type => exact still (along_bind (undef_leaves _) fun _ => along_pure _) ok

/-- What is in a function for good, whatever is asked for later on. -/
structure Lasts (b t : Builder) : Prop extends b.Descends t where
  bodies : ∀ c, ∃ more, t.bodyOf c = b.bodyOf c ++ more
  edges : b.Retains t
  given : ∀ {c : BlockId} {phis : Array ValueId}, b.argsAt c = some phis → t.argsAt c = some phis

theorem Lasts.refl (aliased : b.Aliased) : b.Lasts b :=
  ⟨.refl aliased, fun _ => ⟨#[], by simp⟩, retains_of_eq rfl, id⟩

theorem Lasts.trans (first : b.Lasts t) (second : t.Lasts u) : b.Lasts u where
  toDescends := first.toDescends.trans second.toDescends
  bodies c := by
    obtain ⟨more, same⟩ := first.bodies c
    obtain ⟨rest, same'⟩ := second.bodies c
    exact ⟨more ++ rest, by rw [same', same, Array.append_assoc]⟩
  edges := first.edges.trans second.edges
  given here := second.given (first.given here)

theorem Request.lasts (request : Request) (aliased : b.Aliased) (ok : request.attempt b = .ok () t) :
    b.Lasts t :=
  ⟨request.descends aliased ok, request.bodies ok, request.retains ok, request.given ok⟩

theorem PerformsAll.lasts {requests : List Request} (performs : PerformsAll b requests t)
    (aliased : b.Aliased) : b.Lasts t := by
  induction performs with
  | nil b => exact .refl aliased
  | @cons b t u request rest first _ ih =>
      have once := request.lasts aliased first
      exact once.trans (ih once.aliased)

end WasmFunclets.Ssa.Builder
