import WasmFunclets.Proofs.Encoding.Unique
import WasmFunclets.Proofs.Filled
import WasmFunclets.Proofs.Typing.Values
import WasmFunclets.Proofs.Typing.Weaker

/-! A table of labels. The first label that is checked gives the operands on top their types, so that the
others must expect exactly these. -/

namespace WasmFunclets

open Attempt

namespace TypedStack

variable {k : TypedStack} {operands : List Operand} {types : List ValueType}

theorem top_extend (above : k.floor ≤ k.height) (length : operands.length = types.length) :
    (k.extend operands).top types.length = operands := by
  rw [top_own _ _ (rests_extend operands above).above, own_extend operands above, List.length_append,
    length, Nat.add_sub_cancel, List.drop_left]

theorem accepts_extend (above : k.floor ≤ k.height) (length : operands.length = types.length)
    (known : ∀ operand ∈ operands, operand.type ≠ .any) :
    (k.extend operands).accepts types = true ↔ operands.map Operand.type = types := by
  constructor
  · intro accepted
    rw [accepts, top_extend above length] at accepted
    have same := fits_eq accepted (by simpa using length) fun type member => by
      obtain ⟨operand, listed, rfl⟩ := List.mem_map.mp (List.mem_reverse.mp member)
      exact known operand listed
    exact List.reverse_inj.mp same
  · rintro rfl
    have own : k.Holds k.ownTypes := holds_ownTypes above
    exact ((own.extend (fit_of_types rfl)).accepts).1

theorem taken_extend (above : k.floor ≤ k.height) :
    (k.extend operands).taken (operands.map Operand.type) = operands := by
  have all := @top_extend k operands (operands.map Operand.type) above (List.length_map _).symm
  rw [taken, all, List.length_map, Nat.sub_self, List.replicate_zero, List.nil_append,
    zipWith_type_value]

theorem extend_again (above : k.floor ≤ k.height) (length : operands.length = types.length) :
    ((k.extend operands).without types).extend operands = k.extend operands := by
  refine ext_operands ?_ rfl rfl
  have height : ((k.extend operands).without types).height = k.height := by
    have reaches : (k.extend operands).reach types.length = types.length := by
      rw [← length_top, top_extend above length, length]
    rw [height_without, reaches, height_extend, length, Nat.add_sub_cancel]
  rw [toList_extend, toList_without, height, toList_extend, height_eq, List.take_left]

end TypedStack

namespace Validation

open Ssa (Forest)
open Ssa.Builder (Request PerformsAll)

variable {context : Context} {strict : Bool} {f : Forest} {written : BlockId → Nat → Prop}
variable {setting : Setting} {bytes : List UInt8} {s t u : State} {types : List ValueType}
variable {values : List ValueId} {depths : List Nat} {frame : Frame}

/-- Operands of the given types lie on top that have the given values. -/
structure OnTop (k : TypedStack) (types : List ValueType) (values : List ValueId) : Prop where
  split : ∃ below : TypedStack, below.floor ≤ below.height ∧ k = below.extend (operandsOf types values)
  length : values.length = types.length

theorem types_operandsOf (types : List ValueType) (values : List ValueId) :
    (operandsOf types values).map Operand.type = types := TypedStack.types_withValues _ _

theorem length_operandsOf (types : List ValueType) (values : List ValueId) :
    (operandsOf types values).length = types.length := TypedStack.length_withValues _ _

theorem supply_operandsOf {b : Ssa.Builder} (length : values.length = types.length) :
    supply (operandsOf types values) b = .ok values b := by
  have full : operandsOf types values = List.zipWith Operand.mk types (values.map some) := by
    simp [operandsOf, TypedStack.withValues, length]
  rw [full]
  clear full
  induction types generalizing values with
  | nil =>
      obtain rfl := List.eq_nil_of_length_eq_zero length
      rfl
  | cons type types ih =>
      cases values with
      | nil => cases length
      | cons value values =>
          rw [List.map_cons, List.zipWith_cons_cons, supply_cons]
          exact bind_ok.mpr ⟨value, b, rfl, bind_ok.mpr ⟨values, b, ih (Nat.succ.inj length), rfl⟩⟩

theorem onTop_of_shared (ok : shareValues types s = .ok values t)
    (above : s.stack.floor ≤ s.stack.height) : OnTop t.stack types values := by
  obtain ⟨_, b, supplied, rfl⟩ := shareValues_ok.mp ok
  refine ⟨⟨_, (TypedStack.rests_without types above).above, rfl⟩, ?_⟩
  rw [length_of_mapM_ok supplied, TypedStack.length_taken]

theorem OnTop.share (onTop : OnTop s.stack types values) :
    shareValues types s = .ok values s := by
  obtain ⟨⟨below, above, split⟩, length⟩ := onTop
  have types_ := types_operandsOf types values
  have accepted : s.stack.accepts types = true := by
    have own : below.Holds below.ownTypes := TypedStack.holds_ownTypes above
    rw [split]
    exact ((own.extend (TypedStack.fit_of_types types_)).accepts).1
  have taken : s.stack.taken types = operandsOf types values := by
    have all := @TypedStack.taken_extend _ (operandsOf types values) above
    rw [types_] at all
    rw [split, all]
  refine shareValues_ok.mpr ⟨accepted, s.builder, by rw [taken, supply_operandsOf length], ?_⟩
  have same : (s.stack.without types).extend (operandsOf types values) = s.stack := by
    rw [split]
    exact TypedStack.extend_again above (length_operandsOf _ _)
  rw [same]

theorem OnTop.types_eq (onTop : OnTop s.stack types values) (known : ∀ t ∈ types, t.isValue = true)
    {others : List ValueType} (size : others.length = types.length)
    (accepted : s.stack.accepts others = true) : others = types := by
  obtain ⟨⟨below, above, split⟩, _⟩ := onTop
  rw [split] at accepted
  have same := (TypedStack.accepts_extend above ((length_operandsOf _ _).trans size.symm)
    fun operand member => ?_).mp accepted
  · rw [← same, types_operandsOf]
  · refine ValueType.ne_any (known _ ?_)
    rw [← types_operandsOf types values]
    exact List.mem_map_of_mem member

/-- All the labels are known, and operands of the given types are what they expect. -/
def State.Expects (s : State) (depths : List Nat) (types : List ValueType) : Prop :=
  ∀ depth ∈ depths, ∃ frame, s.frame? depth = some frame ∧ frame.labelTypes = types

def State.targets (s : State) (depths : List Nat) : List BlockId :=
  depths.filterMap fun depth => (s.frame? depth).map Frame.target

/-- One edge to each of the blocks, one after the other, each with the same values. -/
structure Fans (s : State) (targets : List BlockId) (values : List ValueId) (t : State) : Prop where
  same : t = { s with builder := t.builder }
  requests : PerformsAll s.builder (targets.map fun c => .connect s.current c values) t.builder
  edges : ∀ c, t.builder.edges c = if c ∈ targets
    then (s.builder.edges c).map (·.push ⟨s.current, values⟩) else s.builder.edges c

theorem edges_of_shape (b : Ssa.Builder) (c : BlockId) :
    b.edges c = (b.shape c).map Ssa.Shape.predecessors := by
  rw [Ssa.Builder.edges, Ssa.Builder.shape, Ssa.Builder.outline, Option.map_map, Option.map_map]
  rfl

theorem fans_nil (s : State) (values : List ValueId) : Fans s [] values s :=
  ⟨rfl, .nil _, fun _ => rfl⟩

theorem Fans.cons {c : BlockId} {targets : List BlockId} (first : branchTo c values s = .ok () t)
    (edges : ∀ d, t.builder.edges d = if d = c then (s.builder.edges d).map (·.push ⟨s.current, values⟩)
      else s.builder.edges d)
    (rest : Fans t targets values u) (other : c ∉ targets) : Fans s (c :: targets) values u := by
  obtain ⟨b, connected, rfl⟩ := branchTo_ok.mp first
  refine ⟨by rw [rest.same], .cons connected rest.requests, fun d => ?_⟩
  rw [rest.edges, edges]
  by_cases here : d = c
  · subst here
    simp [other]
  · simp [here]

theorem Branches.edges {c : BlockId} (branches : Branches context strict f written [] s c values t)
    (takes : s.builder.HasArguments c types) (length : values.length = types.length) (d : BlockId) :
    t.builder.edges d = if d = c then (s.builder.edges d).map (·.push ⟨s.current, values⟩)
      else s.builder.edges d := by
  obtain ⟨front, _, full, shape⟩ := branches.joined.edge
  obtain ⟨x, phis, present, args, each⟩ := takes
  have none_ : front = [] := by
    have size := full x present
    rw [args, Option.map_some, Option.getD_some, ← Array.length_toList, each.length_eq,
      List.length_append] at size
    exact List.eq_nil_of_length_eq_zero (by omega)
  subst none_
  rw [edges_of_shape, edges_of_shape, shape]
  split <;> simp [Option.map_map, Function.comp_def]

theorem brTargets_shared {expected : List ValueType} {depth : Nat} {seen : Std.HashSet BlockId}
    (above : s.stack.floor ≤ s.stack.height)
    (ok : brTargets expected (depth :: depths) seen s = .ok () t) :
    ∃ frame values u, s.frame? depth = some frame ∧ frame.labelTypes.length = expected.length ∧
      shareValues frame.labelTypes s = .ok values u ∧
        brTargets expected (depth :: depths) seen u = .ok () t := by
  rw [brTargets, bind_ok] at ok
  obtain ⟨frame, _, label, ok⟩ := ok
  obtain ⟨found, rfl⟩ := labelled_ok.mp label
  obtain ⟨_, _, required, ok⟩ := bind_ok.mp ok
  obtain ⟨size, rfl⟩ := require_ok.mp required
  obtain ⟨values, u, shared, ok⟩ := bind_ok.mp ok
  have again := (onTop_of_shared shared above).share
  have control : u.control = s.control := by
    obtain ⟨_, b, _, rfl⟩ := shareValues_ok.mp shared
    rfl
  refine ⟨frame, values, u, found, size, shared, ?_⟩
  rw [brTargets]
  refine bind_ok.mpr ⟨frame, u, labelled_ok.mpr ⟨?_, rfl⟩, bind_ok.mpr
    ⟨(), u, require_ok.mpr ⟨size, rfl⟩, bind_ok.mpr ⟨values, u, again, ok⟩⟩⟩
  rw [State.frame?, control]
  exact found

theorem contains_insert {seen : Std.HashSet BlockId} {c d : BlockId} :
    (!(seen.insert c).contains d) = (!d == c && !seen.contains d) := by
  rw [Std.HashSet.contains_insert, Bool.not_or, BEq.comm]

theorem eraseDups_unseen {seen : Std.HashSet BlockId} (c : BlockId) (rest : List BlockId) :
    ((c :: rest).filter (!seen.contains ·)).eraseDups =
      if seen.contains c then (rest.filter (!(seen.insert c).contains ·)).eraseDups
      else c :: (rest.filter (!(seen.insert c).contains ·)).eraseDups := by
  have later : rest.filter (!(seen.insert c).contains ·) =
      (rest.filter (!seen.contains ·)).filter (!· == c) := by
    rw [List.filter_filter]
    exact List.filter_congr fun d _ => contains_insert
  by_cases old : seen.contains c = true
  · rw [if_pos old, List.filter_cons_of_neg (by simp [old]), later]
    congr 1
    refine (List.filter_eq_self.mpr fun d member => ?_).symm
    have new := (List.mem_filter.mp member).2
    have other : d ≠ c := by
      rintro rfl
      simp [old] at new
    simpa using other
  · rw [if_neg old, List.filter_cons_of_pos (by simpa using old), List.eraseDups_cons, later]

/-- Behind the first label all the others expect what it does, and each block gets one edge. -/
theorem brTargets_fans {expected : List ValueType} {seen : Std.HashSet BlockId}
    (aligned : Aligned context true f written [] s) (onTop : OnTop s.stack types values)
    (holds : s.builder.HoldAll true f s.current values types) (known : ∀ t ∈ types, t.isValue = true)
    (size : types.length = expected.length)
    (fresh : ∀ frame ∈ s.frames, ¬ seen.contains frame.target = true →
      ¬ s.builder.HasEdge s.current frame.target)
    (ok : brTargets expected depths seen s = .ok () t) : s.Expects depths types ∧
      Fans s ((s.targets depths).filter (!seen.contains ·)).eraseDups values t := by
  -- A block that is not `seen` has no edge from here yet, and gets it with the first label that leads there.
  induction depths generalizing s seen written with
  | nil =>
      rw [brTargets] at ok
      obtain ⟨_, rfl⟩ := pure_ok.mp ok
      exact ⟨by simp [State.Expects], fans_nil _ _⟩
  | cons depth rest ih =>
      rw [brTargets, bind_ok] at ok
      obtain ⟨frame, _, label, ok⟩ := ok
      obtain ⟨found, rfl⟩ := labelled_ok.mp label
      obtain ⟨_, _, required, ok⟩ := bind_ok.mp ok
      obtain ⟨size', rfl⟩ := require_ok.mp required
      obtain ⟨again, u, shared, ok⟩ := bind_ok.mp ok
      obtain same : frame.labelTypes = types :=
        onTop.types_eq known (size'.trans size.symm) (shareValues_ok.mp shared).1
      rw [same] at shared
      cases onTop.share.symm.trans shared
      have head : s.targets (depth :: rest) = frame.target :: s.targets rest := by
        simp [State.targets, found]
      have expects (all : s.Expects rest types) : s.Expects (depth :: rest) types := by
        rw [State.Expects, List.forall_mem_cons]
        exact ⟨⟨frame, found, same⟩, all⟩
      rw [head, eraseDups_unseen]
      dsimp only at ok
      split at ok
      -- the block has its edge from an earlier label
      · rename_i old
        rw [if_pos old]
        refine (ih aligned onTop holds (fun other member unseen => fresh other member fun listed =>
          unseen ?_) ok).imp_left expects
        simp [listed]
      · rename_i new
        rw [if_neg new]
        obtain ⟨_, v, branched, ok⟩ := bind_ok.mp ok
        have member := mem_frames found
        obtain ⟨e, entered⟩ := aligned.frames frame member
        have branches := (branchTo_frame aligned member (same ▸ holds) (fresh frame member new)).of_ok
          branched
        have edges := branches.edges entered.takes (same ▸ onTop.length)
        have still : v = { s with builder := v.builder } := branches.same
        have frames : v.frames = s.frames := by rw [still]; rfl
        have current : v.current = s.current := by rw [still]
        have stack : v.stack = s.stack := by rw [still]
        have frame?_ (n : Nat) : v.frame? n = s.frame? n := by rw [still]; rfl
        have holds' : v.builder.HoldAll true f v.current values types := by
          rw [current]
          exact holds.grow branches.joined.later branches.joined.size aligned.built.sound.formed
            branches.aligned.built.sound.formed (.refl f)
        have fresh' : ∀ other ∈ v.frames, ¬ (seen.insert frame.target).contains other.target = true →
            ¬ v.builder.HasEdge v.current other.target := by
          intro other listed unseen leads
          rw [current] at leads
          rcases branches.joined.hasEdge leads with ⟨target, _⟩ | before
          · exact unseen (by simp [target])
          · exact fresh other (frames ▸ listed) (fun old => unseen (by simp [old])) before
        obtain ⟨all, fans⟩ := ih branches.aligned (stack ▸ onTop) holds' fresh' ok
        have targets : v.targets rest = s.targets rest :=
          List.filterMap_congr fun depth _ => by rw [frame?_]
        rw [targets] at fans
        refine ⟨expects fun depth listed => ?_, fans.cons branched edges fun listed => ?_⟩
        · rw [← frame?_]
          exact all depth listed
        · have unseen := (List.mem_filter.mp (List.mem_eraseDups.mp listed)).2
          simp at unseen

def branchTable (depths : List Nat) (default : Nat) : Step Unit := do
  let index ← takeValue .i32
  emitStatement Opcode.brTableByte [index] depths.length
  let frame ← labelled default
  brTargets frame.labelTypes (depths ++ [default]) ∅

theorem brTable_eq (setting : Setting) (depths : List Nat) (default : Nat) :
    brTable setting depths default = branchTable depths default >>= fun _ => endBlock setting := by
  simp only [brTable, branchTable, bind_assoc]

/-- The rule for a table of labels: all of them are known and expect the same types, and the stack has
operands of these types below an index. -/
def State.AllowsTable (s : State) (labels : List Nat) : Prop :=
  ∃ types index k, s.Expects labels types ∧ TypedStack.popTypes [.i32] s.stack = .ok index k ∧
    k.accepts types = true

/-- What a table of labels adds: at most instructions of the block at hand, and then from this block one
edge to each of the blocks that are listed, in the order in which they are first listed, all with the same
values. -/
def AddsTable (s : State) (labels : List Nat) (t : State) : Prop :=
  ∃ front values,
    PerformsAll s.builder
      (front ++ (s.targets labels).eraseDups.map fun c => .connect s.current c values) t.builder ∧
    (∀ request ∈ front, request.source = none) ∧
    (∀ c ∈ s.targets labels, ∃ old, s.builder.edges c = some old ∧
      t.builder.edges c = some (old.push ⟨s.current, values⟩)) ∧
    ∀ c ∉ s.targets labels, t.builder.edges c = s.builder.edges c

theorem TakesValues.edges {stack : TypedStack}
    (takes : TakesValues context strict f written extra s stack types values t) :
    t.builder.edges = s.builder.edges := by
  funext c
  rw [edges_of_shape, edges_of_shape, takes.aside.shape]

theorem Asks.fills {α : Type} {m : Step α} {a : α} (asks : Asks FillsCurrent m) (ok : m s = .ok a t) :
    ∃ requests, PerformsAll s.builder requests t.builder ∧ ∀ request ∈ requests, request.source = none := by
  obtain ⟨requests, performs, fine⟩ := (asks.requests s).of_ok ok
  exact ⟨requests, performs, fun request member => (fine request member).1⟩

theorem Aligned.edges_of_target (aligned : Aligned context strict f written [] s) {labels : List Nat}
    {c : BlockId} (listed : c ∈ s.targets labels) : ∃ old, s.builder.edges c = some old := by
  obtain ⟨depth, _, found⟩ := List.mem_filterMap.mp listed
  obtain ⟨frame, shown, rfl⟩ := Option.map_eq_some_iff.mp found
  obtain ⟨_, entered⟩ := aligned.frames frame (mem_frames shown)
  obtain ⟨x, _, present, _⟩ := entered.takes
  exact ⟨x.predecessors, by rw [edges_of_shape, present, Option.map_some]⟩

theorem branchTable_ok {default : Nat} (aligned : Aligned context true f written [] s)
    (unused : ¬ s.builder.Used s.current) (ok : branchTable depths default s = .ok () t) :
    s.AllowsTable (depths ++ [default]) ∧ AddsTable s (depths ++ [default]) t := by
  rw [branchTable, bind_ok] at ok
  obtain ⟨index, s₁, popped, ok⟩ := ok
  have taken := (takeValue_aligned aligned fun _ => rfl).of_ok popped
  obtain ⟨_, s₂, emitted, ok⟩ := bind_ok.mp ok
  obtain ⟨same₂, aside₂, aligned₂⟩ := (emitStatement_aligned taken.aligned taken.at_hand
    fun _ => Opcode.operandTypes_brTable).of_ok emitted
  obtain ⟨frame, _, label, ok⟩ := bind_ok.mp ok
  obtain ⟨found, rfl⟩ := labelled_ok.mp label
  obtain ⟨depth, rest, labels⟩ : ∃ depth rest, depths ++ [default] = depth :: rest :=
    List.exists_cons_of_ne_nil (by simp)
  rw [labels] at ok ⊢
  obtain ⟨first, values, u, found', size, shared, ok⟩ := brTargets_shared aligned₂.above ok
  have labelTypes := aligned₂.labels (mem_frames found') rfl
  have takes := (shareValues_aligned aligned₂ fun _ => labelTypes).of_ok shared
  -- The frames, the block at hand and its edges are still those of the first state.
  have same : u = { s with stack := u.stack, builder := u.builder } := by
    rw [takes.same, same₂, taken.same]
  have current : u.current = s.current := by rw [same]
  have frame?_ (n : Nat) : u.frame? n = s.frame? n := by rw [same]; rfl
  have stack : s₂.stack = s.stack.without [.i32] := by rw [same₂, taken.same]
  have targets : u.targets (depth :: rest) = s.targets (depth :: rest) :=
    List.filterMap_congr fun n _ => by rw [frame?_]
  have edges : u.builder.edges = s.builder.edges := by
    rw [takes.edges, ← taken.edges]
    funext c
    rw [edges_of_shape, edges_of_shape, aside₂.shape]
  have idle : ¬ u.builder.Used u.current := by
    rw [current, takes.aside.used, aside₂.used, taken.aside.used]
    exact unused
  obtain ⟨all, fans⟩ := brTargets_fans takes.aligned (onTop_of_shared shared aligned₂.above)
    takes.at_hand labelTypes size (fun _ _ _ => Ssa.Builder.not_hasEdge_of_unused idle) ok
  simp only [Std.HashSet.contains_empty, Bool.not_false, List.filter_true, targets] at fans
  refine ⟨⟨first.labelTypes, _, _, fun n listed => ?_, TypedStack.popTypes_ok.mpr ⟨?_, rfl, rfl⟩, ?_⟩, ?_⟩
  · rw [← frame?_]
    exact all n listed
  · obtain ⟨_, took, _⟩ := takeValue_ok.mp popped
    exact (takeValues_ok.mp took).1
  · rw [← stack]
    exact (shareValues_ok.mp shared).1
  · have fills : Asks FillsCurrent (do
        let index ← takeValue .i32
        emitStatement Opcode.brTableByte [index] depths.length
        shareValues first.labelTypes) :=
      along_bind (asks_takeValue _) fun _ => along_bind (asks_emitStatement _ _ _) fun _ =>
        asks_shareValues _
    obtain ⟨front, performs, fine⟩ := fills.fills (bind_ok.mpr ⟨index, s₁, popped, bind_ok.mpr
      ⟨(), s₂, emitted, shared⟩⟩)
    have requests := performs.append fans.requests
    rw [current] at requests
    have after (c : BlockId) := fans.edges c
    simp only [List.mem_eraseDups, edges, current] at after
    refine ⟨front, values, requests, fine, fun c listed => ?_, fun c other => ?_⟩
    · obtain ⟨old, before⟩ := aligned.edges_of_target listed
      exact ⟨old, before, by rw [after, if_pos listed, before, Option.map_some]⟩
    · rw [after, if_neg other]

theorem leavesTypes_takeValue_of_accepts {type : ValueType} {outer : List ValueType}
    (accepted : s.stack.accepts [type] = true) (above : s.stack.floor ≤ s.stack.height)
    (left : (s.stack.without [type]).Holds outer) : LeavesTypes (takeValue type) s outer := by
  have taken : LeavesTypes (takeValues [type]) s outer :=
    leavesTypes_onStack_bind (TypedStack.popTypes_ok.mpr ⟨accepted, rfl, rfl⟩)
      (TypedStack.rests_without [type] above) ((aloof_valuesOf _).leavesTypes left)
  exact leavesTypes_bind taken fun _ _ _ holds => leavesTypes_pure holds

theorem leavesTypes_branchTable {default : Nat} (above : s.stack.floor ≤ s.stack.height)
    (allowed : s.AllowsTable (depths ++ [default])) :
    ∃ outer, LeavesTypes (branchTable depths default) s outer := by
  obtain ⟨types, _, k, expects, popped, accepted⟩ := allowed
  obtain ⟨index, _, same⟩ := TypedStack.popTypes_ok.mp popped
  rw [same] at accepted
  have left := TypedStack.holds_of_accepts (TypedStack.rests_without _ above).above accepted
  refine ⟨((s.stack.without [.i32]).without types).ownTypes ++ types,
    leavesTypes_bind (leavesTypes_takeValue_of_accepts index above left) fun value t near holds => ?_⟩
  refine leavesTypes_bind ((aloof_emitStatement _ _ _).leavesTypes holds) fun _ u near' holds => ?_
  obtain ⟨frame, found, rfl⟩ := expects default (by simp)
  refine ends_bind_of_ok (labelled_ok.mpr ⟨?_, rfl⟩) (leavesTypes_brTargets (fun depth listed => ?_) holds)
  · rw [near'.frame?, near.frame?, found]
  · rw [near'.frame?, near.frame?]
    exact expects depth listed

theorem branchTable_ends {default : Nat} (aligned : Aligned context true f written [] s)
    (framed : Framed s) (unused : ¬ s.builder.Used s.current) :
    Ends (branchTable depths default) s
      (fun _ t => s.AllowsTable (depths ++ [default]) ∧ AddsTable s (depths ++ [default]) t)
      fun e t => e.IsRefusal ∧ ¬ s.AllowsTable (depths ++ [default]) ∨
        Ssa.Builder.Exhausted e t.builder := by
  have fails : Ends (branchTable depths default) s (fun _ _ => True) Refused := by
    refine ends_conditional aligned framed (fun _ => Opcode.operandTypes_brTable) fun t stays _ => ?_
    have aligned' := stays.aligned
    rw [ends_bind]
    exact ends_labelled fun frame _ => (brTargets_aligned _ ∅ aligned' fun _ _ _ =>
      Ssa.Builder.not_hasEdge_of_unused (stays.idle unused)).imp fun _ _ _ => trivial
  refine ends_of_forall (fun _ t ok => branchTable_ok aligned unused ok) fun e t error => ?_
  refine (fails.of_error error).imp_left fun refused => ⟨refused, fun allowed => ?_⟩
  obtain ⟨_, leads⟩ := leavesTypes_branchTable aligned.above allowed
  exact leads.of_error error refused

/-- A step that comes to a table of labels, up to where the block at hand ends. -/
def tableStep (setting : Setting) : Step Unit := do
  let i ← fetch setting
  modify fun s => { s with decoded := s.decoded + 1 }
  match i with
  | .brTable depths default => branchTable depths default
  | _ => pure ()

def twoLabels : List UInt8 :=
  [0x00, 0x02, 0x40, 0x02, 0x40, 0x20, 0x00, 0x0e, 0x02, 0x00, 0x01, 0x00, 0x0b, 0x0b, 0x20, 0x00, 0x0b]

theorem twoLabels_written :
    Encoding.OfLine ⟨⟨0x0e, "br_table", .brTable⟩, .labels [0, 1] 0⟩ [0x0e, 0x02, 0x00, 0x01, 0x00] := by
  have one : Encoding.Unsigned 32 1 [0x01] := @Encoding.Unsigned.last 32 0x01 (by decide) (by decide)
  have two : Encoding.Unsigned 32 2 [0x02] := @Encoding.Unsigned.last 32 0x02 (by decide) (by decide)
  exact .mk rfl (@Encoding.OfImmediate.labels [0, 1] 0 [0x02] _ two
    (.cons Encoding.zero_written (.cons one (.cons Encoding.zero_written .nil))))

end Validation

end WasmFunclets
