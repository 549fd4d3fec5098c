import WasmFunclets.Proofs.Ssa.Edit

/-! Edges and the arguments of blocks: a block may be given its arguments before, between or after
its edges, and in the end each argument has one operand for each edge. -/

namespace WasmFunclets.Ssa.Builder

open Attempt

variable {strict : Bool} {written : BlockId → Nat → Prop} {filling : ValueId → Prop}
variable {closing : Option BlockId} {giving : Option (BlockId × Nat)} {b t u : Builder}

def fedAll (b : Builder) (phis values : List ValueId) : Builder :=
  (phis.zip values).foldl (fun b entry => b.fed entry.1 entry.2) b

structure Feeds (b : Builder) (phis values : List ValueId) (t : Builder) : Prop where
  blocks : t.blocks = b.blocks
  locals : t.locals = b.locals
  paramCount : t.paramCount = b.paramCount
  substitution : t.substitution = b.substitution
  size : t.values.size = b.values.size
  others : ∀ {i : ValueId}, i ∉ phis → t.look i = b.look i
  own : ∀ {j : Nat} {i v : ValueId}, phis[j]? = some i → values[j]? = some v →
    t.look i = (b.look i).map (Value.updatePhi (Phi.feed (b.representative v)))

theorem feeds_fedAll {phis : List ValueId} (nodup : phis.Nodup) (values : List ValueId)
    (length : values.length = phis.length) : b.Feeds phis values (b.fedAll phis values) := by
  rw [fedAll]
  induction phis generalizing b values with
  | nil => exact ⟨rfl, rfl, rfl, rfl, rfl, fun _ => rfl, fun absurd_ => by simp at absurd_⟩
  | cons phi phis ih =>
      obtain ⟨v, values, rfl⟩ : ∃ v rest, values = v :: rest :=
        List.exists_cons_of_length_eq_add_one length
      obtain ⟨fresh, nodup⟩ := List.nodup_cons.mp nodup
      rw [List.zip_cons_cons, List.foldl_cons]
      obtain ⟨blocks, locals, paramCount, substitution, size, others, own⟩ :=
        ih (b := b.fed phi v) nodup values (by simpa using length)
      refine ⟨blocks.trans (blocks_fed _ _), locals.trans (locals_fed _ _),
        paramCount.trans (paramCount_fed _ _), substitution.trans (substitution_fed _ _),
        size.trans (size_fed _ _), fun {i} other => ?_, fun {j i w} place value => ?_⟩
      · rw [others fun member => other (List.mem_cons_of_mem _ member), look_fed,
          if_neg (List.ne_of_not_mem_cons other)]
      · cases j with
        | zero =>
            cases place
            cases value
            rw [others fresh, look_fed, if_pos rfl]
        | succ j =>
            rw [List.getElem?_cons_succ] at place value
            have ne : i ≠ phi := fun same => fresh (same ▸ List.mem_of_getElem? place)
            rw [own place value, look_fed, if_neg ne, representative_fed]

theorem feedAll_ends (phis values : List ValueId)
    (inside : ∀ v ∈ values, b.representative v < b.values.size) :
    Ends (feedAll phis values) b (fun _ t => t = b.fedAll phis values) fun _ _ => False := by
  rw [feedAll, fedAll]
  replace inside : ∀ entry ∈ phis.zip values, b.representative entry.2 < b.values.size :=
    fun entry member => inside entry.2 (List.of_mem_zip member).2
  generalize phis.zip values = entries at inside
  induction entries generalizing b with
  | nil => exact rfl
  | cons entry rest ih =>
      rw [List.foldl_cons]
      change Ends (feed entry.1 entry.2 >>= fun _ => rest.forM _) b _ _
      rw [ends_bind]
      refine (feed_ends entry.1 (inside entry List.mem_cons_self)).mono ?_ fun _ _ => False.elim
      rintro _ _ rfl
      refine ih (b := b.fed entry.1 entry.2) fun entry' member => ?_
      rw [representative_fed, size_fed]
      exact inside entry' (List.mem_cons_of_mem _ member)

section Feeds

variable {phis values : List ValueId}

theorem Feeds.representative (feeds : b.Feeds phis values t) : t.representative = b.representative := by
  funext i
  rw [Builder.representative, feeds.substitution, Builder.representative]

theorem Feeds.definition (feeds : b.Feeds phis values t) : t.definition = b.definition := by
  funext c s
  rw [Builder.definition, feeds.blocks, Builder.definition]

theorem Feeds.outline (feeds : b.Feeds phis values t) : t.outline = b.outline := by
  funext c
  rw [Builder.outline, feeds.blocks, Builder.outline]

theorem Feeds.back (feeds : b.Feeds phis values t) (length : values.length = phis.length)
    {i : ValueId} {v : Value} (shown : t.look i = some v) : ∃ u, b.look i = some u ∧
      u.type = v.type ∧ u.block = v.block ∧ u.content.isInstruction = v.content.isInstruction ∧
      (v = u ∧ i ∉ phis ∨ ∃ (j : Nat) (w : ValueId), phis[j]? = some i ∧ values[j]? = some w ∧
        v = u.updatePhi (Phi.feed (b.representative w))) := by
  by_cases own : i ∈ phis
  · obtain ⟨j, place⟩ := List.mem_iff_getElem?.mp own
    have bound : j < values.length := length ▸ (List.getElem?_eq_some_iff.mp place).1
    have value := List.getElem?_eq_getElem bound
    rw [feeds.own place value] at shown
    obtain ⟨u, before, rfl⟩ := Option.map_eq_some_iff.mp shown
    refine ⟨u, before, (Value.type_updatePhi _ u).symm, (Value.block_updatePhi _ u).symm, ?_,
      .inr ⟨j, _, place, value, rfl⟩⟩
    obtain ⟨_, _, _ | _ | _ | _ | _ | _ | _⟩ := u <;> rfl
  · exact ⟨v, feeds.others own ▸ shown, rfl, rfl, rfl, .inl ⟨rfl, own⟩⟩

end Feeds

/-- Arguments that are not complete yet may get operands of their types. -/
theorem fedAll_sound (phis values : List ValueId) (formed : b.Formed strict)
    (flow : b.Flow strict written filling closing) (nodup : phis.Nodup)
    (each : ∀ {j : Nat} {i v : ValueId}, phis[j]? = some i → values[j]? = some v →
      v < b.values.size ∧ ∃ type c k p, b.ArgumentPhi i type c k p ∧ p.complete = false ∧
        (strict = true → ∀ w, b.look (b.representative v) = some w → w.type.admits type = true)) :
    (b.fedAll phis values).Formed strict ∧ (b.fedAll phis values).Flow strict written filling closing ∧
      b.Later (b.fedAll phis values) := by
  rw [fedAll]
  induction phis generalizing b values with
  | nil => exact ⟨formed, flow, (Reads.refl formed).later⟩
  | cons phi phis ih =>
      cases values with
      | nil => exact ⟨formed, flow, (Reads.refl formed).later⟩
      | cons v values =>
          obtain ⟨fresh, nodup⟩ := List.nodup_cons.mp nodup
          obtain ⟨bound, type, c, k, p, shown, incomplete, typed⟩ := each (j := 0) rfl rfl
          have stays := formed.stays shown.1 incomplete
          have touch := retouches_fed shown.1 stays v
          have formed' : (b.fed phi v).Formed strict := by
            refine touch.formed formed fun o member => ?_
            rcases Array.mem_push.mp member with old | rfl
            · exact .inl old
            · refine .inr ⟨formed.representative_lt bound, fun checked w leader => ?_⟩
              rw [formed.representative_idem] at leader
              exact typed checked w leader
          -- what `Flow` asks of a local's phi does not concern an argument
          have noLocal {s : Nat} (role : (p.feed (b.representative v)).role = .local s) : False := by
            cases shown.2.symm.trans role
          have flow' : (b.fed phi v).Flow strict written filling closing :=
            touch.flow formed formed' flow (fun _ fills _ => fills)
              (fun _ role => (noLocal role).elim) (fun _ role => (noLocal role).elim)
              fun _ role => (noLocal role).elim
          rw [List.zip_cons_cons, List.foldl_cons]
          have rest : ∀ {j : Nat} {i w : ValueId}, phis[j]? = some i → values[j]? = some w →
              w < (b.fed phi v).values.size ∧ ∃ type c k p, (b.fed phi v).ArgumentPhi i type c k p ∧
                p.complete = false ∧ (strict = true → ∀ u,
                  (b.fed phi v).look ((b.fed phi v).representative w) = some u →
                    u.type.admits type = true) := by
            intro j i w place value
            obtain ⟨bound', type', c', k', p', shown', incomplete', typed'⟩ :=
              each (j := j + 1) place value
            have ne : i ≠ phi := fun same => fresh (same ▸ List.mem_of_getElem? place)
            refine ⟨by rwa [size_fed], type', c', k', p',
              ⟨by rw [touch.others ne, shown'.1], shown'.2⟩, incomplete', fun checked u leader => ?_⟩
            rw [representative_fed] at leader
            obtain ⟨u', before, type_eq, _⟩ := touch.back leader
            rw [← type_eq]
            exact typed' checked u' before
          obtain ⟨formed'', flow'', later⟩ := ih values formed' flow' nodup rest
          exact ⟨formed'', flow'', (touch.later formed).trans later⟩

/-- An argument phi gets an operand if it is one of the block's. -/
theorem Ledger.feeds_back {c : BlockId} {n : Nat} {o : BlockOutline} {phis : Array ValueId}
    {pred : Predecessor} (ledger : b.Ledger closing (some (c, n))) (present : b.outline c = some o)
    (args : o.args = some phis) (length : pred.args.length = phis.toList.length)
    (feeds : b.Feeds phis.toList pred.args t) {i : ValueId} {type : ValueType} {e : BlockId} {j : Nat}
    {p : Phi} (phi : t.ArgumentPhi i type e j p) :
    b.ArgumentPhi i type e j p ∧ e ≠ c ∨ e = c ∧ ∃ q w, b.ArgumentPhi i type c j q ∧
      pred.args[j]? = some w ∧ p = q.feed (b.representative w) := by
  obtain ⟨u, before, _, _, _, ⟨rfl, out⟩ | ⟨k, w, place, value, eq⟩⟩ := feeds.back length phi.1
  · refine .inl ⟨⟨before, phi.2⟩, ?_⟩
    rintro rfl
    obtain ⟨phis', args', place⟩ := ledger.listed ⟨before, phi.2⟩ present
    rw [args] at args'
    cases args'
    exact out (Array.mem_toList_iff.mpr (Array.mem_of_getElem? place))
  · rw [Array.getElem?_toList] at place
    obtain ⟨type', q, shown, role⟩ := ledger.argument present args place
    rw [before] at shown
    cases shown
    obtain ⟨rfl, rfl, rfl⟩ : type = type' ∧ e = c ∧ p = q.feed (b.representative w) := by
      simpa [Value.updatePhi] using eq
    have same : k = j := by
      have := role.symm.trans phi.2
      simpa using this
    subst same
    exact .inr ⟨rfl, q, w, ⟨before, role⟩, value, rfl⟩

/-- An edge's values are handed to the arguments of its block. -/
theorem Ledger.feeds {c : BlockId} {n : Nat} {o : BlockOutline} {phis : Array ValueId}
    {pred : Predecessor} (ledger : b.Ledger closing (some (c, n))) (present : b.outline c = some o)
    (args : o.args = some phis) (edge : o.predecessors[n]? = some pred)
    (length : pred.args.length = phis.toList.length)
    (idem : ∀ i, b.representative (b.representative i) = b.representative i) (feeds : b.Feeds phis.toList pred.args t) :
    t.Ledger closing (some (c, n + 1)) := by
  have outlines := feeds.outline
  have reps := feeds.representative
  have grows {e : BlockId} {edges : Nat} (other : e ≠ c) :
      reach (some (c, n + 1)) e edges = reach (some (c, n)) e edges := by
    simp [reach, other]
  -- The phis of the arguments have one more operand, that of the edge at hand.
  constructor
  case home_lt =>
    intro i v e shown home
    obtain ⟨u, before, _, block, _⟩ := feeds.back length shown
    rw [feeds.blocks]
    exact ledger.home_lt before (block.trans home)
  case body =>
    intro e o' present' i
    rw [outlines] at present'
    rw [ledger.body present']
    constructor
    · rintro ⟨v, before, home, listed⟩
      have out : i ∉ phis.toList := by
        intro member
        obtain ⟨j, place⟩ := List.mem_iff_getElem?.mp member
        rw [Array.getElem?_toList] at place
        obtain ⟨_, _, shown, _⟩ := ledger.argument present args place
        rw [before] at shown
        cases shown
        cases listed
      exact ⟨v, by rw [feeds.others out, before], home, listed⟩
    · rintro ⟨v, shown, home, listed⟩
      obtain ⟨u, before, _, block, kind, _⟩ := feeds.back length shown
      exact ⟨u, before, block.trans home, kind.trans listed⟩
  case body_nodup =>
    intro e o' present'
    exact ledger.body_nodup (outlines ▸ present')
  case carried_lt =>
    intro e o' present' pred' member arg carried
    rw [feeds.size]
    exact ledger.carried_lt (outlines ▸ present') pred' member arg carried
  case argument =>
    intro e o' phis' present' args' j i place
    obtain ⟨type, p, shown, role⟩ := ledger.argument (outlines ▸ present') args' place
    by_cases own : i ∈ phis.toList
    · obtain ⟨k, place'⟩ := List.mem_iff_getElem?.mp own
      have bound : k < pred.args.length := length ▸ (List.getElem?_eq_some_iff.mp place').1
      refine ⟨type, p.feed (b.representative pred.args[k]), ?_, role⟩
      rw [feeds.own place' (List.getElem?_eq_getElem bound), shown]
      rfl
    · exact ⟨type, p, by rw [feeds.others own, shown], role⟩
  case listed =>
    intro i type e j p o' phi present'
    rw [outlines] at present'
    rcases ledger.feeds_back present args length feeds phi with ⟨before, _⟩ | ⟨rfl, q, w, before, _⟩
    · exact ledger.listed before present'
    · exact ledger.listed before present'
  case carried =>
    intro e o' phis' present' args' i pred' reached place
    rw [outlines] at present'
    by_cases here : e = c
    · subst here
      rw [present] at present'
      cases present'
      rw [args] at args'
      cases args'
      simp only [reach, if_true] at reached
      rcases Nat.lt_or_eq_of_le (Nat.le_of_lt_succ reached) with below | rfl
      · exact ledger.carried present args (by simpa [reach] using below) place
      · rw [edge] at place
        cases place
        exact length
    · rw [grows here] at reached
      exact ledger.carried present' args' reached place
  case operands =>
    intro i type e j p o' phi present'
    rw [outlines] at present'
    rw [reps]
    rcases ledger.feeds_back present args length feeds phi with ⟨before, other⟩ | ⟨rfl, q, w, before, value, rfl⟩
    · rw [grows other]
      exact ledger.operands before present'
    · rw [present] at present'
      cases present'
      obtain ⟨size, each⟩ := ledger.operands before present
      simp only [reach, if_true] at size ⊢
      refine ⟨by rw [Phi.feed, Array.size_push, size], fun {i v} operand => ?_⟩
      rw [Phi.feed, Array.getElem?_push] at operand
      split at operand
      · rename_i last
        cases operand
        exact ⟨pred, w, by rw [last, size, edge], value, (idem w).symm⟩
      · exact each operand
  case complete =>
    intro i type e j p o' phi present'
    rw [outlines] at present'
    rcases ledger.feeds_back present args length feeds phi with ⟨before, _⟩ | ⟨rfl, q, w, before, _, rfl⟩
    · exact ledger.complete before present'
    · have rule := ledger.complete before present'
      exact rule

theorem Ledger.regive {giving' : Option (BlockId × Nat)} (ledger : b.Ledger closing giving)
    (agrees : ∀ {c : BlockId} {o : BlockOutline}, b.outline c = some o → o.args = none ∨
      reach giving' c o.predecessors.size = reach giving c o.predecessors.size) :
    b.Ledger closing giving' :=
  { ledger with
    carried := fun {c o phis} present args => by
      rcases agrees present with none_ | same
      · rw [none_] at args
        cases args
      · rw [same]
        exact ledger.carried present args
    operands := fun {id type c j p o} phi present => by
      rcases agrees present with none_ | same
      · obtain ⟨_, args, _⟩ := ledger.listed phi present
        rw [none_] at args
        cases args
      · rw [same]
        exact ledger.operands phi present }

def reroute (b : Builder) (c : BlockId) (f : Array Predecessor → Array Predecessor) : Builder :=
  b.onBlock c fun k => { k with predecessors := f k.predecessors }

theorem outline_reroute (c : BlockId) (f : Array Predecessor → Array Predecessor) (e : BlockId) :
    (b.reroute c f).outline e = if e = c then
      (b.outline e).map fun o => { o with predecessors := f o.predecessors } else b.outline e :=
  outline_onBlock c (f := fun o => { o with predecessors := f o.predecessors }) (fun _ => rfl) e

/-- Edges whose values have not been taken yet may change. -/
theorem Ledger.reroute {c : BlockId} {n : Nat} {o : BlockOutline}
    {f : Array Predecessor → Array Predecessor} (ledger : b.Ledger closing (some (c, n)))
    (present : b.outline c = some o) (same : ∀ i < n, (f o.predecessors)[i]? = o.predecessors[i]?)
    (carried : ∀ pred ∈ f o.predecessors, ∀ arg ∈ pred.args, arg < b.values.size) :
    (b.reroute c f).Ledger closing (some (c, n)) := by
  have back {e : BlockId} {o' : BlockOutline} (shown : (b.reroute c f).outline e = some o') :
      ∃ o'', b.outline e = some o'' ∧ o'.isSealed = o''.isSealed ∧ o'.args = o''.args ∧
        o'.body = o''.body ∧ (o'.predecessors = o''.predecessors ∧ e ≠ c ∨
          e = c ∧ o'' = o ∧ o'.predecessors = f o.predecessors) := by
    rw [outline_reroute] at shown
    split at shown
    · rename_i here
      obtain ⟨o'', before, rfl⟩ := Option.map_eq_some_iff.mp shown
      rw [here, present] at before
      cases before
      exact ⟨o, here ▸ present, rfl, rfl, rfl, .inr ⟨here, rfl, rfl⟩⟩
    · exact ⟨o', shown, rfl, rfl, rfl, .inl ⟨rfl, ‹_›⟩⟩
  constructor
  case home_lt =>
    intro i v e shown home
    have count : (b.reroute c f).blocks.size = b.blocks.size := size_onBlock _ _
    rw [count]
    exact ledger.home_lt shown home
  case body =>
    intro e o' shown i
    obtain ⟨o'', before, _, _, body, _⟩ := back shown
    rw [body]
    exact ledger.body before i
  case body_nodup =>
    intro e o' shown
    obtain ⟨o'', before, _, _, body, _⟩ := back shown
    rw [body]
    exact ledger.body_nodup before
  case carried_lt =>
    intro e o' shown pred member
    obtain ⟨o'', before, _, _, _, ⟨edges, _⟩ | ⟨rfl, rfl, edges⟩⟩ := back shown
    · exact ledger.carried_lt before pred (edges ▸ member)
    · exact carried pred (edges ▸ member)
  case argument =>
    intro e o' phis shown args
    obtain ⟨o'', before, _, args', _⟩ := back shown
    exact ledger.argument before (args' ▸ args)
  case listed =>
    intro i type e j p o' phi shown
    obtain ⟨o'', before, _, args', _⟩ := back shown
    rw [args']
    exact ledger.listed phi before
  case carried =>
    intro e o' phis shown args i pred reached place
    obtain ⟨o'', before, _, args', _, ⟨edges, _⟩ | ⟨rfl, rfl, edges⟩⟩ := back shown
    · rw [edges] at reached place
      exact ledger.carried before (args' ▸ args) reached place
    · have below : i < n := by simpa [reach] using reached
      rw [edges, same i below] at place
      exact ledger.carried before (args' ▸ args) (by simpa [reach] using below) place
  case operands =>
    intro i type e j p o' phi shown
    obtain ⟨o'', before, _, _, _, ⟨edges, _⟩ | ⟨rfl, rfl, edges⟩⟩ := back shown
    · rw [edges]
      exact ledger.operands phi before
    · obtain ⟨size, each⟩ := ledger.operands phi before
      have size : p.operands.size = n := by simpa [reach] using size
      refine ⟨by simpa [reach] using size, fun {i v} operand => ?_⟩
      obtain ⟨pred, arg, place, rest⟩ := each operand
      have below : i < n := size ▸ (Array.getElem?_eq_some_iff.mp operand).1
      exact ⟨pred, arg, by rw [edges, same i below, place], rest⟩
  case complete =>
    intro i type e j p o' phi shown
    obtain ⟨o'', before, isSealed, _⟩ := back shown
    rw [isSealed]
    exact ledger.complete phi before

theorem reshapes_reroute {c : BlockId} {k : Block} (f : Array Predecessor → Array Predecessor)
    (present : b.blocks[c]? = some k) (isOpen : k.isSealed = false)
    (grown : EdgesLast k.predecessors (f k.predecessors))
    (inside : ∀ pred ∈ f k.predecessors, pred.block < b.blocks.size) :
    b.Reshapes c fun k => { k with predecessors := f k.predecessors } := by
  refine ⟨fun _ => rfl, fun _ => rfl, fun _ => rfl, fun _ => rfl, fun _ _ => rfl, fun k' before => ?_⟩
  rw [present] at before
  cases before
  exact .inr ⟨isOpen, grown, inside⟩

theorem fed_reroute (c : BlockId) (f : Array Predecessor → Array Predecessor) (phi v : ValueId) :
    (b.reroute c f).fed phi v = (b.fed phi v).reroute c f := by
  unfold fed
  dsimp only
  split
  · rename_i use
    rw [if_pos (by exact use)]
    rfl
  · rename_i idle
    rw [if_neg (by exact idle)]
    rfl

theorem fedAll_reroute (c : BlockId) (f : Array Predecessor → Array Predecessor)
    (phis values : List ValueId) :
    (b.reroute c f).fedAll phis values = (b.fedAll phis values).reroute c f := by
  rw [fedAll, fedAll]
  generalize phis.zip values = entries
  induction entries generalizing b with
  | nil => rfl
  | cons entry rest ih => rw [List.foldl_cons, List.foldl_cons, fed_reroute, ih]

def Suits (b : Builder) (args : List ValueId) (types : List ValueType) : Prop :=
  ∀ (k : Nat) (v : ValueId) (type : ValueType), args[k]? = some v →
    types[types.length - args.length + k]? = some type → ∀ w, b.look (b.representative v) = some w →
      w.type.admits type = true

def typesOf (b : Builder) (phis : List ValueId) : List ValueType :=
  phis.map fun phi => (b.values[phi]?.map Value.type).getD .null

@[simp] theorem length_typesOf (phis : List ValueId) : (b.typesOf phis).length = phis.length :=
  List.length_map _

theorem getElem?_typesOf {phis : List ValueId} {j : Nat} {phi : ValueId} {v : Value}
    (place : phis[j]? = some phi) (shown : b.look phi = some v) :
    (b.typesOf phis)[j]? = some v.type := by
  obtain ⟨u, value, rfl⟩ := Option.map_eq_some_iff.mp shown
  rw [typesOf, List.getElem?_map, place]
  simp [value, Value.plain]

/-- Values for a list of types that ends with the given ones, filled up with undefined values. -/
structure Padded (b : Builder) (types : List ValueType) (args filled : List ValueId) (t : Builder) :
    Prop where
  pads : b.Pads t
  reads : b.Reads t
  split : ∃ front, filled = front ++ args ∧ ∀ {j : Nat} {id : ValueId}, front[j]? = some id →
    b.values.size ≤ id ∧ ∃ type, types[j]? = some type ∧ t.look id = some ⟨type, none, .undef⟩
  length : filled.length = types.length

theorem pad_ends {types : List ValueType} {args : List ValueId} (fits : args.length ≤ types.length)
    (formed : b.Formed strict) (flow : b.Flow strict written filling closing)
    (ledger : b.Ledger closing giving) :
    Ends (pad types args) b (fun filled t => t.Formed strict ∧
      t.Flow strict written filling closing ∧ t.Ledger closing giving ∧
      b.Padded types args filled t) Exhausted := by
  rw [pad, ends_bind, ends_maintain]
  refine ⟨fun _ => ?_, fun absurd_ => absurd fits absurd_⟩
  rw [ends_bind]
  refine (undefs_ends _ formed flow ledger).imp ?_
  rintro front t ⟨formed', flow', ledger', reads, pads, length, each⟩
  rw [List.length_take] at length
  refine ⟨formed', flow', ledger', pads, reads, ⟨front, rfl, fun {j id} place => ?_⟩, ?_⟩
  · obtain ⟨new, type, type_, shown⟩ := each j id place
    rw [List.getElem?_take] at type_
    split at type_
    · exact ⟨new, type, type_, shown⟩
    · cases type_
  · rw [List.length_append, length]
    omega

theorem Padded.bound {types : List ValueType} {args filled : List ValueId}
    (padded : b.Padded types args filled t) (inside : ∀ v ∈ args, v < b.values.size) :
    ∀ v ∈ filled, v < t.values.size := by
  obtain ⟨front, rfl, each⟩ := padded.split
  intro v member
  rcases List.mem_append.mp member with new | old
  · obtain ⟨j, place⟩ := List.mem_iff_getElem?.mp new
    obtain ⟨_, _, _, shown⟩ := each place
    exact lt_of_look shown
  · exact Nat.lt_of_lt_of_le (inside v old) padded.reads.size

/-- Given values of the right types, all that are filled in have the right types. -/
theorem Padded.typed {types : List ValueType} {args filled : List ValueId}
    (padded : b.Padded types args filled t) (inside : ∀ v ∈ args, v < b.values.size)
    (formed : b.Formed strict) (suits : b.Suits args types) {j : Nat} {v : ValueId}
    {type : ValueType}
    (place : filled[j]? = some v) (type_ : types[j]? = some type) {w : Value}
    (shown : t.look (t.representative v) = some w) : w.type.admits type = true := by
  have length := padded.length
  obtain ⟨front, rfl, each⟩ := padded.split
  rw [List.length_append] at length
  rw [padded.pads.representative] at shown
  rw [List.getElem?_append] at place
  split at place
  · obtain ⟨new, type', type_', undefined⟩ := each place
    rw [formed.representative_of_le new, undefined] at shown
    rw [type_] at type_'
    cases type_'
    cases shown
    exact ValueType.admits_refl _
  · have old := formed.representative_lt (inside v (List.mem_of_getElem? place))
    rw [padded.pads.old old] at shown
    refine suits _ v type place ?_ w shown
    rw [← type_]
    congr 1
    omega

end WasmFunclets.Ssa.Builder
