import WasmFunclets.Proofs.Ssa.Edges

/-! New edges and new arguments. -/

namespace WasmFunclets.Ssa.Builder

open Attempt

variable {strict : Bool} {written : BlockId → Nat → Prop} {filling : ValueId → Prop}
variable {closing : Option BlockId} {giving : Option (BlockId × Nat)} {b t u : Builder}
variable {id source : BlockId} {o : BlockOutline}

theorem Feeds.grows {phis values : List ValueId} (feeds : b.Feeds phis values t)
    (later : b.Later t) : b.Grows t where
  toLater := later
  size := Nat.le_of_eq feeds.size.symm
  count := Nat.le_of_eq (by rw [feeds.blocks])
  knows known := ⟨_, by rwa [feeds.definition], rfl⟩

theorem Ledger.nodup (ledger : b.Ledger closing giving) {phis : Array ValueId}
    (present : b.outline id = some o) (args : o.args = some phis) : phis.toList.Nodup := by
  refine List.nodup_iff_pairwise_ne.mpr (List.pairwise_iff_getElem.mpr fun i j one bound below same => ?_)
  rw [Array.getElem_toList, Array.getElem_toList] at same
  rw [Array.length_toList] at one bound
  have place := Array.getElem?_eq_getElem bound
  obtain ⟨_, _, shown, role⟩ := ledger.argument present args place
  obtain ⟨_, _, shown', role'⟩ := ledger.argument present args
    ((Array.getElem?_eq_getElem one).trans (congrArg some same))
  rw [shown] at shown'
  cases shown'
  cases role.symm.trans role'
  exact Nat.lt_irrefl _ below

/-- An argument of a block that is not sealed is not complete. -/
theorem Ledger.incomplete (ledger : b.Ledger none giving) {phi : ValueId} {type : ValueType} {j : Nat}
    {p : Phi} (shown : b.ArgumentPhi phi type id j p) (present : b.outline id = some o)
    (isOpen : o.isSealed = false) : p.complete = false := by
  cases complete : p.complete with
  | false => rfl
  | true =>
      rcases (ledger.complete shown present).2 complete with closed | closes
      · rw [isOpen] at closed
        cases closed
      · cases closes

theorem Ledger.upTo (ledger : b.Ledger none none) (present : b.outline id = some o) :
    b.Ledger none (some (id, o.predecessors.size)) := by
  refine ledger.regive fun {c o'} here => .inr ?_
  by_cases same : c = id
  · rw [same, present] at here
    cases here
    simp [reach, same]
  · simp [reach, same]

theorem Ledger.whole {n : Nat} (ledger : b.Ledger none (some (id, n)))
    (all : ∀ o, b.outline id = some o → o.args = none ∨ o.predecessors.size = n) :
    b.Ledger none none := by
  refine ledger.regive fun {c o} here => ?_
  by_cases same : c = id
  · subst same
    exact (all o here).imp_right fun size => by simp [reach, size]
  · exact .inr (by simp [reach, same])

/-- An edge of an open block, the one at a place among those that it then has, carries values for the
arguments of the block; the arguments have got those of the edges in front. -/
structure HandsOver (strict : Bool) (b : Builder) (id : BlockId) (o : BlockOutline) (phis : Array ValueId)
    (n : Nat) (f : Array Predecessor → Array Predecessor) (filled : List ValueId) : Prop where
  present : b.outline id = some o
  args : o.args = some phis
  isOpen : o.isSealed = false
  length : filled.length = phis.toList.length
  before : ∀ i < n, (f o.predecessors)[i]? = o.predecessors[i]?
  edge : ∃ pred, (f o.predecessors)[n]? = some pred ∧ pred.args = filled
  carried : ∀ pred ∈ f o.predecessors, ∀ arg ∈ pred.args, arg < b.values.size
  grown : EdgesLast o.predecessors (f o.predecessors)
  inside : ∀ pred ∈ f o.predecessors, pred.block < b.blocks.size
  takes : ∀ {j : Nat} {i v : ValueId}, phis[j]? = some i → filled[j]? = some v →
    ∃ type p, b.ArgumentPhi i type id j p ∧
      (strict = true → ∀ w, b.look (b.representative v) = some w → w.type.admits type = true)

/-- What is left when the arguments have got the values of that edge. -/
structure Handed (strict : Bool) (written : BlockId → Nat → Prop) (b : Builder) (id : BlockId)
    (n : Nat) (f : Array Predecessor → Array Predecessor) (t : Builder) : Prop where
  formed : t.Formed strict
  flow : t.Flow strict written (fun _ => False) none
  ledger : t.Ledger none (some (id, n + 1))
  grows : b.Grows t
  representative : t.representative = b.representative
  definition : t.definition = b.definition
  count : t.blocks.size = b.blocks.size
  size : t.values.size = b.values.size
  outline : ∀ e, t.outline e = if e = id then
    (b.outline e).map fun o => { o with predecessors := f o.predecessors } else b.outline e

section HandsOver

variable {phis : Array ValueId} {n : Nat} {f : Array Predecessor → Array Predecessor}
variable {filled : List ValueId}

theorem HandsOver.handed (hands : b.HandsOver strict id o phis n f filled) (formed : b.Formed strict)
    (flow : b.Flow strict written (fun _ => False) none) (ledger : b.Ledger none (some (id, n))) :
    b.Handed strict written id n f ((b.reroute id f).fedAll phis.toList filled) := by
  obtain ⟨pred, edge, rfl⟩ := hands.edge
  have bound := hands.carried pred (Array.mem_of_getElem? edge)
  obtain ⟨k, found, rfl⟩ := block_of_outline hands.present
  have reshapes : b.Reshapes id fun k => { k with predecessors := f k.predecessors } :=
    reshapes_reroute f found hands.isOpen hands.grown hands.inside
  have formed₁ : (b.reroute id f).Formed strict := formed.congr rfl rfl
  have flow₁ : (b.reroute id f).Flow strict written (fun _ => False) none :=
    flow.reshape formed reshapes
  have nodup := ledger.nodup hands.present hands.args
  have feeds := (b.reroute id f).feeds_fedAll nodup pred.args hands.length
  obtain ⟨formed₂, flow₂, later⟩ := fedAll_sound phis.toList pred.args formed₁ flow₁ nodup <| by
    intro j i v place value
    rw [Array.getElem?_toList] at place
    obtain ⟨type, p, shown, typed⟩ := hands.takes place value
    exact ⟨bound v (List.mem_of_getElem? value), type, id, j, p, shown,
      ledger.incomplete shown hands.present hands.isOpen, typed⟩
  have present : (b.reroute id f).outline id =
      some { k.outline with predecessors := f k.outline.predecessors } := by
    rw [outline_reroute, if_pos rfl, hands.present]
    rfl
  have ledger₂ := (ledger.reroute hands.present hands.before hands.carried).feeds present hands.args
    edge hands.length formed.representative_idem feeds
  exact
    { formed := formed₂
      flow := flow₂
      ledger := ledger₂
      grows := (reshapes.grows formed).trans (feeds.grows later)
      representative := feeds.representative
      definition := feeds.definition.trans reshapes.definition
      count := (congrArg Array.size feeds.blocks).trans (size_onBlock _ _)
      size := feeds.size
      outline := fun e => by rw [feeds.outline, outline_reroute] }

theorem Later.undef (later : b.Later t) {v : ValueId} {type : ValueType}
    (shown : b.look v = some ⟨type, none, .undef⟩) : t.look v = some ⟨type, none, .undef⟩ := by
  obtain ⟨w, found, kin⟩ := later.look shown
  rw [found, kin.eq (by simp)]

/-- Values that have been filled up suit the arguments that the given ones suit. -/
theorem Padded.takes {types : List ValueType} {args : List ValueId}
    (padded : b.Padded types args filled t) (formed : b.Formed strict)
    (known : ∀ v ∈ args, v < b.values.size) (suits : strict = true → b.Suits args types) {j : Nat}
    {i v : ValueId} {type : ValueType} {p : Phi} (phi : b.ArgumentPhi i type id j p)
    (expected : types[j]? = some type) (value : filled[j]? = some v) :
    ∃ type p, t.ArgumentPhi i type id j p ∧
      (strict = true → ∀ w, t.look (t.representative v) = some w → w.type.admits type = true) := by
  refine ⟨type, p, ⟨?_, phi.2⟩, fun checked w leader => ?_⟩
  · rw [padded.pads.old (lt_of_look phi.1), phi.1]
  · exact padded.typed known formed (suits checked) value expected leader

end HandsOver

/-- What an edge leaves: it is the last one of its block, and carries the given values behind as many
undefined ones as are lacking. -/
structure Connects (b : Builder) (source id : BlockId) (args : List ValueId) (t : Builder) : Prop where
  grows : b.Grows t
  representative : t.representative = b.representative
  definition : t.definition = b.definition
  new : ∀ {i : ValueId} {v : Value}, b.values.size ≤ i → t.look i = some v →
    ∃ type, v = ⟨type, none, .undef⟩
  edge : ∃ front, (∀ v ∈ front, b.values.size ≤ v) ∧
    (∀ o, b.outline id = some o →
      (front ++ args).length = (o.args.map Array.size).getD args.length) ∧
    ∀ e, t.outline e = if e = id then (b.outline e).map fun o =>
      { o with predecessors := o.predecessors.push ⟨source, front ++ args⟩ } else b.outline e

theorem reshapes_push_edge {k : Block} (flow : b.Flow strict written filling closing)
    (present : b.blocks[id]? = some k) (isOpen : k.isSealed = false)
    (inside : source < b.blocks.size) (args : List ValueId) :
    b.Reshapes id fun k => { k with predecessors := k.predecessors.push ⟨source, args⟩ } := by
  refine reshapes_reroute (fun edges => edges.push ⟨source, args⟩) present isOpen
    (edgesLast_push _ _) fun pred member => ?_
  rcases Array.mem_push.mp member with old | rfl
  · exact flow.pred_lt present pred old
  · exact inside

/-- An edge to a block that has not declared its arguments carries what it is given. -/
theorem Consistent.connect_undeclared {args : List ValueId} (sound : b.Consistent strict written)
    (inside : source < b.blocks.size) (present : b.outline id = some o) (isOpen : o.isSealed = false)
    (undeclared : o.args = none) (known : ∀ v ∈ args, v < b.values.size) :
    (b.reroute id fun edges => edges.push ⟨source, args⟩).Consistent strict written ∧
      b.Connects source id args (b.reroute id fun edges => edges.push ⟨source, args⟩) := by
  obtain ⟨formed, flow, ledger⟩ := sound
  obtain ⟨k, found, rfl⟩ := block_of_outline present
  have reshapes := reshapes_push_edge flow found isOpen inside args
  have outline := outline_reroute (b := b) id fun edges => edges.push ⟨source, args⟩
  have ledger' := (ledger.upTo present).reroute (f := fun edges => edges.push ⟨source, args⟩) present
    (fun i below => by rw [Array.getElem?_push, if_neg (Nat.ne_of_lt below)]) fun pred member => by
      rcases Array.mem_push.mp member with old | rfl
      · exact ledger.carried_lt present pred old
      · exact known
  have whole := ledger'.whole fun o' here => by
    rw [outline, if_pos rfl, present] at here
    cases here
    exact .inl undeclared
  refine ⟨⟨formed.congr rfl rfl, flow.reshape formed reshapes, whole⟩, reshapes.grows formed, rfl,
    reshapes.definition, fun out shown => absurd (lt_of_look shown) (Nat.not_lt.mpr out), [], by simp,
    fun o here => ?_, outline⟩
  cases present.symm.trans here
  rw [undeclared]
  rfl

/-- What an edge hands over that comes behind the others and has been filled up. -/
theorem Padded.hands {args filled : List ValueId} {phis : Array ValueId}
    (padded : b.Padded (b.typesOf phis.toList) args filled t) (sound : b.Consistent strict written)
    (inside : source < b.blocks.size) (flow : t.Flow strict written (fun _ => False) none)
    (present : b.outline id = some o) (isOpen : o.isSealed = false) (declared : o.args = some phis)
    (known : ∀ v ∈ args, v < b.values.size)
    (typed : strict = true → b.Suits args (b.typesOf phis.toList)) :
    t.HandsOver strict id o phis o.predecessors.size (fun edges => edges.push ⟨source, filled⟩) filled where
  present := padded.pads.outline ▸ present
  args := declared
  isOpen := isOpen
  length := padded.length.trans (length_typesOf _)
  before i below := by rw [Array.getElem?_push, if_neg (Nat.ne_of_lt below)]
  edge := ⟨⟨source, filled⟩, by simp, rfl⟩
  carried pred member := by
    rcases Array.mem_push.mp member with old | rfl
    · exact fun arg carries =>
        Nat.lt_of_lt_of_le (sound.ledger.carried_lt present pred old arg carries) padded.reads.size
    · exact padded.bound known
  grown := edgesLast_push _ _
  inside pred member := by
    rcases Array.mem_push.mp member with old | rfl
    · obtain ⟨k, found, rfl⟩ := block_of_outline (padded.pads.outline ▸ present : t.outline id = some o)
      exact flow.pred_lt found pred old
    · rw [padded.pads.blocks]
      exact inside
  takes {j i v} place value := by
    obtain ⟨type, p, phi⟩ := sound.ledger.argument present declared place
    exact padded.takes sound.formed known typed phi
      (getElem?_typesOf (by rwa [Array.getElem?_toList]) phi.1) value

theorem Handed.connects {args filled : List ValueId} {phis : Array ValueId} {b₁ : Builder}
    (handed : b₁.Handed strict written id o.predecessors.size (fun edges => edges.push ⟨source, filled⟩) t)
    (padded : b.Padded (b.typesOf phis.toList) args filled b₁) (present : b.outline id = some o)
    (declared : o.args = some phis) : t.Consistent strict written ∧ b.Connects source id args t := by
  have outline (e : BlockId) : t.outline e = if e = id then (b.outline e).map fun o =>
      { o with predecessors := o.predecessors.push ⟨source, filled⟩ } else b.outline e := by
    rw [handed.outline, padded.pads.outline]
  have whole := handed.ledger.whole fun o' here => by
    rw [outline, if_pos rfl, present] at here
    cases here
    exact .inr (Array.size_push ..)
  have new {i : ValueId} {v : Value} (out : b.values.size ≤ i) (shown : t.look i = some v) :
      ∃ type, v = ⟨type, none, .undef⟩ := by
    obtain ⟨u, before⟩ := look_of_lt (b := b₁) (handed.size ▸ lt_of_look shown)
    obtain ⟨type, rfl⟩ := padded.pads.new out before
    rw [handed.grows.toLater.undef before] at shown
    exact ⟨type, (Option.some.inj shown).symm⟩
  obtain ⟨front, rfl, each⟩ := padded.split
  refine ⟨⟨handed.formed, handed.flow, whole⟩, padded.reads.grows.trans handed.grows,
    handed.representative.trans padded.pads.representative,
    handed.definition.trans padded.pads.definition, new, front, fun v member => ?_, fun o' here => ?_,
    outline⟩
  · obtain ⟨j, place⟩ := List.mem_iff_getElem?.mp member
    exact (each place).1
  · cases present.symm.trans here
    rw [declared, padded.length, length_typesOf, Array.length_toList]
    rfl

theorem connect_ends {args : List ValueId} (sound : b.Consistent strict written)
    (inside : source < b.blocks.size) (present : b.outline id = some o) (isOpen : o.isSealed = false)
    (known : ∀ v ∈ args, v < b.values.size)
    (fits : ∀ phis, o.args = some phis → args.length ≤ phis.size)
    (typed : strict = true → ∀ phis, o.args = some phis → b.Suits args (b.typesOf phis.toList)) :
    Ends (connect source id args) b
      (fun _ t => t.Consistent strict written ∧ b.Connects source id args t) Exhausted := by
  obtain ⟨k, found, rfl⟩ := block_of_outline present
  rw [connect, ends_bind, ends_checkBlock inside, ends_bind, ends_blockAt found, ends_bind,
    ends_maintain]
  refine ⟨fun _ => ?_, fun closed => absurd isOpen closed⟩
  cases given : k.args with
  | none => exact sound.connect_undeclared inside present isOpen given known
  | some phis =>
      dsimp only
      rw [ends_bind, ends_get, ends_bind]
      have length : (b.typesOf phis.toList).length = phis.size := by
        rw [length_typesOf, Array.length_toList]
      refine (pad_ends (length ▸ fits phis given) sound.formed sound.flow sound.ledger).imp ?_
      rintro filled b₁ ⟨formed₁, flow₁, ledger₁, padded⟩
      have hands := padded.hands sound inside flow₁ present isOpen given known
        fun checked => typed checked phis given
      rw [ends_bind]
      refine (feedAll_ends phis.toList filled fun v member =>
        formed₁.representative_lt (padded.bound known v member)).mono ?_ fun _ _ => False.elim
      rintro _ _ rfl
      -- the edge comes behind the values here, but the arguments do not look at edges
      have handed := hands.handed formed₁ flow₁ (ledger₁.upTo hands.present)
      rw [fedAll_reroute] at handed
      exact handed.connects padded present given

end WasmFunclets.Ssa.Builder
