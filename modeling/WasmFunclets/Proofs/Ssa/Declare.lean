import WasmFunclets.Proofs.Ssa.Connect

/-! A block is given its arguments, and they take what its edges carry. -/

namespace WasmFunclets.Ssa.Builder

open Attempt

variable {strict : Bool} {written : BlockId → Nat → Prop} {filling : ValueId → Prop}
variable {closing : Option BlockId} {b t u : Builder} {c : BlockId} {o : BlockOutline}

def argued (b : Builder) (c : BlockId) (type : ValueType) (index : Nat) : Builder :=
  (b.withValue ⟨type, some c, .phi (freshPhi (.argument index))⟩).onBlock c fun k =>
    { k with args := k.args.map (·.push b.values.size) }

theorem look_argued (type : ValueType) (index : Nat) (i : ValueId) :
    (b.argued c type index).look i = if i = b.values.size then
      some ⟨type, some c, .phi (freshPhi (.argument index))⟩ else b.look i := by
  rw [argued, look_onBlock, look_withValue]
  rfl

theorem outline_argued (type : ValueType) (index : Nat) (e : BlockId) :
    (b.argued c type index).outline e = if e = c then
      (b.outline e).map fun o => { o with args := o.args.map (·.push b.values.size) }
    else b.outline e :=
  @outline_onBlock (b.withValue ⟨type, some c, .phi (freshPhi (.argument index))⟩) c _
    (fun o => { o with args := o.args.map (·.push b.values.size) }) (fun _ => rfl) e

theorem outline_argued_back {phis : Array ValueId} {type : ValueType} {e : BlockId} {o' : BlockOutline}
    (present : b.outline c = some o) (args : o.args = some phis)
    (shown : (b.argued c type phis.size).outline e = some o') :
    ∃ o'', b.outline e = some o'' ∧ o'.isSealed = o''.isSealed ∧
      o'.predecessors = o''.predecessors ∧ o'.body = o''.body ∧
      (o'.args = o''.args ∧ e ≠ c ∨ e = c ∧ o'' = o ∧ o'.args = some (phis.push b.values.size)) := by
  rw [outline_argued] at shown
  split at shown
  · rename_i here
    obtain ⟨o'', before, rfl⟩ := Option.map_eq_some_iff.mp shown
    rw [here, present] at before
    cases before
    exact ⟨o, here ▸ present, rfl, rfl, rfl, .inr ⟨here, rfl, by rw [args]; rfl⟩⟩
  · exact ⟨o', shown, rfl, rfl, rfl, .inl ⟨rfl, ‹_›⟩⟩

theorem argumentPhi_argued {n : Nat} {type type' : ValueType} {i : ValueId} {e : BlockId} {j : Nat}
    {p : Phi} (phi : (b.argued c type n).ArgumentPhi i type' e j p) :
    b.ArgumentPhi i type' e j p ∨
      i = b.values.size ∧ e = c ∧ j = n ∧ p = freshPhi (.argument n) := by
  obtain ⟨shown, role⟩ := phi
  rw [look_argued] at shown
  split at shown
  · cases shown
    cases role
    exact .inr ⟨‹_›, rfl, rfl, rfl⟩
  · exact .inl ⟨shown, role⟩

theorem Ledger.argued (ledger : b.Ledger closing (some (c, 0))) (formed : b.Formed strict)
    {phis : Array ValueId} (present : b.outline c = some o) (args : o.args = some phis)
    (isOpen : o.isSealed = false) (type : ValueType) :
    (b.argued c type phis.size).Ledger closing (some (c, 0)) := by
  have look := look_argued (b := b) (c := c) type phis.size
  -- The new phi is the last value, and none of the edges has reached the arguments yet.
  have old {i : ValueId} {u : Value} (shown : b.look i = some u) :
      (b.argued c type phis.size).look i = some u := by
    rw [look, if_neg (Nat.ne_of_lt (lt_of_look shown)), shown]
  have size : (b.argued c type phis.size).values.size = b.values.size + 1 := by
    simp [Builder.argued]
  have count : (b.argued c type phis.size).blocks.size = b.blocks.size := size_onBlock _ _
  have rep : (b.argued c type phis.size).representative = b.representative :=
    representative_withValue formed.coherent
          ⟨type, some c, .phi (freshPhi (.argument phis.size))⟩
  constructor
  case home_lt =>
    intro i v e shown home
    rw [count]
    rw [look] at shown
    split at shown
    · cases shown
      cases home
      exact lt_of_outline present
    · exact ledger.home_lt shown home
  case body =>
    intro e o' shown i
    obtain ⟨o'', before, _, _, body, _⟩ :=
      outline_argued_back present args shown
    rw [body, ledger.body before, look]
    split
    · rename_i new
      rw [new]
      constructor
      · rintro ⟨v, absurd_, _⟩
        exact absurd (lt_of_look absurd_) (Nat.lt_irrefl _)
      · rintro ⟨v, same, _, listed⟩
        cases same
        cases listed
    · exact Iff.rfl
  case body_nodup =>
    intro e o' shown
    obtain ⟨o'', before, _, _, body, _⟩ :=
      outline_argued_back present args shown
    rw [body]
    exact ledger.body_nodup before
  case carried_lt =>
    intro e o' shown pred member arg carries
    obtain ⟨o'', before, _, edges, _⟩ :=
      outline_argued_back present args shown
    rw [size]
    exact Nat.lt_succ_of_lt (ledger.carried_lt before pred (edges ▸ member) arg carries)
  case argument =>
    intro e o' phis' shown args' j i place
    obtain ⟨o'', before, _, _, _, ⟨same, _⟩ | ⟨rfl, rfl, grown⟩⟩ :=
      outline_argued_back present args shown
    · obtain ⟨type', p, shown', role⟩ := ledger.argument before (same ▸ args') place
      exact ⟨type', p, old shown', role⟩
    · rw [grown] at args'
      cases args'
      rw [Array.getElem?_push] at place
      split at place
      · rename_i last
        cases place
        exact ⟨type, freshPhi (.argument phis.size), by rw [look, if_pos rfl], by rw [last]; rfl⟩
      · obtain ⟨type', p, shown', role⟩ := ledger.argument before args place
        exact ⟨type', p, old shown', role⟩
  case listed =>
    intro i type' e j p o' phi shown
    obtain ⟨o'', before, _, _, _, place⟩ :=
      outline_argued_back present args shown
    rcases argumentPhi_argued phi with phi' | ⟨rfl, rfl, rfl, rfl⟩
    · obtain ⟨phis', args', here⟩ := ledger.listed phi' before
      rcases place with ⟨same, _⟩ | ⟨rfl, rfl, grown⟩
      · exact ⟨phis', same.trans args', here⟩
      · rw [args] at args'
        cases args'
        refine ⟨_, grown, ?_⟩
        rw [Array.getElem?_push, if_neg (Nat.ne_of_lt (Array.getElem?_eq_some_iff.mp here).1), here]
    · rcases place with ⟨_, other⟩ | ⟨_, _, grown⟩
      · exact absurd rfl other
      · exact ⟨_, grown, by simp⟩
  case carried =>
    intro e o' phis' shown args' i pred reached place
    obtain ⟨o'', before, _, edges, _, ⟨same, _⟩ | ⟨rfl, rfl, grown⟩⟩ :=
      outline_argued_back present args shown
    · rw [edges] at reached place
      exact ledger.carried before (same ▸ args') reached place
    · simp [reach] at reached
  case operands =>
    intro i type' e j p o' phi shown
    obtain ⟨o'', before, _, edges, _⟩ :=
      outline_argued_back present args shown
    rw [edges, rep]
    rcases argumentPhi_argued phi with phi' | ⟨rfl, rfl, rfl, rfl⟩
    · exact ledger.operands phi' before
    · refine ⟨by simp [reach, freshPhi], fun operand => ?_⟩
      simp [freshPhi] at operand
  case complete =>
    intro i type' e j p o' phi shown
    obtain ⟨o'', before, isSealed, _, _, place⟩ :=
      outline_argued_back present args shown
    rw [isSealed]
    rcases argumentPhi_argued phi with phi' | ⟨rfl, rfl, rfl, rfl⟩
    · exact ledger.complete phi' before
    · rcases place with ⟨_, other⟩ | ⟨_, rfl, _⟩
      · exact absurd rfl other
      · refine ⟨fun closed => ?_, fun absurd_ => by cases absurd_⟩
        rw [isOpen] at closed
        cases closed

/-- The entry is sealed from the start. -/
theorem Flow.ne_entry_of_open (flow : b.Flow strict written filling closing) (present : b.outline c = some o)
    (isOpen : o.isSealed = false) : c ≠ entryId := by
  rintro rfl
  obtain ⟨k, found, rfl⟩ := block_of_outline present
  obtain ⟨k', found', isSealed, _⟩ := flow.entry
  cases found.symm.trans found'
  rw [show k.isSealed = false from isOpen] at isSealed
  cases isSealed

/-- What new arguments leave, before they take any values. -/
structure Argues (b : Builder) (c : BlockId) (phis : Array ValueId) (types : List ValueType)
    (more : List ValueId) (t : Builder) : Prop where
  grows : b.Grows t
  representative : t.representative = b.representative
  definition : t.definition = b.definition
  count : t.blocks.size = b.blocks.size
  length : more.length = types.length
  old : ∀ {i : ValueId}, i < b.values.size → t.look i = b.look i
  new : ∀ {i : ValueId} {v : Value}, b.values.size ≤ i → t.look i = some v → i ∈ more
  each : ∀ {j : Nat} {phi : ValueId}, more[j]? = some phi → b.values.size ≤ phi ∧
    ∃ type, types[j]? = some type ∧
      t.look phi = some ⟨type, some c, .phi (freshPhi (.argument (phis.size + j)))⟩
  outline : ∀ e, t.outline e = if e = c then (b.outline e).map fun o =>
    { o with args := some (phis ++ more.toArray) } else b.outline e

theorem Argues.refl (formed : b.Formed strict) {phis : Array ValueId} (present : b.outline c = some o)
    (args : o.args = some phis) : b.Argues c phis [] [] b where
  grows := .refl formed
  representative := rfl
  definition := rfl
  count := rfl
  length := rfl
  old _ := rfl
  new out shown := absurd (lt_of_look shown) (Nat.not_lt.mpr out)
  each := by simp
  outline e := by
    split
    · rename_i here
      rw [here, present, Option.map_some]
      simp only [Array.append_empty, ← args]
    · rfl

theorem Flow.argued (flow : b.Flow strict written (fun _ => False) none) (formed : b.Formed strict)
    (present : b.outline c = some o) (isOpen : o.isSealed = false) (type : ValueType) (n : Nat) :
    (b.argued c type n).Formed strict ∧
      (b.argued c type n).Flow strict written (fun _ => False) none ∧
      b.Grows (b.argued c type n) ∧ (b.argued c type n).definition = b.definition := by
  have formed₁ : (b.withValue ⟨type, some c, .phi (freshPhi (.argument n))⟩).Formed strict :=
    formed.withValue rfl (by simp) (by simp [Value.operands, freshPhi]) (by
      rintro _ _ _ same
      cases same
      exact ⟨rfl, rfl⟩)
  have flow₁ := flow.withValue formed (v := ⟨type, some c, .phi (freshPhi (.argument n))⟩)
    (by rintro p s same; cases same; simp [freshPhi]) formed₁
  have inner := flow.ne_entry_of_open present isOpen
  have reshapes : (b.withValue ⟨type, some c, .phi (freshPhi (.argument n))⟩).Reshapes c
      fun k => { k with args := k.args.map (·.push b.values.size) } :=
    ⟨fun _ => rfl, fun _ => rfl, fun _ => rfl, fun _ => rfl, fun same => absurd same inner,
      fun _ _ => .inl rfl⟩
  exact ⟨formed₁.congr rfl rfl, flow₁.reshape formed₁ reshapes,
    (Keeps.withValue formed _).grows.trans (reshapes.grows formed₁), reshapes.definition⟩

theorem Argues.cons {phis : Array ValueId} {type : ValueType} {types : List ValueType}
    {more : List ValueId} (formed : b.Formed strict) (grows : b.Grows (b.argued c type phis.size))
    (definition : (b.argued c type phis.size).definition = b.definition)
    (argues : (b.argued c type phis.size).Argues c (phis.push b.values.size) types more t) :
    b.Argues c phis (type :: types) (b.values.size :: more) t := by
  have look := look_argued (b := b) (c := c) type phis.size
  have size : (b.argued c type phis.size).values.size = b.values.size + 1 := by
    simp [Builder.argued]
  constructor
  case grows => exact grows.trans argues.grows
  case representative =>
    exact argues.representative.trans (representative_withValue formed.coherent
      ⟨type, some c, .phi (freshPhi (.argument phis.size))⟩)
  case definition => exact argues.definition.trans definition
  case count => exact argues.count.trans (size_onBlock _ _)
  case length => simp [argues.length]
  case old =>
    intro i inside
    rw [argues.old (by rw [size]; exact Nat.lt_succ_of_lt inside), look, if_neg (Nat.ne_of_lt inside)]
  case new =>
    intro i v out shown
    by_cases first : i = b.values.size
    · rw [first]
      exact List.mem_cons_self
    · have above : b.values.size + 1 ≤ i := Nat.lt_of_le_of_ne out (Ne.symm first)
      exact List.mem_cons_of_mem _ (argues.new (size ▸ above) shown)
  case each =>
    intro j phi place
    cases j with
    | zero =>
        cases place
        refine ⟨Nat.le_refl _, type, rfl, ?_⟩
        rw [argues.old (by rw [size]; exact Nat.lt_succ_self _), look, if_pos rfl]
        rfl
    | succ j =>
        obtain ⟨new, type', type_, shown⟩ := argues.each place
        refine ⟨Nat.le_trans (by rw [size]; exact Nat.le_succ _) new, type', type_, ?_⟩
        rw [shown, Array.size_push, Nat.add_assoc, Nat.add_comm 1 j]
  case outline =>
    intro e
    rw [argues.outline, outline_argued]
    split
    · rw [Option.map_map]
      refine Option.map_congr fun o _ => ?_
      simp
    · rfl

theorem addArguments_ends (types : List ValueType) {phis : Array ValueId} {index : Nat}
    (formed : b.Formed strict) (flow : b.Flow strict written (fun _ => False) none)
    (ledger : b.Ledger none (some (c, 0))) (present : b.outline c = some o)
    (args : o.args = some phis) (size : phis.size = index) (isOpen : o.isSealed = false) :
    Ends (addArguments c index types) b (fun _ t => t.Formed strict ∧
      t.Flow strict written (fun _ => False) none ∧ t.Ledger none (some (c, 0)) ∧
      ∃ more, b.Argues c phis types more t) Exhausted := by
  induction types generalizing b o phis index with
  | nil => exact ⟨formed, flow, ledger, [], .refl formed present args⟩
  | cons type types ih =>
      subst size
      rw [addArguments, ends_bind, addPhi]
      refine (addValue_ends b).imp ?_
      rintro _ _ ⟨rfl, rfl⟩
      rw [ends_bind, ends_modifyBlock]
      change Ends _ (b.argued c type phis.size) _ _
      obtain ⟨formed', flow', grows, definition⟩ :=
        flow.argued formed present isOpen type phis.size
      have ledger' := ledger.argued formed present args isOpen type
      have present' : (b.argued c type phis.size).outline c =
          some { o with args := some (phis.push b.values.size) } := by
        rw [outline_argued, if_pos rfl, present, Option.map_some, args]
        rfl
      refine (ih formed' flow' ledger' present' rfl (by simp) isOpen).imp ?_
      rintro _ t ⟨formed'', flow'', ledger'', more, argues⟩
      exact ⟨formed'', flow'', ledger'', b.values.size :: more, .cons formed grows definition argues⟩

theorem Suits.later {args : List ValueId} {types : List ValueType} (suits : b.Suits args types)
    (formed : b.Formed strict) (later : b.Later t) (same : t.representative = b.representative)
    (known : ∀ v ∈ args, v < b.values.size) : t.Suits args types := by
  intro k v type place type_ w shown
  obtain ⟨u, before⟩ := look_of_lt (formed.representative_lt (known v (List.mem_of_getElem? place)))
  obtain ⟨w', found, kin⟩ := later.look before
  rw [same, found] at shown
  cases shown
  rw [kin.type]
  exact suits k v type place type_ u before

/-- What edges leave whose values have been handed to arguments: each is filled up in front. -/
structure Adopts (b : Builder) (c : BlockId) (edges : Array Predecessor) (t : Builder) : Prop where
  grows : b.Grows t
  representative : t.representative = b.representative
  definition : t.definition = b.definition
  count : t.blocks.size = b.blocks.size
  new : ∀ {i : ValueId} {v : Value}, b.values.size ≤ i → t.look i = some v →
    ∃ type, v = ⟨type, none, .undef⟩
  outline : ∀ e, t.outline e = if e = c then
    (b.outline e).map fun o => { o with predecessors := edges } else b.outline e

def Extends (b t : Builder) (old new : Predecessor) : Prop :=
  new.block = old.block ∧ ∃ front, new.args = front ++ old.args ∧
    ∀ v ∈ front, b.values.size ≤ v ∧ ∃ type, t.look v = some ⟨type, none, .undef⟩

theorem Extends.refl (b t : Builder) (edge : Predecessor) : b.Extends t edge edge :=
  ⟨rfl, [], rfl, by simp⟩

theorem drop_eq_cons {α : Type} {items : Array α} {index : Nat} {first : α} {rest : List α}
    (left : items.toList.drop index = first :: rest) : index + 1 ≤ items.size ∧
      items[index]? = some first ∧ items.toList.drop (index + 1) = rest := by
  have below : index < items.toList.length := by
    by_contra out
    rw [List.drop_eq_nil_of_le (Nat.le_of_not_lt out)] at left
    cases left
  have split := List.drop_eq_getElem_cons below
  rw [left] at split
  obtain ⟨head, tail⟩ := List.cons.inj split
  refine ⟨by rwa [Array.length_toList] at below, ?_, tail.symm⟩
  rw [← Array.getElem?_toList, List.getElem?_eq_getElem below, head]

theorem Later.argumentPhi (later : b.Later t) {id : ValueId} {type : ValueType} {e : BlockId}
    {j : Nat} {p : Phi} (phi : b.ArgumentPhi id type e j p) : ∃ q, t.ArgumentPhi id type e j q := by
  obtain ⟨w, found, kin⟩ := later.look phi.1
  obtain ⟨q, rfl, role⟩ := kin.phi
  exact ⟨q, found, role.trans phi.2⟩

theorem mem_refill {edges : Array Predecessor} {index : Nat} {filled : List ValueId} {p : Predecessor}
    (member : p ∈ edges.modify index fun p => { p with args := filled }) :
    ∃ q ∈ edges, q.block = p.block ∧ (p = q ∨ p.args = filled) := by
  obtain ⟨i, place⟩ := Array.mem_iff_getElem?.mp member
  rw [Array.getElem?_modify] at place
  split at place
  · obtain ⟨q, old, rfl⟩ := Option.map_eq_some_iff.mp place
    exact ⟨q, Array.mem_of_getElem? old, rfl, .inr rfl⟩
  · exact ⟨p, Array.mem_of_getElem? place, rfl, .inl rfl⟩

theorem refill_other {edges : Array Predecessor} {index i : Nat} (filled : List ValueId)
    (other : i ≠ index) :
    (edges.modify index fun p => { p with args := filled })[i]? = edges[i]? := by
  rw [Array.getElem?_modify, if_neg (Ne.symm other)]

theorem refill_here {edges : Array Predecessor} {index : Nat} {pred : Predecessor}
    (filled : List ValueId) (edge : edges[index]? = some pred) :
    (edges.modify index fun p => { p with args := filled })[index]? =
      some { pred with args := filled } := by
  rw [Array.getElem?_modify, if_pos rfl, edge]
  rfl

theorem edgesLast_refill {edges : Array Predecessor} {index : Nat} {pred : Predecessor}
    {filled : List ValueId} (edge : edges[index]? = some pred) (last : pred.args <:+ filled) :
    EdgesLast edges (edges.modify index fun p => { p with args := filled }) := by
  intro i p place
  by_cases same : i = index
  · subst same
    cases edge.symm.trans place
    exact ⟨_, refill_here filled edge, rfl, last⟩
  · exact ⟨p, (refill_other filled same).trans place, rfl, List.suffix_refl _⟩

/-- An open block whose arguments have taken what its edges carry, up to a place. -/
structure Adopting (strict : Bool) (written : BlockId → Nat → Prop) (b : Builder) (c : BlockId)
    (types : List ValueType) (phis : Array ValueId) (o : BlockOutline) (index : Nat)
    (rest : List Predecessor) : Prop where
  formed : b.Formed strict
  flow : b.Flow strict written (fun _ => False) none
  ledger : b.Ledger none (some (c, index))
  present : b.outline c = some o
  args : o.args = some phis
  isOpen : o.isSealed = false
  size : phis.size = types.length
  reached : index ≤ o.predecessors.size
  left : o.predecessors.toList.drop index = rest
  placed : ∀ {j : Nat} {phi : ValueId}, phis[j]? = some phi → ∃ type p, types[j]? = some type ∧
    b.ArgumentPhi phi type c j p
  fits : ∀ pred ∈ rest, pred.args.length ≤ types.length
  suits : strict = true → ∀ pred ∈ rest, b.Suits pred.args types

section Adopting

variable {types : List ValueType} {phis : Array ValueId} {index : Nat} {rest : List Predecessor}
variable {pred : Predecessor} {filled : List ValueId} {b₁ : Builder}

theorem Adopting.carried (adopting : b.Adopting strict written c types phis o index rest)
    {p : Predecessor} (member : p ∈ rest) : ∀ arg ∈ p.args, arg < b.values.size := by
  have listed : p ∈ o.predecessors.toList.drop index := adopting.left ▸ member
  exact adopting.ledger.carried_lt adopting.present p
    (Array.mem_toList_iff.mp (List.mem_of_mem_drop listed))

/-- The first of the edges that are left, filled up, may hand over its values. -/
theorem Adopting.hands (adopting : b.Adopting strict written c types phis o index (pred :: rest))
    (padded : b.Padded types pred.args filled b₁) (flow : b₁.Flow strict written (fun _ => False) none) :
    b₁.HandsOver strict c o phis index
      (fun edges => edges.modify index fun p => { p with args := filled }) filled := by
  obtain ⟨_, edge, _⟩ := drop_eq_cons adopting.left
  have known := adopting.carried List.mem_cons_self
  have present : b₁.outline c = some o := padded.pads.outline ▸ adopting.present
  refine
    { present
      args := adopting.args
      isOpen := adopting.isOpen
      length := padded.length.trans (adopting.size.symm.trans Array.length_toList.symm)
      before := fun i below => refill_other filled (Nat.ne_of_lt below)
      edge := ⟨_, refill_here filled edge, rfl⟩
      carried := fun p member => ?_
      grown := ?_
      inside := fun p member => ?_
      takes := fun {j i v} place value => ?_ }
  · obtain ⟨q, old, _, rfl | same⟩ := mem_refill member
    · exact fun arg carries => Nat.lt_of_lt_of_le
        (adopting.ledger.carried_lt adopting.present p old arg carries) padded.reads.size
    · exact same ▸ padded.bound known
  · obtain ⟨front, rfl, _⟩ := padded.split
    exact edgesLast_refill edge (List.suffix_append front pred.args)
  · obtain ⟨q, old, same, _⟩ := mem_refill member
    obtain ⟨k, found, rfl⟩ := block_of_outline present
    exact same ▸ flow.pred_lt found q old
  · obtain ⟨type, p, expected, phi⟩ := adopting.placed place
    exact padded.takes adopting.formed known
      (fun checked => adopting.suits checked pred List.mem_cons_self) phi expected value

theorem Adopting.next (adopting : b.Adopting strict written c types phis o index (pred :: rest))
    (padded : b.Padded types pred.args filled b₁)
    (handed : b₁.Handed strict written c index
      (fun edges => edges.modify index fun p => { p with args := filled }) t) :
    t.Adopting strict written c types phis
      { o with predecessors := o.predecessors.modify index fun p => { p with args := filled } }
      (index + 1) rest := by
  obtain ⟨below, _, left⟩ := drop_eq_cons adopting.left
  have grows : b.Grows t := padded.reads.grows.trans handed.grows
  have same : t.representative = b.representative :=
    handed.representative.trans padded.pads.representative
  refine
    { formed := handed.formed
      flow := handed.flow
      ledger := handed.ledger
      present := ?_
      args := adopting.args
      isOpen := adopting.isOpen
      size := adopting.size
      reached := by simpa using below
      left := ?_
      placed := fun {j phi} place => ?_
      fits := fun p member => adopting.fits p (List.mem_cons_of_mem _ member)
      suits := fun checked p member => ?_ }
  · rw [handed.outline, if_pos rfl, padded.pads.outline, adopting.present]
    rfl
  · rw [← left]
    refine List.ext_getElem? fun i => ?_
    rw [List.getElem?_drop, List.getElem?_drop, Array.getElem?_toList, Array.getElem?_toList,
      refill_other filled (by omega)]
  · obtain ⟨type, p, expected, phi⟩ := adopting.placed place
    obtain ⟨q, still⟩ := grows.toLater.argumentPhi phi
    exact ⟨type, q, expected, still⟩
  · exact Suits.later (adopting.suits checked p (List.mem_cons_of_mem _ member)) adopting.formed
      grows.toLater same (adopting.carried (List.mem_cons_of_mem _ member))

theorem Adopts.refl (formed : b.Formed strict) (present : b.outline c = some o) :
    b.Adopts c o.predecessors b where
  grows := .refl formed
  representative := rfl
  definition := rfl
  count := rfl
  new out shown := absurd (lt_of_look shown) (Nat.not_lt.mpr out)
  outline e := by
    split
    · rename_i here
      rw [here, present, Option.map_some]
    · rfl

/-- One edge has handed over its values, and the others behind it do so. -/
theorem Adopts.cons {edges : Array Predecessor} (padded : b.Padded types pred.args filled b₁)
    (handed : b₁.Handed strict written c index
      (fun edges => edges.modify index fun p => { p with args := filled }) t)
    (adopts : t.Adopts c edges u) : b.Adopts c edges u where
  grows := (padded.reads.grows.trans handed.grows).trans adopts.grows
  representative := adopts.representative.trans (handed.representative.trans padded.pads.representative)
  definition := adopts.definition.trans (handed.definition.trans padded.pads.definition)
  count := adopts.count.trans (handed.count.trans (congrArg Array.size padded.pads.blocks))
  new {i v} out shown := by
    by_cases old : i < b₁.values.size
    · obtain ⟨w, before⟩ := look_of_lt (b := b₁) old
      obtain ⟨type, rfl⟩ := padded.pads.new out before
      rw [adopts.grows.toLater.undef (handed.grows.toLater.undef before)] at shown
      exact ⟨type, (Option.some.inj shown).symm⟩
    · exact adopts.new (handed.size ▸ Nat.le_of_not_lt old) shown
  outline e := by
    rw [adopts.outline, handed.outline, padded.pads.outline]
    split
    · rw [Option.map_map]
      rfl
    · rfl

theorem Padded.extends (padded : b.Padded types pred.args filled b₁) (later : b₁.Later t)
    (later' : t.Later u) (grows : b.Grows t) {new : Predecessor}
    (extended : Extends t u { pred with args := filled } new) : b.Extends u pred new := by
  obtain ⟨front, rfl, fresh⟩ := padded.split
  obtain ⟨block, front', args, fresh'⟩ := extended
  refine ⟨block, front' ++ front, by rw [args, List.append_assoc], fun v member => ?_⟩
  rcases List.mem_append.mp member with new | old
  · exact (fresh' v new).imp_left (Nat.le_trans grows.size)
  · obtain ⟨j, place⟩ := List.mem_iff_getElem?.mp old
    obtain ⟨out, type, _, shown⟩ := fresh place
    exact ⟨out, type, later'.undef (later.undef shown)⟩

/-- The arguments take over the edges that are left, the first one first. -/
theorem adoptEdges_ends (adopting : b.Adopting strict written c types phis o index rest) :
    Ends (adoptEdges c types phis.toList index rest) b (fun _ t => t.Formed strict ∧
      t.Flow strict written (fun _ => False) none ∧ t.Ledger none (some (c, o.predecessors.size)) ∧
      ∃ edges, b.Adopts c edges t ∧ edges.size = o.predecessors.size ∧
        ∀ {i : Nat} {old new : Predecessor}, o.predecessors[i]? = some old → edges[i]? = some new →
          b.Extends t old new) Exhausted := by
  -- The state of `Adopting` tells which edges are left; a step pads the next one, stores it and feeds it.
  induction rest generalizing b o index with
  | nil =>
      have all : o.predecessors.size ≤ index := by
        have := List.drop_eq_nil_iff.mp adopting.left
        rwa [Array.length_toList] at this
      refine ⟨adopting.formed, adopting.flow, Nat.le_antisymm all adopting.reached ▸ adopting.ledger,
        o.predecessors, .refl adopting.formed adopting.present, rfl, fun {i old new} one two => ?_⟩
      cases one.symm.trans two
      exact .refl b b old
  | cons pred rest ih =>
      obtain ⟨_, edge, _⟩ := drop_eq_cons adopting.left
      have known := adopting.carried List.mem_cons_self
      rw [adoptEdges, ends_bind]
      refine (pad_ends (adopting.fits pred List.mem_cons_self) adopting.formed adopting.flow
        adopting.ledger).imp ?_
      rintro filled b₁ ⟨formed₁, flow₁, ledger₁, padded⟩
      have handed := (adopting.hands padded flow₁).handed formed₁ flow₁ ledger₁
      have formed₂ : (b₁.reroute c fun edges =>
          edges.modify index fun p => { p with args := filled }).Formed strict := formed₁.congr rfl rfl
      rw [ends_bind, ends_modifyBlock]
      refine ends_bind.mpr <| (feedAll_ends phis.toList filled fun v member =>
        formed₂.representative_lt (padded.bound known v member)).mono ?_ fun _ _ => False.elim
      rintro _ t rfl
      refine (ih (adopting.next padded handed)).imp ?_
      rintro _ u ⟨formed, flow, ledger, edges, adopts, count, each⟩
      rw [Array.size_modify] at ledger count
      refine ⟨formed, flow, ledger, edges, .cons padded handed adopts, count,
        fun {i old new} one two => ?_⟩
      have grows := padded.reads.grows.trans handed.grows
      by_cases at_ : i = index
      · subst at_
        cases edge.symm.trans one
        exact padded.extends handed.grows.toLater adopts.grows.toLater grows
          (each (refill_here filled edge) two)
      · obtain ⟨block, front, args, fresh⟩ := each ((refill_other filled at_).trans one) two
        exact ⟨block, front, args, fun v member => (fresh v member).imp_left (Nat.le_trans grows.size)⟩

end Adopting

/-- A block without arguments is about to be given some. -/
theorem Ledger.begin (ledger : b.Ledger closing none) (present : b.outline c = some o)
    (undeclared : o.args = none) :
    (b.onBlock c fun k => { k with args := some #[] }).Ledger closing (some (c, 0)) := by
  have outline (e : BlockId) : (b.onBlock c fun k => { k with args := some #[] }).outline e =
      if e = c then (b.outline e).map fun o => { o with args := some #[] } else b.outline e :=
    @outline_onBlock b c (fun k => { k with args := some #[] })
      (fun o => { o with args := some #[] }) (fun _ => rfl) e
  have back {e : BlockId} {o' : BlockOutline}
      (shown : (b.onBlock c fun k => { k with args := some #[] }).outline e = some o') :
      ∃ o'', b.outline e = some o'' ∧ o'.isSealed = o''.isSealed ∧
        o'.predecessors = o''.predecessors ∧ o'.body = o''.body ∧
        (o'.args = o''.args ∧ e ≠ c ∨ e = c ∧ o'' = o ∧ o'.args = some #[]) := by
    rw [outline] at shown
    split at shown
    · rename_i here
      obtain ⟨o'', before, rfl⟩ := Option.map_eq_some_iff.mp shown
      rw [here, present] at before
      cases before
      exact ⟨o, here ▸ present, rfl, rfl, rfl, .inr ⟨here, rfl, rfl⟩⟩
    · exact ⟨o', shown, rfl, rfl, rfl, .inl ⟨rfl, ‹_›⟩⟩
  -- A block without arguments has no phi that stands for one.
  have nothing {i : ValueId} {type : ValueType} {j : Nat} {p : Phi}
      (phi : b.ArgumentPhi i type c j p) : False := by
    obtain ⟨_, args, _⟩ := ledger.listed phi present
    rw [undeclared] at args
    cases args
  constructor
  case home_lt =>
    intro i v e shown home
    rw [size_onBlock]
    exact ledger.home_lt shown home
  case body =>
    intro e o' shown i
    obtain ⟨o'', before, _, _, body, _⟩ := back shown
    rw [body]
    exact ledger.body before i
  case body_nodup =>
    intro e o' shown
    obtain ⟨o'', before, _, _, body, _⟩ := back shown
    rw [body]
    exact ledger.body_nodup before
  case carried_lt =>
    intro e o' shown pred member
    obtain ⟨o'', before, _, edges, _⟩ := back shown
    exact ledger.carried_lt before pred (edges ▸ member)
  case argument =>
    intro e o' phis shown args j i place
    obtain ⟨o'', before, _, _, _, ⟨same, _⟩ | ⟨rfl, rfl, none_⟩⟩ := back shown
    · exact ledger.argument before (same ▸ args) place
    · rw [none_] at args
      cases args
      simp at place
  case listed =>
    intro i type e j p o' phi shown
    obtain ⟨o'', before, _, _, _, ⟨same, _⟩ | ⟨rfl, rfl, none_⟩⟩ := back shown
    · rw [same]
      exact ledger.listed phi before
    · exact (nothing phi).elim
  case carried =>
    intro e o' phis shown args i pred reached place
    obtain ⟨o'', before, _, edges, _, ⟨same, other⟩ | ⟨rfl, rfl, none_⟩⟩ := back shown
    · rw [edges] at reached place
      exact ledger.carried before (same ▸ args) (by simpa [reach, other] using reached) place
    · simp [reach] at reached
  case operands =>
    intro i type e j p o' phi shown
    obtain ⟨o'', before, _, edges, _, ⟨same, other⟩ | ⟨rfl, rfl, none_⟩⟩ := back shown
    · rw [edges]
      obtain ⟨size, each⟩ := ledger.operands phi before
      exact ⟨by simpa [reach, other] using size, each⟩
    · exact (nothing phi).elim
  case complete =>
    intro i type e j p o' phi shown
    obtain ⟨o'', before, isSealed, _⟩ := back shown
    rw [isSealed]
    exact ledger.complete phi before

/-- What the declaration of arguments leaves. -/
structure Declares (b : Builder) (c : BlockId) (types : List ValueType) (t : Builder) : Prop where
  grows : b.Grows t
  representative : t.representative = b.representative
  definition : t.definition = b.definition
  count : t.blocks.size = b.blocks.size
  new : ∀ {i : ValueId} {v : Value}, b.values.size ≤ i → t.look i = some v →
    (∃ type, v = ⟨type, none, .undef⟩) ∨ ∃ type j p, t.ArgumentPhi i type c j p
  args : ∃ phis edges, phis.size = types.length ∧
    (∀ {j : Nat} {phi : ValueId}, phis[j]? = some phi → b.values.size ≤ phi ∧
      ∃ type p, types[j]? = some type ∧ t.ArgumentPhi phi type c j p) ∧
    (∀ o, b.outline c = some o → edges.size = o.predecessors.size ∧
      ∀ {i : Nat} {old new : Predecessor}, o.predecessors[i]? = some old → edges[i]? = some new →
        b.Extends t old new) ∧
    ∀ e, t.outline e = if e = c then
      (b.outline e).map fun o => { o with args := some phis, predecessors := edges } else b.outline e

section Declare

variable {types : List ValueType} {more : List ValueId} {b₂ : Builder}

/-- New arguments may take what the edges carry that the block has already. -/
theorem Argues.adopting {b₁ : Builder} (argues : b₁.Argues c #[] types more b₂)
    (formed : b.Formed strict) (grows : b.Grows b₁) (same : b₁.representative = b.representative)
    (ledger : b.Ledger none none) (present : b.outline c = some o)
    (present₁ : b₁.outline c = some { o with args := some #[] }) (isOpen : o.isSealed = false)
    (fits : ∀ pred ∈ o.predecessors, pred.args.length ≤ types.length)
    (suits : strict = true → ∀ pred ∈ o.predecessors, b.Suits pred.args types)
    (formed₂ : b₂.Formed strict) (flow₂ : b₂.Flow strict written (fun _ => False) none)
    (ledger₂ : b₂.Ledger none (some (c, 0))) :
    b₂.Adopting strict written c types more.toArray { o with args := some more.toArray } 0
      o.predecessors.toList where
  formed := formed₂
  flow := flow₂
  ledger := ledger₂
  present := by
    rw [argues.outline, if_pos rfl, present₁]
    simp
  args := rfl
  isOpen := isOpen
  size := by simp [argues.length]
  reached := Nat.zero_le _
  left := rfl
  placed {j phi} place := by
    obtain ⟨_, type, expected, shown⟩ := argues.each (List.getElem?_toArray ▸ place)
    exact ⟨type, _, expected, shown, by simp [freshPhi]⟩
  fits pred member := fits pred (Array.mem_toList_iff.mp member)
  suits checked pred member := by
    have listed := Array.mem_toList_iff.mp member
    exact Suits.later (suits checked pred listed) formed (grows.trans argues.grows).toLater
      (argues.representative.trans same) (ledger.carried_lt present pred listed)

theorem Argues.declares {edges : Array Predecessor}
    (argues : (b.onBlock c fun k => { k with args := some #[] }).Argues c #[] types more b₂)
    (grows : b.Grows (b.onBlock c fun k => { k with args := some #[] }))
    (adopts : b₂.Adopts c edges t) (present : b.outline c = some o)
    (count : edges.size = o.predecessors.size)
    (each : ∀ {i : Nat} {old new : Predecessor}, o.predecessors[i]? = some old →
      edges[i]? = some new → b₂.Extends t old new)
    (outline : ∀ e, t.outline e = if e = c then (b.outline e).map fun o =>
      { o with args := some more.toArray, predecessors := edges } else b.outline e) :
    b.Declares c types t where
  grows := (grows.trans argues.grows).trans adopts.grows
  representative := adopts.representative.trans argues.representative
  definition := adopts.definition.trans (argues.definition.trans (definition_onBlock c fun _ => rfl))
  count := adopts.count.trans (argues.count.trans (size_onBlock _ _))
  new {i v} out shown := by
    by_cases old : i < b₂.values.size
    · obtain ⟨w, before⟩ := look_of_lt old
      have member := argues.new (b := b.onBlock c fun k => { k with args := some #[] }) out before
      obtain ⟨j, place⟩ := List.mem_iff_getElem?.mp member
      obtain ⟨_, type, _, fresh⟩ := argues.each place
      obtain ⟨q, still⟩ := adopts.grows.toLater.argumentPhi ⟨fresh, rfl⟩
      exact .inr ⟨type, _, q, still⟩
    · exact .inl (adopts.new (Nat.le_of_not_lt old) shown)
  args := by
    refine ⟨more.toArray, edges, by simp [argues.length], fun {j phi} place => ?_, fun o' here => ?_,
      outline⟩
    · obtain ⟨new, type, expected, shown⟩ := argues.each (List.getElem?_toArray ▸ place)
      obtain ⟨q, still⟩ := adopts.grows.toLater.argumentPhi ⟨shown, rfl⟩
      exact ⟨new, type, q, expected, by simpa using still⟩
    · cases present.symm.trans here
      refine ⟨count, fun {i old new} one two => ?_⟩
      obtain ⟨block, front, args, fresh⟩ := each one two
      exact ⟨block, front, args, fun v member =>
        (fresh v member).imp_left (Nat.le_trans (grows.trans argues.grows).size)⟩

theorem declareArguments_ends (sound : b.Consistent strict written)
    (present : b.outline c = some o) (undeclared : o.args = none) (isOpen : o.isSealed = false)
    (fits : ∀ pred ∈ o.predecessors, pred.args.length ≤ types.length)
    (suits : strict = true → ∀ pred ∈ o.predecessors, b.Suits pred.args types) :
    Ends (declareArguments c types) b
      (fun _ t => t.Consistent strict written ∧ b.Declares c types t) Exhausted := by
  obtain ⟨formed, flow, ledger⟩ := sound
  have inner := flow.ne_entry_of_open present isOpen
  obtain ⟨k, found, rfl⟩ := block_of_outline present
  rw [declareArguments, ends_bind, ends_blockAt found, ends_bind, ends_maintain]
  refine ⟨fun _ => ?_, fun declared => absurd ⟨Option.isNone_iff_eq_none.mpr undeclared, isOpen⟩ declared⟩
  rw [ends_bind, ends_modifyBlock, ends_bind]
  have reshapes : b.Reshapes c fun k => { k with args := some #[] } :=
    ⟨fun _ => rfl, fun _ => rfl, fun _ => rfl, fun _ => rfl, fun same => absurd same inner,
      fun _ _ => .inl rfl⟩
  have present₁ : (b.onBlock c fun k => { k with args := some #[] }).outline c =
      some { k.outline with args := some #[] } := by
    rw [outline, block_onBlock, if_pos rfl, found]
    rfl
  have formed₁ : (b.onBlock c fun k => { k with args := some #[] }).Formed strict :=
    formed.congr rfl rfl
  -- first the block gets arguments that know nothing of its edges
  refine (addArguments_ends types formed₁ (flow.reshape formed reshapes)
    (ledger.begin present undeclared) present₁ rfl rfl isOpen).imp ?_
  rintro _ b₂ ⟨formed₂, flow₂, ledger₂, more, argues⟩
  have adopting := argues.adopting formed (reshapes.grows formed) rfl ledger present present₁ isOpen
    fits suits formed₂ flow₂ ledger₂
  obtain ⟨k₂, found₂, same⟩ := block_of_outline adopting.present
  have ids : k₂.argIds = more.toArray.toList := by
    have := congrArg BlockOutline.args same
    rw [Block.argIds, show k₂.args = some more.toArray from this]
    rfl
  rw [ends_bind, ends_blockAt found₂, ids]
  refine (adoptEdges_ends adopting).imp ?_
  rintro _ t ⟨formed₃, flow₃, ledger₃, edges, adopts, count, each⟩
  have outline (e : BlockId) : t.outline e = if e = c then (b.outline e).map fun o =>
      { o with args := some more.toArray, predecessors := edges } else b.outline e := by
    rw [adopts.outline, argues.outline]
    by_cases here : e = c
    · rw [if_pos here, if_pos here, if_pos here, here, present₁, present]
      simp
    · rw [if_neg here, if_neg here, if_neg here, Builder.outline, block_onBlock, if_neg here]
      rfl
  have whole := ledger₃.whole fun o' here => by
    rw [outline, if_pos rfl, present] at here
    cases here
    exact .inr count
  exact ⟨⟨formed₃, flow₃, whole⟩,
    argues.declares (reshapes.grows formed) adopts present count each outline⟩

end Declare

end WasmFunclets.Ssa.Builder
