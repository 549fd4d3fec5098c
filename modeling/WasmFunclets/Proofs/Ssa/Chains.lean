import Mathlib.Logic.Relation
import WasmFunclets.Proofs.Ssa.Endures

/-! Replacements form a forest. A replaced phi keeps its replacement for good, and what stands for a value
is found by following replacements to their end. Every live phi that another one uses has it among its
users, and the phis are counted. -/

namespace WasmFunclets.Ssa

def Value.isPhi (v : Value) : Bool := v.phi?.isSome

def Value.isReplacedPhi (v : Value) : Bool := v.phi?.any fun p => p.replacement.isSome

def Phi.ListsWatchers (p : Phi) : Prop := ∀ w ∈ p.watchers, w ∈ p.users.toList

namespace Builder

open Attempt

variable {b t u : Builder} {id next phi same : ValueId} {p : Phi}

def replacementOf (b : Builder) (id : ValueId) : Option ValueId := (b.phiAt id).bind Phi.replacement

def LeadsTo (b : Builder) : ValueId → ValueId → Prop :=
  Relation.ReflTransGen fun id next => b.replacementOf id = some next

theorem LeadsTo.mono {last : ValueId} (leads : b.LeadsTo id last)
    (kept : ∀ id next, b.replacementOf id = some next → t.replacementOf id = some next) :
    t.LeadsTo id last := Relation.ReflTransGen.mono kept _ _ leads

theorem LeadsTo.onward {middle last : ValueId} (first : b.LeadsTo id middle)
    (whole : b.LeadsTo id last) (ends : b.replacementOf last = none) : b.LeadsTo middle last := by
  have unique : Relator.RightUnique fun id next => b.replacementOf id = some next :=
    fun _ _ _ one other => Option.some.inj (one.symm.trans other)
  rcases Relation.ReflTransGen.total_of_right_unique unique first whole with onward | back
  · exact onward
  · rcases Relation.ReflTransGen.cases_head back with rfl | ⟨next, step, _⟩
    · exact .refl
    · rw [ends] at step
      cases step

theorem replacementOf_eq_some :
    b.replacementOf id = some next ↔ ∃ p, b.phiAt id = some p ∧ p.replacement = some next :=
  Option.bind_eq_some_iff

theorem Aliased.replacementOf_eq_none (aliased : b.Aliased) (id : ValueId) :
    b.replacementOf (b.representative id) = none := by
  have stays := aliased.representative_idem id
  refine Option.eq_none_iff_forall_ne_some.mpr fun next replaced => ?_
  obtain ⟨p, present, gone⟩ := replacementOf_eq_some.mp replaced
  exact (aliased.replaced _).mpr ⟨p, present, by simp [gone]⟩ stays

theorem replacementOf_onPhi (change : Phi → Phi) (kept : ∀ p, (change p).replacement = p.replacement) :
    (b.onPhi phi change).replacementOf = b.replacementOf := by
  funext i
  rw [replacementOf, phiAt_onPhi, replacementOf]
  split
  · cases b.phiAt i with
    | none => rfl
    | some p => exact kept p
  · rfl

theorem replacementOf_withValue {v : Value} (idle : ∀ p, v.phi? = some p → p.replacement = none) :
    (b.withValue v).replacementOf = b.replacementOf := by
  funext i
  rw [replacementOf, phiAt_withValue, replacementOf]
  split
  · rename_i new
    have out : b.phiAt i = none := by
      rw [phiAt, new, Array.getElem?_eq_none (Nat.le_refl _)]
      rfl
    rw [out, Option.bind_none]
    exact Option.bind_eq_none_iff.mpr idle
  · rfl

theorem Cedes.replacementOf (cedes : b.Cedes phi same p) (i : ValueId) :
    (b.replacedBy phi same p).replacementOf i = if i = phi then some same else b.replacementOf i := by
  rw [Builder.replacementOf, cedes.phiAt, Builder.replacementOf]
  split
  · rfl
  · split
    · cases b.phiAt i <;> rfl
    · rfl

theorem Cedes.unreplaced (cedes : b.Cedes phi same p) : b.replacementOf phi = none := by
  rw [Builder.replacementOf, cedes.present, Option.bind_some, cedes.live]

theorem countP_modify {α : Type} (p : α → Bool) (change : α → α) {items : List α} {i : Nat} {a : α}
    (present : items[i]? = some a) :
    (items.modify i change).countP p + (if p a then 1 else 0) =
      items.countP p + if p (change a) then 1 else 0 := by
  induction items generalizing i with
  | nil => cases present
  | cons first rest ih =>
      cases i with
      | zero =>
          cases present
          rw [List.modify_zero_cons, List.countP_cons, List.countP_cons]
          omega
      | succ i =>
          have later := ih (i := i) present
          rw [List.modify_succ_cons, List.countP_cons, List.countP_cons]
          omega

def replacedCount (b : Builder) : Nat := b.values.countP Value.isReplacedPhi

theorem replacedCount_onPhi {v : Value} (present : b.values[id]? = some v) (change : Phi → Phi) :
    (b.onPhi id change).replacedCount + (if v.isReplacedPhi then 1 else 0) =
      b.replacedCount + if (v.updatePhi change).isReplacedPhi then 1 else 0 := by
  have listed : b.values.toList[id]? = some v := by rw [Array.getElem?_toList, present]
  rw [replacedCount, replacedCount, onPhi, ← Array.countP_toList, ← Array.countP_toList,
    Array.toList_modify]
  exact countP_modify Value.isReplacedPhi (Value.updatePhi change) listed

theorem isReplacedPhi_updatePhi {change : Phi → Phi}
    (kept : ∀ p, (change p).replacement = p.replacement) (v : Value) :
    (v.updatePhi change).isReplacedPhi = v.isReplacedPhi := by
  rw [Value.isReplacedPhi, phi?_updatePhi, Value.isReplacedPhi]
  cases v.phi? with
  | none => rfl
  | some p => simp [kept]

theorem replacedCount_onPhi_same (id : ValueId) {change : Phi → Phi}
    (kept : ∀ p, (change p).replacement = p.replacement) :
    (b.onPhi id change).replacedCount = b.replacedCount := by
  cases present : b.values[id]? with
  | some v =>
      have counted := replacedCount_onPhi present change
      rw [isReplacedPhi_updatePhi kept] at counted
      omega
  | none =>
      have out : b.values.toList.length ≤ id := by
        rw [Array.length_toList]
        exact Array.getElem?_eq_none_iff.mp present
      rw [replacedCount, replacedCount, onPhi, ← Array.countP_toList, ← Array.countP_toList,
        Array.toList_modify, List.modify_eq_self out]

theorem replacedCount_withValue {v : Value} (idle : ∀ p, v.phi? = some p → p.replacement = none) :
    (b.withValue v).replacedCount = b.replacedCount := by
  have unreplaced : v.isReplacedPhi = false := by
    rw [Value.isReplacedPhi]
    cases isPhi : v.phi? with
    | none => rfl
    | some p => simp [idle p isPhi]
  exact Array.countP_push_of_neg (by simp [unreplaced])

theorem Cedes.replacedCount (cedes : b.Cedes phi same p) :
    (b.replacedBy phi same p).replacedCount = b.replacedCount + 1 := by
  obtain ⟨v, found, isPhi⟩ := Option.bind_eq_some_iff.mp cedes.present
  have counted := replacedCount_onPhi found (Phi.retire same)
  have before : v.isReplacedPhi = false := by simp [Value.isReplacedPhi, isPhi, cedes.live]
  have behind : (v.updatePhi (Phi.retire same)).isReplacedPhi = true := by
    simp [Value.isReplacedPhi, phi?_updatePhi, isPhi, Phi.retire]
  rw [before, behind] at counted
  calc
    (b.replacedBy phi same p).replacedCount = (b.onPhi phi (Phi.retire same)).replacedCount :=
      replacedCount_onPhi_same same fun _ => rfl
    _ = b.replacedCount + 1 := by simpa using counted

theorem livePhis_add_replacedCount (b : Builder) :
    b.livePhis + b.replacedCount = b.values.countP Value.isPhi := by
  rw [livePhis, replacedCount, ← Array.countP_toList, ← Array.countP_toList, ← Array.countP_toList]
  induction b.values.toList with
  | nil => rfl
  | cons v rest ih =>
      have one : (if v.isLivePhi then 1 else 0) + (if v.isReplacedPhi then 1 else 0) =
          if v.isPhi then 1 else 0 := by
        obtain ⟨_, _, _ | _ | _ | _ | ⟨_, _, _, _, _, _ | _⟩ | _ | _⟩ := v <;> rfl
      rw [List.countP_cons, List.countP_cons, List.countP_cons]
      omega

/-- What stands for a value is at the end of its replacements, phis know their users, and the replaced
phis are counted. -/
structure Chained (b : Builder) : Prop extends b.Aliased where
  leads : ∀ id, b.LeadsTo id (b.representative id)
  next_lt : ∀ {id next : ValueId}, b.replacementOf id = some next → next < b.values.size
  listed : ∀ {id : ValueId} {p : Phi}, b.phiAt id = some p → p.ListsWatchers
  counted : b.replacedPhis = b.replacedCount

theorem Chained.extend (chained : b.Chained) (aliased : t.Aliased)
    (size : b.values.size ≤ t.values.size) (reps : t.representative = b.representative)
    (replacements : t.replacementOf = b.replacementOf) (replaced : t.replacedPhis = b.replacedPhis)
    (count : t.replacedCount = b.replacedCount)
    (listed : ∀ {id : ValueId} {p : Phi}, t.phiAt id = some p → p.ListsWatchers) : t.Chained where
  toAliased := aliased
  leads id := by
    rw [reps]
    exact (chained.leads id).mono fun i next step => by rwa [replacements]
  next_lt step := Nat.lt_of_lt_of_le (chained.next_lt (replacements ▸ step)) size
  listed := listed
  counted := by rw [replaced, chained.counted, count]

theorem Chained.listsWatchers_onPhi (chained : b.Chained) {change : Phi → Phi}
    (kept : ∀ p : Phi, p.ListsWatchers → (change p).ListsWatchers) {i : ValueId} {q : Phi}
    (found : (b.onPhi phi change).phiAt i = some q) : q.ListsWatchers := by
  rw [phiAt_onPhi] at found
  split at found
  · obtain ⟨p, before, rfl⟩ := Option.map_eq_some_iff.mp found
    exact kept p (chained.listed before)
  · exact chained.listed found

theorem Chained.onPhi (chained : b.Chained) {change : Phi → Phi}
    (kept : ∀ p, (change p).replacement = p.replacement)
    (operands : ∀ p, ∀ o ∈ (change p).operands, o ∈ p.operands ∨ o < b.values.size)
    (listed : ∀ p : Phi, p.ListsWatchers → (change p).ListsWatchers) : (b.onPhi phi change).Chained :=
  chained.extend (chained.toAliased.onPhi kept operands) (Nat.le_of_eq (size_onPhi _ _).symm) rfl
    (replacementOf_onPhi change kept) rfl (replacedCount_onPhi_same phi kept)
    (chained.listsWatchers_onPhi listed)

theorem Chained.withValue (chained : b.Chained) {v : Value} (fresh : v.Fresh) :
    (b.withValue v).Chained := by
  have unreplaced (p : Phi) (isPhi : v.phi? = some p) : p.replacement = none := (fresh.idle p isPhi).2
  refine chained.extend (chained.toAliased.withValue fresh.idle) (by simp)
    (representative_withValue chained.coherent v) (replacementOf_withValue unreplaced) rfl
    (replacedCount_withValue unreplaced) ?_
  intro i p found
  rw [phiAt_withValue] at found
  split at found
  · obtain ⟨role, rfl⟩ := fresh p found
    intro w watches
    cases Array.not_mem_empty w watches
  · exact chained.listed found

theorem Chained.fed (chained : b.Chained) (phi : ValueId) {operand : ValueId}
    (inside : b.representative operand < b.values.size) : (b.fed phi operand).Chained := by
  have first : (b.onPhi phi (Phi.feed (b.representative operand))).Chained := by
    refine chained.onPhi (fun _ => rfl) (fun p o member => ?_) fun _ => id
    refine (Array.mem_push.mp member).imp_right ?_
    rintro rfl
    exact inside
  obtain same | same := b.fed_cases phi operand
  · rwa [same]
  · rw [same]
    refine first.onPhi (fun _ => rfl) (fun _ _ => .inl) fun p listed w watches => ?_
    rw [Phi.addUser, UseList.toList_push, List.mem_append, List.mem_singleton]
    exact (Array.mem_push.mp watches).imp_left (listed w)

theorem Chained.replacedBy (chained : b.Chained) (cedes : b.Cedes phi same p) :
    (b.replacedBy phi same p).Chained where
  toAliased := cedes.keeps_aliased chained.toAliased
  leads id := by
    have kept : ∀ i next, b.replacementOf i = some next →
        (b.replacedBy phi same p).replacementOf i = some next := by
      intro i next step
      rw [cedes.replacementOf, if_neg, step]
      rintro rfl
      rw [cedes.unreplaced] at step
      cases step
    have before := (chained.leads id).mono kept
    rw [cedes.representative chained.toAliased]
    split
    · rename_i toward
      rw [toward] at before
      exact before.tail (by rw [cedes.replacementOf, if_pos rfl])
    · exact before
  next_lt step := by
    rw [cedes.replacementOf] at step
    rw [size_replacedBy]
    split at step
    · cases step
      exact cedes.inside
    · exact chained.next_lt step
  listed {i q} found w watches := by
    rw [cedes.phiAt] at found
    split at found
    · cases found
      cases Array.not_mem_empty w watches
    · split at found
      · obtain ⟨q₀, before, rfl⟩ := Option.map_eq_some_iff.mp found
        rw [Phi.adopt, UseList.toList_append, List.mem_append]
        refine (Array.mem_append.mp watches).imp (chained.listed before w) fun heir => ?_
        exact chained.listed cedes.present w (Array.mem_filter.mp heir).1
      · exact chained.listed found w watches
  counted := by
    rw [cedes.replacedCount, ← chained.counted]
    rfl

theorem endures_chained : Endures Chained where
  aliased := Chained.toAliased
  onBlocks _ chained := ⟨chained.toAliased.congr rfl rfl, chained.leads, chained.next_lt, chained.listed,
    chained.counted⟩
  withValue chained fresh := chained.withValue fresh
  fed phi _ chained inside := chained.fed phi inside
  finish _ chained := chained.onPhi (fun _ => rfl) (fun _ _ => .inl) fun _ => id
  replacedBy chained cedes := chained.replacedBy cedes

theorem chained_ofLocals (locals : Array ValueType) (paramCount : Nat) :
    (ofLocals locals paramCount).Chained where
  toAliased := reduced_ofLocals.toAliased
  leads _ := .refl
  next_lt step := by cases step
  listed present := by cases present
  counted := rfl

/-- A builder later on: values stay, phis stay phis, and replaced phis keep their replacements. -/
structure Inherits (b t : Builder) : Prop where
  size : b.values.size ≤ t.values.size
  isPhi : ∀ id < b.values.size, t.isPhi id = b.isPhi id
  replacement : ∀ id next, b.replacementOf id = some next → t.replacementOf id = some next

theorem isPhi_eq_phiAt (b : Builder) (id : ValueId) : b.isPhi id = (b.phiAt id).isSome := rfl

theorem isPhi_onPhi (id : ValueId) (change : Phi → Phi) : (b.onPhi id change).isPhi = b.isPhi := by
  funext i
  rw [isPhi_eq_phiAt, phiAt_onPhi, isPhi_eq_phiAt]
  split
  · exact Option.isSome_map
  · rfl

theorem Inherits.trans (first : b.Inherits t) (second : t.Inherits u) : b.Inherits u where
  size := Nat.le_trans first.size second.size
  isPhi id inside := by
    rw [second.isPhi id (Nat.lt_of_lt_of_le inside first.size), first.isPhi id inside]
  replacement id next step := second.replacement id next (first.replacement id next step)

theorem Inherits.refl (b : Builder) : b.Inherits b := ⟨Nat.le_refl _, fun _ _ => rfl, fun _ _ => id⟩

theorem Inherits.withValue (b : Builder) {v : Value}
    (idle : ∀ p, v.phi? = some p → p.replacement = none) : b.Inherits (b.withValue v) where
  size := by simp
  isPhi id inside := by rw [isPhi_eq_phiAt, phiAt_withValue, if_neg (Nat.ne_of_lt inside), isPhi_eq_phiAt]
  replacement id next step := by rwa [replacementOf_withValue idle]

theorem Inherits.onPhi (b : Builder) (phi : ValueId) (change : Phi → Phi)
    (kept : ∀ p, (change p).replacement = p.replacement) : b.Inherits (b.onPhi phi change) where
  size := by simp
  isPhi id _ := by rw [isPhi_onPhi]
  replacement id next step := by rwa [replacementOf_onPhi change kept]

theorem Inherits.fed (b : Builder) (phi operand : ValueId) : b.Inherits (b.fed phi operand) := by
  have first := Inherits.onPhi b phi (Phi.feed (b.representative operand)) fun _ => rfl
  obtain same | same := b.fed_cases phi operand
  · exact same ▸ first
  · exact same ▸ first.trans (.onPhi _ _ _ fun _ => rfl)

theorem Inherits.replacedBy (cedes : b.Cedes phi same p) : b.Inherits (b.replacedBy phi same p) where
  size := by simp
  isPhi id _ := by
    change ((b.onPhi phi _).onPhi same _).isPhi id = _
    rw [isPhi_onPhi, isPhi_onPhi]
  replacement id next step := by
    rw [cedes.replacementOf, if_neg, step]
    rintro rfl
    rw [cedes.unreplaced] at step
    cases step

theorem endures_inherits (b : Builder) : Endures fun t => t.Aliased ∧ b.Inherits t where
  aliased := And.left
  onBlocks _ now := ⟨now.1.congr rfl rfl, now.2.size, now.2.isPhi, now.2.replacement⟩
  withValue now fresh := ⟨now.1.withValue fresh.idle,
    now.2.trans (.withValue _ fun p isPhi => (fresh.idle p isPhi).2)⟩
  fed phi operand now inside := ⟨now.1.fed phi inside, now.2.trans (.fed _ phi operand)⟩
  finish phi now := ⟨now.1.finish phi, now.2.trans (.onPhi _ phi _ fun _ => rfl)⟩
  replacedBy now cedes := ⟨cedes.keeps_aliased now.1, now.2.trans (.replacedBy cedes)⟩

theorem LeadsTo.acc {last : ValueId} (leads : b.LeadsTo id last)
    (ends : b.replacementOf last = none) :
    Acc (fun next id => b.replacementOf id = some next) id := by
  induction leads using Relation.ReflTransGen.head_induction_on with
  | refl =>
      refine ⟨_, fun next step => ?_⟩
      cases ends.symm.trans step
  | head step _ ih =>
      refine ⟨_, fun next other => ?_⟩
      cases step.symm.trans other
      exact ih

theorem Aliased.replacementOf_eq_none_iff (aliased : b.Aliased) (id : ValueId) :
    b.replacementOf id = none ↔ b.representative id = id := by
  constructor
  · intro unreplaced
    refine Decidable.not_not.mp fun moved => ?_
    obtain ⟨p, present, gone⟩ := (aliased.replaced id).mp moved
    rw [replacementOf, present, Option.bind_some] at unreplaced
    exact gone unreplaced
  · intro stays
    rw [← stays]
    exact aliased.replacementOf_eq_none id

theorem Aliased.isPhi_of_moved (aliased : b.Aliased) (moved : b.representative id ≠ id) :
    b.isPhi id = true := by
  obtain ⟨p, present, _⟩ := (aliased.replaced id).mp moved
  exact isPhi_of_phiAt present

theorem Chained.onward (chained : b.Chained) (later : t.Chained) (inherits : b.Inherits t)
    (id : ValueId) : t.LeadsTo (b.representative id) (t.representative id) :=
  ((chained.leads id).mono inherits.replacement).onward (later.leads id)
    (later.toAliased.replacementOf_eq_none id)

theorem Reduced.user {o : ValueId} {q : Phi} {work : List ValueId} (reduced : b.Reduced work)
    (chained : b.Chained) (present : b.phiAt id = some p) (live : p.replacement = none)
    (member : o ∈ p.operands) (used : b.phiAt (b.representative o) = some q)
    (other : b.representative o ≠ id) : q.replacement = none ∧ id ∈ q.users.toList := by
  constructor
  · have unreplaced := chained.toAliased.replacementOf_eq_none o
    rwa [replacementOf, used, Option.bind_some] at unreplaced
  · exact chained.listed used id ((reduced.watched present live member used).resolve_left other)

variable {locals : Array ValueType} {paramCount : Nat} {requests later : List Request}

/-- Replacements form a forest, whatever has been asked for while there were ids. Only phis are replaced,
following replacements ends, at the value that stands for the first one, and it goes through what stood
for it earlier. A live phi that stands for an operand of another one has that one among its users, and
each phi is live or counted as replaced. -/
theorem replacements_forest (reached : (ofLocals locals paramCount).served requests = some b) :
    (∀ id, b.representative id ≠ id → b.isPhi id = true) ∧
    (∀ id, b.replacementOf id = none ↔ b.representative id = id) ∧
    (WellFounded fun next id => b.replacementOf id = some next) ∧
    (∀ id, b.LeadsTo id (b.representative id) ∧ b.replacementOf (b.representative id) = none) ∧
    (∀ id < b.values.size, b.representative id < b.values.size) ∧
    (∀ later t, b.served later = some t →
      (∀ id next, b.replacementOf id = some next → t.replacementOf id = some next) ∧
      (∀ id, t.LeadsTo (b.representative id) (t.representative id)) ∧
      b.values.size ≤ t.values.size ∧ ∀ id < b.values.size, t.isPhi id = b.isPhi id) ∧
    (∀ id p o q, b.phiAt id = some p → p.replacement = none → o ∈ p.operands →
      b.phiAt (b.representative o) = some q → b.representative o ≠ id →
        q.replacement = none ∧ id ∈ q.users.toList) ∧
    b.replacedPhis = b.values.countP Value.isReplacedPhi ∧
    b.livePhis + b.replacedPhis = b.values.countP Value.isPhi := by
  have reduced : b.Reduced [] := reduced_ofLocals.served reached
  have chained : b.Chained := by
    rw [eq_endured_of_served reached]
    exact endures_chained.endured (chained_ofLocals locals paramCount) requests
  have aliased := chained.toAliased
  refine ⟨fun id => aliased.isPhi_of_moved, aliased.replacementOf_eq_none_iff,
    ⟨fun id => (chained.leads id).acc (aliased.replacementOf_eq_none id)⟩,
    fun id => ⟨chained.leads id, aliased.replacementOf_eq_none id⟩,
    fun id inside => aliased.coherent.apply_lt inside, ?_,
    fun id p o q present live member used other =>
      reduced.user chained present live member used other, chained.counted, ?_⟩
  · intro later t served
    rw [eq_endured_of_served served]
    have later' := endures_chained.endured chained later
    have inherits := ((endures_inherits b).endured ⟨aliased, .refl b⟩ later).2
    exact ⟨inherits.replacement, chained.onward later' inherits, inherits.size, inherits.isPhi⟩
  · rw [chained.counted]
    exact b.livePhis_add_replacedCount

/-- Two joins in a row that are sealed from the last to the first: the phi of the second one gives way to
that of the first one, which then gives way to what the entry starts with. -/
theorem replacements_forest_joins : ∃ b t,
    (ofLocals #[.i32] 0).served [.addBlock .join, .addBlock .join, .connect 0 1 [], .connect 1 2 [],
      .getLocal 2 0, .sealBlock 2] = some b ∧
    b.served [.sealBlock 1] = some t ∧
    (b.representative 0 = 1 ∧ b.LeadsTo 0 1 ∧ b.replacementOf 1 = none ∧ b.isPhi 0 = true) ∧
    (t.representative 0 = 2 ∧ t.LeadsTo 1 2 ∧ t.isPhi 0 = true) ∧
    b.values.countP Value.isReplacedPhi = 1 ∧ b.values.countP Value.isPhi = 2 := by
  have data : ((ofLocals #[.i32] 0).served [.addBlock .join, .addBlock .join, .connect 0 1 [],
      .connect 1 2 [], .getLocal 2 0, .sealBlock 2]).map (fun b => (b.representative 0, b.livePhis,
        b.replacedPhis, (b.served [.sealBlock 1]).map fun t => t.representative 0)) =
      some (1, 1, 1, some 2) := by decide +kernel
  obtain ⟨b, reached, shown⟩ := Option.map_eq_some_iff.mp data
  simp only [Prod.mk.injEq, Option.map_eq_some_iff] at shown
  obtain ⟨first, live, replaced, t, later, second⟩ := shown
  obtain ⟨phis, _, _, chains, inside, onward, _, counted, all⟩ := replacements_forest reached
  obtain ⟨_, further, _, stays⟩ := onward _ t later
  have isPhi : b.isPhi 0 = true := phis 0 (by rw [first]; decide)
  obtain ⟨leads, ends⟩ := chains 0
  rw [first] at leads ends
  have next := further 0
  rw [first, second] at next
  refine ⟨b, t, reached, later, ⟨first, leads, ends, isPhi⟩, ⟨second, next, ?_⟩, ?_, ?_⟩
  · rw [stays 0 ?_, isPhi]
    exact lt_of_phiAt (Option.get_mem isPhi)
  · rw [← counted, replaced]
  · rw [← all, live, replaced]

end Builder

end WasmFunclets.Ssa
