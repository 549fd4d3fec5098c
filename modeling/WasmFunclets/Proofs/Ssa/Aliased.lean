import WasmFunclets.Proofs.Ssa.Look

/-! What stands for a phi, at any time and also after a failure: only phis are replaced, and the removal
of trivial ones ends. -/

namespace WasmFunclets.Ssa

def Phi.retire (same : ValueId) (p : Phi) : Phi :=
  { p with users := .empty, watchers := #[], replacement := some same }

def Phi.adopt (users : UseList) (watchers : Array ValueId) (p : Phi) : Phi :=
  { p with users := p.users.append users, watchers := p.watchers ++ watchers }

namespace Builder

open Attempt

variable {b t u : Builder} {id phi same : ValueId} {p q : Phi}

def phiAt (b : Builder) (id : ValueId) : Option Phi := b.values[id]?.bind Value.phi?

theorem phi?_updatePhi (change : Phi → Phi) (v : Value) :
    (v.updatePhi change).phi? = v.phi?.map change := by
  obtain ⟨_, _, _ | _ | _ | _ | _ | _ | _⟩ := v <;> rfl

theorem phiAt_onPhi (id : ValueId) (change : Phi → Phi) (i : ValueId) :
    (b.onPhi id change).phiAt i = if i = id then (b.phiAt i).map change else b.phiAt i := by
  rw [phiAt, value_onPhi, phiAt]
  split
  · cases b.values[i]? with
    | none => rfl
    | some v => simp [phi?_updatePhi]
  · rfl

theorem phiAt_withValue (v : Value) (i : ValueId) :
    (b.withValue v).phiAt i = if i = b.values.size then v.phi? else b.phiAt i := by
  rw [phiAt, value_withValue, phiAt]
  split <;> rfl

theorem lt_of_phiAt (present : b.phiAt id = some p) : id < b.values.size := by
  obtain ⟨_, found, _⟩ := Option.bind_eq_some_iff.mp present
  exact (Array.getElem?_eq_some_iff.mp found).1

theorem phiAt_of_look {type : ValueType} {home : Option BlockId}
    (shown : b.look id = some ⟨type, home, .phi p⟩) :
    ∃ q, b.phiAt id = some q ∧ q.operands = p.operands ∧ q.replacement = p.replacement := by
  obtain ⟨⟨_, _, content⟩, present, same⟩ := Option.map_eq_some_iff.mp shown
  cases content with
  | phi q =>
      cases same
      exact ⟨q, by rw [phiAt, present]; rfl, rfl, rfl⟩
  | _ => cases same

theorem look_of_phiAt (present : b.phiAt id = some p) : ∃ type home q,
    b.look id = some ⟨type, home, .phi q⟩ ∧ q.operands = p.operands ∧ q.replacement = p.replacement := by
  obtain ⟨⟨type, home, content⟩, found, isPhi⟩ := Option.bind_eq_some_iff.mp present
  cases content with
  | phi q =>
      cases isPhi
      exact ⟨type, home, p.plain, by rw [look, found]; rfl, rfl, rfl⟩
  | _ => cases isPhi

theorem isLivePhi_of_phiAt (present : b.phiAt id = some p) (live : p.replacement = none) :
    b.isLivePhi id = true := by
  obtain ⟨⟨_, _, content⟩, found, isPhi⟩ := Option.bind_eq_some_iff.mp present
  cases content with
  | phi q =>
      cases isPhi
      rw [isLivePhi, found]
      exact Option.isNone_iff_eq_none.mpr live
  | _ => cases isPhi

theorem isCompletePhi_of_phiAt (present : b.phiAt id = some p) (complete : p.complete = true) :
    b.isCompletePhi id = true := by
  obtain ⟨⟨_, _, content⟩, found, isPhi⟩ := Option.bind_eq_some_iff.mp present
  cases content with
  | phi q =>
      cases isPhi
      rw [isCompletePhi, found]
      exact complete
  | _ => cases isPhi

theorem isPhi_of_phiAt (present : b.phiAt id = some p) : b.isPhi id = true :=
  Option.isSome_of_eq_some present

/-- The values that do not stand for themselves are the replaced phis. -/
structure Aliased (b : Builder) : Prop where
  coherent : b.substitution.Coherent b.values.size
  operand_lt : ∀ {id : ValueId} {p : Phi}, b.phiAt id = some p → ∀ o ∈ p.operands, o < b.values.size
  replaced : ∀ id, b.representative id ≠ id ↔ ∃ p, b.phiAt id = some p ∧ p.replacement ≠ none

theorem Aliased.leads (aliased : b.Aliased) (present : b.phiAt id = some p)
    (live : p.replacement = none) : b.representative id = id := by
  refine Decidable.not_not.mp fun moved => ?_
  obtain ⟨q, found, gone⟩ := (aliased.replaced id).mp moved
  cases present.symm.trans found
  exact gone live

theorem Aliased.representative_idem (aliased : b.Aliased) (id : ValueId) :
    b.representative (b.representative id) = b.representative id := aliased.coherent.apply_apply id

theorem Aliased.congr (aliased : b.Aliased) (values : t.values = b.values)
    (substitution : t.substitution = b.substitution) : t.Aliased := by
  have phis : t.phiAt = b.phiAt := by
    funext i
    rw [phiAt, values, phiAt]
  have reps : t.representative = b.representative := by
    funext i
    rw [representative, substitution, representative]
  exact ⟨by rw [substitution, values]; exact aliased.coherent,
    by rw [phis, values]; exact aliased.operand_lt, by rw [phis, reps]; exact aliased.replaced⟩

/-- Phis that are replaced as before, and whose new operands are values. -/
theorem Aliased.extend (aliased : b.Aliased) (size : t.values.size = b.values.size)
    (substitution : t.substitution = b.substitution)
    (phis : ∀ i, ∃ change : Phi → Phi, t.phiAt i = (b.phiAt i).map change ∧ ∀ p, b.phiAt i = some p →
      (change p).replacement = p.replacement ∧
      ∀ o ∈ (change p).operands, o ∈ p.operands ∨ o < b.values.size) : t.Aliased where
  coherent := by rw [substitution, size]; exact aliased.coherent
  operand_lt {i p'} found o member := by
    obtain ⟨change, same, rest⟩ := phis i
    rw [same] at found
    obtain ⟨p, before, rfl⟩ := Option.map_eq_some_iff.mp found
    rw [size]
    exact ((rest p before).2 o member).elim (aliased.operand_lt before o) id
  replaced i := by
    have rep : t.representative = b.representative := by
      funext i
      rw [representative, substitution, representative]
    rw [rep, aliased.replaced]
    obtain ⟨change, same, rest⟩ := phis i
    rw [same]
    constructor
    · rintro ⟨p, before, gone⟩
      exact ⟨change p, by rw [before, Option.map_some], by rwa [(rest p before).1]⟩
    · rintro ⟨p', found, gone⟩
      obtain ⟨p, before, rfl⟩ := Option.map_eq_some_iff.mp found
      exact ⟨p, before, by rwa [← (rest p before).1]⟩

theorem Aliased.withValue (aliased : b.Aliased) {v : Value}
    (idle : ∀ p, v.phi? = some p → p.operands = #[] ∧ p.replacement = none) :
    (b.withValue v).Aliased := by
  have rep := representative_withValue aliased.coherent v
  have split_ {i : ValueId} {p : Phi} (found : (b.withValue v).phiAt i = some p) :
      b.phiAt i = some p ∨ p.operands = #[] ∧ p.replacement = none := by
    rw [phiAt_withValue] at found
    split at found
    · exact .inr (idle p found)
    · exact .inl found
  refine ⟨by rw [size_withValue]; exact aliased.coherent.extend, ?_, fun i => ?_⟩
  · intro i p found o member
    rw [size_withValue]
    rcases split_ found with before | ⟨empty, _⟩
    · exact Nat.lt_succ_of_lt (aliased.operand_lt before o member)
    · simp [empty] at member
  · rw [rep, aliased.replaced]
    constructor
    · rintro ⟨p, before, gone⟩
      refine ⟨p, ?_, gone⟩
      rw [phiAt_withValue, if_neg (Nat.ne_of_lt (lt_of_phiAt before)), before]
    · rintro ⟨p, found, gone⟩
      rcases split_ found with before | ⟨_, live⟩
      · exact ⟨p, before, gone⟩
      · exact absurd live gone

theorem phiAt_fed (b : Builder) (phi operand i : ValueId) : ∃ change : Phi → Phi,
    (b.fed phi operand).phiAt i = (b.phiAt i).map change ∧ ∀ p, b.phiAt i = some p →
      (change p).complete = p.complete ∧ (change p).replacement = p.replacement ∧
      (∀ o, o ∈ (change p).operands ↔ o ∈ p.operands ∨ i = phi ∧ o = b.representative operand) ∧
      (∀ w ∈ p.watchers, w ∈ (change p).watchers) ∧
      (b.representative operand = i → i ≠ phi → phi ∈ (change p).watchers) := by
  by_cases fed_ : i = phi
  · subst fed_
    refine ⟨Phi.feed (b.representative operand), ?_, fun p _ => ⟨rfl, rfl, ?_, fun _ => id,
      fun _ other => absurd rfl other⟩⟩
    · unfold fed
      dsimp only
      split
      · rename_i use
        rw [phiAt_onPhi, if_neg (Ne.symm use.1), phiAt_onPhi, if_pos rfl]
      · rw [phiAt_onPhi, if_pos rfl]
    · simp [Phi.feed, Array.mem_push]
  · by_cases used : b.representative operand = i ∧ b.isPhi i = true
    · obtain ⟨rfl, isPhi⟩ := used
      refine ⟨Phi.addUser phi, ?_, fun p _ => ⟨rfl, rfl, ?_, ?_, ?_⟩⟩
      · unfold fed
        dsimp only
        rw [if_pos ⟨fed_, isPhi⟩, phiAt_onPhi, if_pos rfl, phiAt_onPhi, if_neg fed_]
      · simp [Phi.addUser, fed_]
      · exact fun w member => Array.mem_push.mpr (.inl member)
      · exact fun _ _ => Array.mem_push.mpr (.inr rfl)
    · refine ⟨fun p => p, ?_, fun p present => ⟨rfl, rfl, by simp [fed_], fun _ => id,
        fun leads _ => absurd ⟨leads, isPhi_of_phiAt present⟩ used⟩⟩
      rw [Option.map_id']
      unfold fed
      dsimp only
      split
      · rename_i use
        have other : i ≠ b.representative operand := fun here => used ⟨here.symm, here ▸ use.2⟩
        rw [phiAt_onPhi, if_neg other, phiAt_onPhi, if_neg fed_]
      · rw [phiAt_onPhi, if_neg fed_]

theorem Aliased.fed (aliased : b.Aliased) (phi : ValueId) {operand : ValueId}
    (inside : b.representative operand < b.values.size) : (b.fed phi operand).Aliased := by
  refine aliased.extend (size_fed _ _) (substitution_fed _ _) fun i => ?_
  obtain ⟨change, same, rest⟩ := b.phiAt_fed phi operand i
  refine ⟨change, same, fun p present => ?_⟩
  obtain ⟨_, replacement, operands, _⟩ := rest p present
  refine ⟨replacement, fun o member => ((operands o).mp member).imp_right ?_⟩
  rintro ⟨_, rfl⟩
  exact inside

theorem Aliased.onPhi (aliased : b.Aliased) {change : Phi → Phi}
    (kept : ∀ p, (change p).replacement = p.replacement)
    (operands : ∀ p, ∀ o ∈ (change p).operands, o ∈ p.operands ∨ o < b.values.size) :
    (b.onPhi phi change).Aliased := by
  refine aliased.extend (size_onPhi _ _) rfl fun i => ?_
  by_cases here : i = phi
  · exact ⟨change, by rw [phiAt_onPhi, if_pos here], fun p _ => ⟨kept p, operands p⟩⟩
  · exact ⟨fun p => p, by rw [phiAt_onPhi, if_neg here, Option.map_id'], fun p _ =>
      ⟨rfl, fun _ => .inl⟩⟩

theorem Aliased.finish (aliased : b.Aliased) (phi : ValueId) : (b.onPhi phi Phi.finish).Aliased :=
  aliased.onPhi (fun _ => rfl) fun _ _ => .inl

def heirs (b : Builder) (phi same : ValueId) (p : Phi) : Array ValueId :=
  p.watchers.filter (b.onPhi phi (Phi.retire same)).isLivePhi

def replacedBy (b : Builder) (phi same : ValueId) (p : Phi) : Builder :=
  { (b.onPhi phi (Phi.retire same)).onPhi same (Phi.adopt p.users (b.heirs phi same p)) with
    substitution := b.substitution.replace phi same
    replacedPhis := b.replacedPhis + 1 }

theorem replace_replacedBy (present : b.phiAt phi = some p) (same : ValueId) :
    Ends (replace phi same) b
      (fun users t => users = b.heirs phi same p ∧ t = b.replacedBy phi same p)
      fun _ _ => False := by
  have found : b.values[phi]?.bind Value.phi? = some p := present
  simp only [replace, ends_bind, ends_get, found, ends_modifyPhi, ends_modify, ends_pure]
  exact ⟨rfl, rfl⟩

theorem mem_heirs {w : ValueId} (member : w ∈ p.watchers) (other : w ≠ phi)
    (live : b.isLivePhi w = true) : w ∈ b.heirs phi same p := by
  refine Array.mem_filter.mpr ⟨member, ?_⟩
  rw [isLivePhi, value_onPhi, if_neg other]
  exact live

@[simp] theorem size_replacedBy (phi same : ValueId) (p : Phi) :
    (b.replacedBy phi same p).values.size = b.values.size := by
  simp [replacedBy]

/-- A live phi can give way to another value that stands for itself. -/
structure Cedes (b : Builder) (phi same : ValueId) (p : Phi) : Prop where
  present : b.phiAt phi = some p
  live : p.replacement = none
  follows : b.representative same = same
  distinct : same ≠ phi
  inside : same < b.values.size

section Ceding

variable (cedes : b.Cedes phi same p)
include cedes

theorem Cedes.phiAt (i : ValueId) : (b.replacedBy phi same p).phiAt i =
    if i = phi then some (p.retire same)
    else if i = same then (b.phiAt i).map (Phi.adopt p.users (b.heirs phi same p))
    else b.phiAt i := by
  have view : (b.replacedBy phi same p).phiAt i =
      ((b.onPhi phi (Phi.retire same)).onPhi same (Phi.adopt p.users (b.heirs phi same p))).phiAt i :=
    rfl
  rw [view, phiAt_onPhi, phiAt_onPhi]
  by_cases here : i = phi
  · subst here
    rw [if_neg (Ne.symm cedes.distinct), if_pos rfl, if_pos rfl, cedes.present, Option.map_some]
  · simp only [here, if_false]

theorem Cedes.others {i : ValueId} (other : i ≠ phi) : ∃ change : Phi → Phi,
    (b.replacedBy phi same p).phiAt i = (b.phiAt i).map change ∧ ∀ q,
      (change q).operands = q.operands ∧ (change q).complete = q.complete ∧
      (change q).replacement = q.replacement ∧ (∀ w ∈ q.watchers, w ∈ (change q).watchers) ∧
      (i = same → ∀ w ∈ b.heirs phi same p, w ∈ (change q).watchers) := by
  by_cases here : i = same
  · refine ⟨Phi.adopt p.users (b.heirs phi same p), ?_, fun q => ⟨rfl, rfl, rfl, ?_, ?_⟩⟩
    · rw [cedes.phiAt, if_neg other, if_pos here]
    · exact fun w member => Array.mem_append.mpr (.inl member)
    · exact fun _ w member => Array.mem_append.mpr (.inr member)
  · exact ⟨fun q => q, by rw [cedes.phiAt, if_neg other, if_neg here, Option.map_id'],
      fun q => ⟨rfl, rfl, rfl, fun _ => id, fun absurd_ => absurd absurd_ here⟩⟩

theorem Cedes.representative (aliased : b.Aliased) (i : ValueId) :
    (b.replacedBy phi same p).representative i =
      if b.representative i = phi then same else b.representative i :=
  aliased.coherent.apply_replace (lt_of_phiAt cedes.present) cedes.inside
    (aliased.leads cedes.present cedes.live) cedes.follows cedes.distinct.symm i

theorem Cedes.keeps_aliased (aliased : b.Aliased) : (b.replacedBy phi same p).Aliased := by
  have rep := cedes.representative aliased
  have leads := aliased.leads cedes.present cedes.live
  have gone : (b.replacedBy phi same p).phiAt phi = some (p.retire same) := by
    rw [cedes.phiAt, if_pos rfl]
  refine ⟨?_, ?_, fun i => ?_⟩
  · rw [size_replacedBy]
    refine aliased.coherent.replace (lt_of_phiAt cedes.present) cedes.inside ?_
    change b.representative phi ≠ b.representative same
    rw [leads, cedes.follows]
    exact cedes.distinct.symm
  · intro i p' found o member
    rw [size_replacedBy]
    by_cases here : i = phi
    · subst here
      cases gone.symm.trans found
      exact aliased.operand_lt cedes.present o member
    · obtain ⟨change, same_, keeps⟩ := cedes.others here
      rw [same_] at found
      obtain ⟨q, before, rfl⟩ := Option.map_eq_some_iff.mp found
      exact aliased.operand_lt before o ((keeps q).1 ▸ member)
  · by_cases here : i = phi
    · subst here
      rw [rep, leads, if_pos rfl]
      exact ⟨fun _ => ⟨_, gone, by simp [Phi.retire]⟩, fun _ => cedes.distinct⟩
    · obtain ⟨change, same_, keeps⟩ := cedes.others here
      have moved : (b.replacedBy phi same p).representative i ≠ i ↔ b.representative i ≠ i := by
        rw [rep]
        split
        · rename_i toward
          refine ⟨fun _ => fun stays => here (stays.symm.trans toward), fun _ => ?_⟩
          rintro rfl
          exact cedes.distinct (cedes.follows.symm.trans toward)
        · exact Iff.rfl
      rw [moved, aliased.replaced, same_]
      constructor
      · rintro ⟨q, before, gone⟩
        exact ⟨change q, by rw [before, Option.map_some], by rwa [(keeps q).2.2.1]⟩
      · rintro ⟨_, found, gone⟩
        obtain ⟨q, before, rfl⟩ := Option.map_eq_some_iff.mp found
        exact ⟨q, before, by rwa [← (keeps q).2.2.1]⟩

end Ceding

theorem countP_lt {α : Type} {p q : α → Bool} {items : List α} (imp : ∀ x ∈ items, p x → q x)
    {a : α} (member : a ∈ items) (fails : p a = false) (holds : q a = true) :
    items.countP p < items.countP q := by
  induction items with
  | nil => cases member
  | cons first rest ih =>
      have tail : rest.countP p ≤ rest.countP q :=
        List.countP_mono_left fun x inside => imp x (List.mem_cons_of_mem _ inside)
      have head := imp first List.mem_cons_self
      rw [List.countP_cons, List.countP_cons]
      rcases List.mem_cons.mp member with rfl | inside
      · rw [if_neg (by simp [fails]), if_pos holds]
        omega
      · have := ih (fun x inside => imp x (List.mem_cons_of_mem _ inside)) inside
        split <;> split <;> grind

def leaders (b : Builder) (n : Nat) : Nat :=
  (List.range n).countP fun id => b.representative id = id

theorem leaders_le (b : Builder) (n : Nat) : b.leaders n ≤ n := by
  have := List.countP_le_length (p := fun id => decide (b.representative id = id))
    (l := List.range n)
  rwa [List.length_range] at this

theorem leaders_congr {n : Nat} (same : t.representative = b.representative) :
    t.leaders n = b.leaders n := by
  rw [leaders, leaders, same]

theorem Cedes.leaders_lt (cedes : b.Cedes phi same p) (aliased : b.Aliased) {n : Nat}
    (bound : phi < n) : (b.replacedBy phi same p).leaders n < b.leaders n := by
  have rep := cedes.representative aliased
  have leads := aliased.leads cedes.present cedes.live
  refine countP_lt (fun id _ still => ?_) (List.mem_range.mpr bound) ?_ ?_
  · rw [decide_eq_true_eq] at still ⊢
    rw [rep] at still
    split at still
    · rw [← still, cedes.follows]
    · exact still
  · rw [decide_eq_false_iff_not, rep, leads, if_pos rfl]
    exact cedes.distinct
  · rw [decide_eq_true_eq, leads]

structure Merges (b : Builder) (id : ValueId) (type : ValueType) (same : Option ValueId) :
    Prop where
  phi : ∃ home p, b.look id = some ⟨type, home, .phi p⟩ ∧ p.replacement = none ∧
    (∀ o ∈ p.operands, b.representative o = id ∨ same = some (b.representative o)) ∧
    ∀ v, same = some v → v ≠ id ∧ ∃ o ∈ p.operands, b.representative o = v

theorem merge_spec {id : ValueId} (operands : List ValueId) (start same : Option ValueId)
    (merged : operands.foldlM (b.merge id) start = some same) :
    (∀ v, start = some v → same = some v) ∧
      (∀ o ∈ operands, b.representative o = id ∨ same = some (b.representative o)) ∧
      ∀ v, same = some v → start = some v ∨
        v ≠ id ∧ ∃ o ∈ operands, b.representative o = v := by
  induction operands generalizing start with
  | nil =>
      cases merged
      exact ⟨fun _ same => same, by simp, fun _ => .inl⟩
  | cons first rest ih =>
      rw [List.foldlM_cons] at merged
      unfold merge at merged
      dsimp only at merged
      split at merged
      · rename_i known
        obtain ⟨kept, each, from_⟩ := ih start merged
        refine ⟨kept, ?_, ?_⟩
        · grind
        · grind
      · rename_i other
        split at merged
        · rename_i none_
          obtain ⟨kept, each, from_⟩ := ih _ merged
          have same_ := kept _ rfl
          rw [Option.isNone_iff_eq_none] at none_
          subst none_
          refine ⟨by simp, ?_, ?_⟩
          · grind
          · grind
        · cases merged

theorem nextTrivial_spec {worklist : List ValueId} {trivial : Trivial}
    (found : b.nextTrivial worklist = some trivial) :
    b.Merges trivial.phi trivial.type trivial.same ∧ trivial.phi ∈ worklist ∧
      ∀ id ∈ trivial.rest, id ∈ worklist := by
  induction worklist with
  | nil => cases found
  | cons id rest ih =>
      rw [nextTrivial] at found
      have later (found : b.nextTrivial rest = some trivial) :
          b.Merges trivial.phi trivial.type trivial.same ∧ trivial.phi ∈ id :: rest ∧
            ∀ i ∈ trivial.rest, i ∈ id :: rest := by
        obtain ⟨merges, member, below⟩ := ih found
        exact ⟨merges, List.mem_cons_of_mem _ member,
          fun i inside => List.mem_cons_of_mem _ (below i inside)⟩
      split at found
      · rename_i type home p present
        split at found
        · exact later found
        · rename_i live
          split at found
          · rename_i same merged
            cases found
            rw [← Array.foldlM_toList] at merged
            obtain ⟨_, each, from_⟩ := merge_spec _ _ _ merged
            refine ⟨⟨home, p.plain, by rw [look, present]; rfl, ?_, ?_, ?_⟩, List.mem_cons_self,
              fun i inside => List.mem_cons_of_mem _ inside⟩
            · simpa [Phi.plain] using live
            · exact fun o member => each o (by simpa [Phi.plain] using member)
            · intro v same_
              obtain absurd_ | ⟨other, o, member, rep⟩ := from_ v same_
              · cases absurd_
              · exact ⟨other, o, by simpa [Phi.plain] using member, rep⟩
          · exact later found
      · exact later found

/-- The value that a trivial phi gives way to, the one it merges or else a new undefined one, and the
builder with it. -/
inductive Picks (b : Builder) (trivial : Trivial) : ValueId → Builder → Prop where
  | merged {same : ValueId} (merges : trivial.same = some same) : b.Picks trivial same b
  | nothing (merges : trivial.same = none) :
      b.Picks trivial b.values.size (b.withValue ⟨trivial.type, none, .undef⟩)

theorem Picks.phiAt {trivial : Trivial} (picks : b.Picks trivial same t) : t.phiAt = b.phiAt := by
  cases picks with
  | merged => rfl
  | nothing =>
      funext i
      rw [phiAt_withValue]
      split
      · rename_i new
        rw [new, Builder.phiAt, Array.getElem?_eq_none (Nat.le_refl _)]
        rfl
      · rfl

theorem Picks.representative {trivial : Trivial} (picks : b.Picks trivial same t)
    (aliased : b.Aliased) : t.representative = b.representative := by
  cases picks with
  | merged => rfl
  | nothing => exact representative_withValue aliased.coherent _

theorem Picks.cedes {worklist : List ValueId} {trivial : Trivial} (aliased : b.Aliased)
    (found : b.nextTrivial worklist = some trivial) (picks : b.Picks trivial same t) :
    ∃ p, t.Cedes trivial.phi same p := by
  obtain ⟨home, q, shown, idle, _, from_⟩ := (nextTrivial_spec found).1.phi
  obtain ⟨p, present, operands, replacement⟩ := phiAt_of_look shown
  have bound := lt_of_phiAt present
  obtain ⟨follows, distinct, inside⟩ :
      t.representative same = same ∧ same ≠ trivial.phi ∧ same < t.values.size := by
    rw [picks.representative aliased]
    cases picks with
    | merged merges =>
        obtain ⟨other, o, operand, leads⟩ := from_ _ merges
        have inside := aliased.coherent.apply_lt (aliased.operand_lt present o (operands ▸ operand))
        exact ⟨by rw [← leads, aliased.representative_idem], other, leads ▸ inside⟩
    | nothing =>
        exact ⟨aliased.coherent.apply_of_le (Nat.le_refl _), Nat.ne_of_gt bound, by simp⟩
  exact ⟨p, by rw [picks.phiAt, present], replacement.trans idle, follows, distinct, inside⟩

/-- What holds of the steps and the worklist of a removal, holds at its end if each replacement keeps
it. -/
theorem replaceTrivial_rule {I : Nat → List ValueId → Builder → Prop} {Q : Builder → Prop}
    {E : Fault → Builder → Prop}
    (aliased : ∀ {steps work b}, I steps work b → b.Aliased)
    (stuck : ∀ {work b}, I 0 work b → E (.broken .stepsExhausted) b)
    (full : ∀ {steps work b}, I steps work b → arenaLimit ≤ b.values.size →
      E (.broken .arenaExhausted) b)
    (done : ∀ {steps work b}, I (steps + 1) work b → b.nextTrivial work = none → Q b)
    (step : ∀ {steps work b trivial same c p}, I (steps + 1) work b →
      b.nextTrivial work = some trivial → b.Picks trivial same c → c.Cedes trivial.phi same p →
      I steps ((c.replacedBy trivial.phi same p).revisit (c.heirs trivial.phi same p) trivial.rest)
        (c.replacedBy trivial.phi same p))
    (steps : Nat) (work : List ValueId) (start : I steps work b) :
    Ends (replaceTrivial steps work) b (fun _ t => Q t) E := by
  induction steps generalizing b work with
  | zero => exact stuck start
  | succ steps ih =>
      rw [replaceTrivial, ends_bind, ends_get]
      cases found : b.nextTrivial work with
      | none => exact done start found
      | some trivial =>
          have rest {same : ValueId} {c : Builder} (picks : b.Picks trivial same c) : Ends (do
              let users ← replace trivial.phi same
              replaceTrivial steps ((← get).revisit users trivial.rest)) c (fun _ t => Q t) E := by
            obtain ⟨p, cedes⟩ := picks.cedes (aliased start) found
            rw [ends_bind]
            refine (replace_replacedBy cedes.present same).mono ?_ fun _ _ => False.elim
            rintro _ _ ⟨rfl, rfl⟩
            exact ih _ (step start found picks cedes)
          dsimp only
          cases merges : trivial.same with
          | some same => exact rest (.merged merges)
          | none =>
              rw [ends_bind]
              refine (addValue_alone b).mono ?_ ?_
              · rintro _ _ ⟨rfl, rfl⟩
                exact rest (.nothing merges)
              · rintro _ _ ⟨⟨rfl, limit⟩, rfl⟩
                exact full start limit

/-- What changes of phis leave, with other values standing for some of them. -/
structure Shifts (b t : Builder) : Prop where
  aliased : t.Aliased
  blocks : t.blocks = b.blocks
  locals : t.locals = b.locals
  representative : ∀ id, t.representative (b.representative id) = t.representative id

theorem Shifts.refl (aliased : b.Aliased) : b.Shifts b :=
  ⟨aliased, rfl, rfl, aliased.representative_idem⟩

theorem Shifts.trans (first : b.Shifts t) (second : t.Shifts u) : b.Shifts u where
  aliased := second.aliased
  blocks := second.blocks.trans first.blocks
  locals := second.locals.trans first.locals
  representative id := by
    rw [← second.representative, first.representative, second.representative]

theorem Shifts.withValue (aliased : b.Aliased) {v : Value}
    (idle : ∀ p, v.phi? = some p → p.operands = #[] ∧ p.replacement = none) :
    b.Shifts (b.withValue v) where
  aliased := aliased.withValue idle
  blocks := rfl
  locals := rfl
  representative := by
    rw [representative_withValue aliased.coherent]
    exact aliased.representative_idem

theorem Shifts.fed (aliased : b.Aliased) (phi : ValueId) {operand : ValueId}
    (inside : b.representative operand < b.values.size) : b.Shifts (b.fed phi operand) where
  aliased := aliased.fed phi inside
  blocks := blocks_fed _ _
  locals := locals_fed _ _
  representative := by
    rw [representative_fed]
    exact aliased.representative_idem

theorem Shifts.finish (aliased : b.Aliased) (phi : ValueId) : b.Shifts (b.onPhi phi Phi.finish) where
  aliased := aliased.finish phi
  blocks := rfl
  locals := rfl
  representative := aliased.representative_idem

theorem Shifts.picks {trivial : Trivial} (aliased : b.Aliased) (picks : b.Picks trivial same t) :
    b.Shifts t := by
  cases picks with
  | merged => exact .refl aliased
  | nothing => exact .withValue aliased (by simp [Value.phi?])

theorem Shifts.replacedBy (aliased : b.Aliased) (cedes : b.Cedes phi same p) :
    b.Shifts (b.replacedBy phi same p) where
  aliased := cedes.keeps_aliased aliased
  blocks := rfl
  locals := rfl
  representative id := by
    rw [cedes.representative aliased, cedes.representative aliased, aliased.representative_idem]

/-- Each replacement leaves one value less that stands for itself, so that the removal of trivial phis
ends. It fails only for want of an id. -/
theorem replaceTrivial_shifts (n fuel : Nat) (worklist : List ValueId) (aliased : b.Aliased)
    (old : ∀ id p, b.phiAt id = some p → id < n) (enough : b.leaders n < fuel) :
    Ends (replaceTrivial fuel worklist) b (fun _ t => b.Shifts t)
      fun e t => e = .broken .arenaExhausted ∧ b.Shifts t := by
  refine replaceTrivial_rule (I := fun fuel _ t => b.Shifts t ∧
    (∀ id p, t.phiAt id = some p → id < n) ∧ t.leaders n < fuel) (fun now => now.1.aliased) ?_ ?_ ?_ ?_
    fuel worklist ⟨.refl aliased, old, enough⟩
  · exact fun now => absurd now.2.2 (Nat.not_lt_zero _)
  · exact fun now _ => ⟨rfl, now.1⟩
  · exact fun now _ => now.1
  · intro steps work t trivial same c p now found picks cedes
    obtain ⟨shifts, old, enough⟩ := now
    have reps := picks.representative shifts.aliased
    have between := shifts.trans (.picks shifts.aliased picks)
    have bound : trivial.phi < n := old _ p (picks.phiAt ▸ cedes.present)
    refine ⟨between.trans (.replacedBy between.aliased cedes), fun id q later => ?_,
      Nat.lt_of_lt_of_le ?_ (Nat.le_of_lt_succ enough)⟩
    · by_cases here : id = trivial.phi
      · exact here ▸ bound
      · obtain ⟨change, same_, _⟩ := cedes.others here
        rw [same_, picks.phiAt] at later
        obtain ⟨q', before, _⟩ := Option.map_eq_some_iff.mp later
        exact old id q' before
    · have fewer := cedes.leaders_lt between.aliased bound
      rwa [leaders_congr reps] at fewer

theorem removeTrivial_shifts (aliased : b.Aliased) (phi : ValueId) :
    Ends (removeTrivial phi) b (fun same t => b.Shifts t ∧ same = t.representative phi)
      fun e t => e = .broken .arenaExhausted ∧ b.Shifts t := by
  rw [removeTrivial, ends_bind, ends_get, ends_bind]
  exact (replaceTrivial_shifts b.values.size _ [phi] aliased (fun _ _ => lt_of_phiAt)
    (Nat.lt_succ_of_le (leaders_le b _))).imp fun _ t shifts => ⟨shifts, rfl⟩

end Builder

end WasmFunclets.Ssa
