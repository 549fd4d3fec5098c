import WasmFunclets.Proofs.Ssa.Trivial
import WasmFunclets.Proofs.Ssa.Stable

/-! No trivial phi survives. A phi with another one as an operand is among the watchers of it, so that
whatever a replacement makes trivial is looked at again. -/

namespace WasmFunclets.Ssa.Builder

open Attempt

variable {b t : Builder} {id phi same : ValueId} {p q : Phi} {work behind : List ValueId}

/-- A phi with at least two operands that stand for different values other than itself. -/
def Mixes (b : Builder) (id : ValueId) (p : Phi) : Prop :=
  ∃ o ∈ p.operands, ∃ o' ∈ p.operands, b.representative o ≠ b.representative o' ∧
    b.representative o ≠ id ∧ b.representative o' ≠ id

/-- Complete phis merge values, but for some that are still to be looked at, and a phi that others use
knows all of them that are live. -/
structure Reduced (work : List ValueId) (b : Builder) : Prop extends b.Aliased where
  watched : ∀ {id o : ValueId} {p q : Phi}, b.phiAt id = some p → p.replacement = none →
    o ∈ p.operands → b.phiAt (b.representative o) = some q →
      b.representative o = id ∨ id ∈ q.watchers
  mixes : ∀ {id : ValueId} {p : Phi}, b.phiAt id = some p → p.complete = true →
    p.replacement = none → b.Mixes id p ∨ id ∈ work

theorem Mixes.mono (mixes : b.Mixes id p) (same : t.representative = b.representative)
    (more : ∀ o ∈ p.operands, o ∈ q.operands) : t.Mixes id q := by
  obtain ⟨o, first, o', second, distinct⟩ := mixes
  exact ⟨o, more o first, o', more o' second, by rwa [same]⟩

/-- Phis that have got more operands and watchers, or are complete now. -/
theorem Reduced.extend {later : List ValueId} (reduced : b.Reduced work)
    (size : t.values.size = b.values.size) (substitution : t.substitution = b.substitution)
    (kept : ∀ i ∈ work, i ∈ later) {R : ValueId → ValueId → Prop}
    (bounded : ∀ i o, R i o → o < b.values.size)
    (phis : ∀ i, ∃ change : Phi → Phi, t.phiAt i = (b.phiAt i).map change ∧ ∀ p, b.phiAt i = some p →
      ((change p).complete = true → p.complete = true ∨ i ∈ later) ∧
      (change p).replacement = p.replacement ∧
      (∀ o, o ∈ (change p).operands ↔ o ∈ p.operands ∨ R i o) ∧
      (∀ w ∈ p.watchers, w ∈ (change p).watchers) ∧
      ∀ w o, R w o → b.representative o = i → i ≠ w → w ∈ (change p).watchers) :
    t.Reduced later := by
  have rep : t.representative = b.representative := by
    funext i
    rw [representative, substitution, representative]
  have back {i : ValueId} {p' : Phi} (found : t.phiAt i = some p') : ∃ p, b.phiAt i = some p ∧
      (p'.complete = true → p.complete = true ∨ i ∈ later) ∧ p'.replacement = p.replacement ∧
      (∀ o, o ∈ p'.operands ↔ o ∈ p.operands ∨ R i o) ∧ (∀ w ∈ p.watchers, w ∈ p'.watchers) ∧
      ∀ w o, R w o → b.representative o = i → i ≠ w → w ∈ p'.watchers := by
    obtain ⟨change, same, rest⟩ := phis i
    rw [same] at found
    obtain ⟨p, before, rfl⟩ := Option.map_eq_some_iff.mp found
    exact ⟨p, before, rest p before⟩
  refine ⟨reduced.toAliased.extend size substitution fun i => ?_, ?_, ?_⟩
  · obtain ⟨change, same, rest⟩ := phis i
    exact ⟨change, same, fun p before => ⟨(rest p before).2.1, fun o member =>
      (((rest p before).2.2.1 o).mp member).imp_right (bounded i o)⟩⟩
  · intro i o p' q' found live member used
    obtain ⟨p, before, _, replacement, operands, _⟩ := back found
    rw [rep] at used ⊢
    obtain ⟨q, old, _, _, _, keeps, adds⟩ := back used
    rcases (operands o).mp member with listed | new
    · exact (reduced.watched before (replacement ▸ live) listed old).imp_right (keeps i)
    · by_cases itself : b.representative o = i
      · exact .inl itself
      · exact .inr (adds i o new rfl itself)
  · intro i p' found full live
    obtain ⟨p, before, complete, replacement, operands, _⟩ := back found
    rcases complete full with whole | waits
    · exact (reduced.mixes before whole (replacement ▸ live)).imp
        (fun mixes => mixes.mono rep fun o member => (operands o).mpr (.inl member)) (kept i)
    · exact .inr waits

theorem Reduced.withValue (reduced : b.Reduced work) {v : Value}
    (idle : ∀ p, v.phi? = some p → p.operands = #[] ∧ p.complete = false ∧ p.replacement = none) :
    (b.withValue v).Reduced work := by
  have rep := representative_withValue reduced.coherent v
  have stays : b.representative b.values.size = b.values.size :=
    reduced.coherent.apply_of_le (Nat.le_refl _)
  have split_ {i : ValueId} {p : Phi} (found : (b.withValue v).phiAt i = some p) :
      b.phiAt i = some p ∨ i = b.values.size ∧ p.operands = #[] ∧ p.complete = false ∧
        p.replacement = none := by
    rw [phiAt_withValue] at found
    split at found
    · exact .inr ⟨‹_›, idle p found⟩
    · exact .inl found
  have old {i : ValueId} (inside : i < b.values.size) : (b.withValue v).phiAt i = b.phiAt i := by
    rw [phiAt_withValue, if_neg (Nat.ne_of_lt inside)]
  refine ⟨reduced.toAliased.withValue fun p isPhi => ⟨(idle p isPhi).1, (idle p isPhi).2.2⟩, ?_, ?_⟩
  · intro i o p q found live member used
    rw [rep] at used ⊢
    rcases split_ found with before | ⟨_, empty, _⟩
    · have inside := reduced.coherent.apply_lt (reduced.operand_lt before o member)
      exact reduced.watched before live member ((old inside).symm.trans used)
    · simp [empty] at member
  · intro i p found full live
    rcases split_ found with before | ⟨_, _, unfinished, _⟩
    · exact (reduced.mixes before full live).imp_left fun mixes => mixes.mono rep fun _ => id
    · rw [unfinished] at full
      cases full

theorem addValue_reduced {type : ValueType} {home : Option BlockId} {content : Content}
    (reduced : b.Reduced work)
    (idle : ∀ p, content = .phi p → p.operands = #[] ∧ p.complete = false ∧ p.replacement = none) :
    Ends (addValue type home content) b (fun _ t => t.Reduced work)
      fun e _ => e = .broken .arenaExhausted := by
  refine (addValue_ends b).mono ?_ fun e _ full => full.1
  rintro _ _ ⟨rfl, rfl⟩
  refine reduced.withValue fun p isPhi => idle p ?_
  cases content with
  | phi q =>
      cases isPhi
      rfl
  | _ => cases isPhi

theorem Reduced.fed (reduced : b.Reduced work) (phi : ValueId) {operand : ValueId}
    (inside : b.representative operand < b.values.size) : (b.fed phi operand).Reduced work := by
  refine reduced.extend (size_fed _ _) (substitution_fed _ _) (fun _ => id)
    (R := fun i o => i = phi ∧ o = b.representative operand) ?_ fun i => ?_
  · rintro _ _ ⟨_, rfl⟩
    exact inside
  · obtain ⟨change, same, rest⟩ := b.phiAt_fed phi operand i
    refine ⟨change, same, fun p present => ?_⟩
    obtain ⟨complete, replacement, operands, keeps, adds⟩ := rest p present
    refine ⟨fun full => .inl (complete ▸ full), replacement, operands, keeps, ?_⟩
    rintro _ _ ⟨rfl, rfl⟩ leads other
    exact adds (reduced.representative_idem operand ▸ leads) other

theorem Reduced.finish (reduced : b.Reduced work) (phi : ValueId) :
    (b.onPhi phi Phi.finish).Reduced (phi :: work) := by
  refine reduced.extend (size_onPhi _ _) rfl (fun _ => List.mem_cons_of_mem phi)
    (R := fun _ _ => False) (by simp) fun i => ?_
  by_cases here : i = phi
  · refine ⟨Phi.finish, by rw [phiAt_onPhi, if_pos here], fun p _ => ?_⟩
    exact ⟨fun _ => .inr (here ▸ List.mem_cons_self), rfl, by simp [Phi.finish], fun _ => id, by simp⟩
  · refine ⟨fun p => p, by rw [phiAt_onPhi, if_neg here, Option.map_id'], fun p _ => ?_⟩
    exact ⟨.inl, rfl, by simp, fun _ => id, by simp⟩

theorem mem_revisit_of {users : Array ValueId} {rest : List ValueId}
    (member : id ∈ rest ∨ id ∈ users ∧ b.isCompletePhi id = true) : id ∈ b.revisit users rest := by
  rw [revisit, ← Array.foldl_toList]
  rw [← Array.mem_toList_iff] at member
  generalize users.toList = users at member
  induction users generalizing rest with
  | nil => simpa using member
  | cons user users ih =>
      rw [List.foldl_cons]
      refine ih ?_
      rcases member with below | ⟨listed, complete⟩
      · left
        split
        · exact List.mem_cons_of_mem _ below
        · exact below
      · rcases List.mem_cons.mp listed with rfl | later
        · left
          rw [if_pos complete]
          exact List.mem_cons_self
        · exact .inr ⟨later, complete⟩

/-- The phis that used the replaced one are looked at again; for no other one is there anything new. -/
theorem Reduced.replacedBy {rest later : List ValueId} (reduced : b.Reduced (phi :: rest))
    (cedes : b.Cedes phi same p)
    (waits : ∀ i, i ∈ rest ∨ i ∈ b.heirs phi same p ∧
      (b.replacedBy phi same p).isCompletePhi i = true → i ∈ later) :
    (b.replacedBy phi same p).Reduced later := by
  have rep := cedes.representative reduced.toAliased
  have back {i : ValueId} {p' : Phi} (found : (b.replacedBy phi same p).phiAt i = some p')
      (live : p'.replacement = none) : i ≠ phi ∧ ∃ q, b.phiAt i = some q ∧ p'.operands = q.operands ∧
        p'.complete = q.complete ∧ q.replacement = none := by
    have other : i ≠ phi := by
      rintro rfl
      rw [cedes.phiAt, if_pos rfl] at found
      cases found
      cases live
    obtain ⟨change, same_, keeps⟩ := cedes.others other
    rw [same_] at found
    obtain ⟨q, before, rfl⟩ := Option.map_eq_some_iff.mp found
    obtain ⟨operands, complete, replacement, _⟩ := keeps q
    exact ⟨other, q, before, operands, complete, replacement ▸ live⟩
  -- a live phi that uses the replaced one is handed on
  have handed {i o : ValueId} {q : Phi} (before : b.phiAt i = some q) (live : q.replacement = none)
      (member : o ∈ q.operands) (uses : b.representative o = phi) (other : i ≠ phi) :
      i ∈ b.heirs phi same p := by
    rcases reduced.watched before live member (uses ▸ cedes.present) with itself | watches
    · exact absurd (itself.symm.trans uses) other
    · exact mem_heirs watches other (isLivePhi_of_phiAt before live)
  refine ⟨cedes.keeps_aliased reduced.toAliased, ?_, ?_⟩
  · intro i o p' q' found live member used
    obtain ⟨other, q, before, operands, _, liveBefore⟩ := back found live
    rw [operands] at member
    rw [rep] at used ⊢
    split at used
    · rename_i toward
      rw [if_pos toward]
      obtain ⟨change, same_, keeps⟩ := cedes.others cedes.distinct
      rw [same_] at used
      obtain ⟨q₀, _, rfl⟩ := Option.map_eq_some_iff.mp used
      exact .inr ((keeps q₀).2.2.2.2 rfl i (handed before liveBefore member toward other))
    · rename_i away
      rw [if_neg away]
      obtain ⟨change, same_, keeps⟩ := cedes.others away
      rw [same_] at used
      obtain ⟨q₀, old, rfl⟩ := Option.map_eq_some_iff.mp used
      exact (reduced.watched before liveBefore member old).imp_right ((keeps q₀).2.2.2.1 i)
  · intro i p' found full live
    obtain ⟨other, q, before, operands, complete, liveBefore⟩ := back found live
    rw [complete] at full
    have again {o : ValueId} (member : o ∈ q.operands) (toward : b.representative o = phi) :
        i ∈ later :=
      waits i (.inr ⟨handed before liveBefore member toward other,
        isCompletePhi_of_phiAt found (complete.trans full)⟩)
    rcases reduced.mixes before full liveBefore with ⟨o, first, o', second, apart⟩ | listed
    · by_cases one : b.representative o = phi
      · exact .inr (again first one)
      · by_cases two : b.representative o' = phi
        · exact .inr (again second two)
        · refine .inl ⟨o, operands ▸ first, o', operands ▸ second, ?_⟩
          rw [rep, rep, if_neg one, if_neg two]
          exact apart
    · rcases List.mem_cons.mp listed with here | below
      · exact absurd here other
      · exact .inr (waits i (.inl below))

theorem Reduced.skip {later : List ValueId} (reduced : b.Reduced work)
    (kept : ∀ i ∈ work, i ∈ later ∨ ∀ p, b.phiAt i = some p → p.replacement = none → b.Mixes i p) :
    b.Reduced later where
  toAliased := reduced.toAliased
  watched := reduced.watched
  mixes {i p} present full live := by
    rcases reduced.mixes present full live with mixes | waits
    · exact .inl mixes
    · exact (kept i waits).elim .inr fun mixes => .inl (mixes p present live)

theorem merge_none {id : ValueId} (operands : List ValueId) (start : Option ValueId)
    (failed : operands.foldlM (b.merge id) start = none) :
    ∃ o ∈ operands, b.representative o ≠ id ∧ start ≠ some (b.representative o) ∧
      (start = none → ∃ o' ∈ operands, b.representative o' ≠ id ∧
        b.representative o ≠ b.representative o') := by
  induction operands generalizing start with
  | nil => cases failed
  | cons first rest ih =>
      rw [List.foldlM_cons] at failed
      unfold merge at failed
      dsimp only at failed
      split at failed
      · obtain ⟨o, member, other, new, apart⟩ := ih start failed
        refine ⟨o, List.mem_cons_of_mem _ member, other, new, fun empty => ?_⟩
        obtain ⟨o', member', distinct⟩ := apart empty
        exact ⟨o', List.mem_cons_of_mem _ member', distinct⟩
      · rename_i foreign
        rw [not_or] at foreign
        split at failed
        · rename_i none_
          obtain ⟨o, member, other, new, _⟩ := ih _ failed
          rw [Option.isNone_iff_eq_none.mp none_]
          refine ⟨o, List.mem_cons_of_mem _ member, other, by simp, fun _ => ?_⟩
          exact ⟨first, List.mem_cons_self, foreign.1, fun same => new (by rw [same])⟩
        · rename_i known
          exact ⟨first, List.mem_cons_self, foreign.1, foreign.2, fun empty => absurd (empty ▸ rfl) known⟩

theorem nextTrivial_skips {worklist : List ValueId} (member : id ∈ worklist) :
    (∀ p, b.phiAt id = some p → p.replacement = none → b.Mixes id p) ∨
      ∃ trivial, b.nextTrivial worklist = some trivial ∧
        (id = trivial.phi ∨ id ∈ trivial.rest) := by
  induction worklist with
  | nil => cases member
  | cons first rest ih =>
      -- the first one is passed over
      have passed (next : b.nextTrivial (first :: rest) = b.nextTrivial rest)
          (mixes : ∀ p, b.phiAt first = some p → p.replacement = none → b.Mixes first p) :
          (∀ p, b.phiAt id = some p → p.replacement = none → b.Mixes id p) ∨
            ∃ trivial, b.nextTrivial (first :: rest) = some trivial ∧
              (id = trivial.phi ∨ id ∈ trivial.rest) := by
        rw [next]
        rcases List.mem_cons.mp member with rfl | later
        · exact .inl mixes
        · exact ih later
      cases present : b.values[first]? with
      | none => exact passed (by simp [nextTrivial, present]) (by simp [phiAt, present])
      | some v =>
          obtain ⟨type, home, content⟩ := v
          cases content with
          | phi p =>
              have here : b.phiAt first = some p := by
                rw [phiAt, present]
                rfl
              by_cases gone : p.replacement.isSome = true
              · refine passed (by simp [nextTrivial, present, gone]) fun q same live => ?_
                cases here.symm.trans same
                rw [live] at gone
                cases gone
              · cases merged : p.operands.foldlM (b.merge first) none with
                | none =>
                    refine passed (by simp [nextTrivial, present, gone, merged]) fun q same _ => ?_
                    cases here.symm.trans same
                    rw [← Array.foldlM_toList] at merged
                    obtain ⟨o, listed, other, _, apart⟩ := merge_none _ _ merged
                    obtain ⟨o', listed', other', distinct⟩ := apart rfl
                    exact ⟨o, Array.mem_toList_iff.mp listed, o', Array.mem_toList_iff.mp listed',
                      distinct, other, other'⟩
                | some same =>
                    refine .inr ⟨⟨first, type, same, rest⟩, ?_, List.mem_cons.mp member⟩
                    simp [nextTrivial, present, gone, merged]
          | _ => exact passed (by simp [nextTrivial, present]) (by simp [phiAt, present, Value.phi?])

theorem Reduced.picks {trivial : Trivial} (reduced : b.Reduced work) (picks : b.Picks trivial same t) :
    t.Reduced work := by
  cases picks with
  | merged => exact reduced
  | nothing => exact reduced.withValue (by simp [Value.phi?])

theorem replaceTrivial_reduced (fuel : Nat) (worklist : List ValueId)
    (reduced : b.Reduced (worklist ++ behind)) :
    Ends (replaceTrivial fuel worklist) b (fun _ t => t.Reduced behind) fun _ _ => True := by
  refine replaceTrivial_rule (I := fun _ work t => t.Reduced (work ++ behind)) (·.toAliased)
    (fun _ => trivial) (fun _ _ => trivial) ?_ ?_ fuel worklist reduced
  · intro _ work t now found
    refine now.skip fun id listed => ?_
    rcases List.mem_append.mp listed with member | waits
    · rcases nextTrivial_skips member with mixes | ⟨_, some_, _⟩
      · exact .inr mixes
      · cases found.symm.trans some_
    · exact .inl waits
  · intro _ work t trivial same c p now found picks cedes
    have next : t.Reduced (trivial.phi :: (trivial.rest ++ behind)) := by
      refine now.skip fun id listed => ?_
      rcases List.mem_append.mp listed with member | waits
      · rcases nextTrivial_skips member with mixes | ⟨_, some_, place⟩
        · exact .inr mixes
        · cases found.symm.trans some_
          exact .inl (List.mem_cons.mpr (place.imp_right (List.mem_append_left _)))
      · exact .inl (List.mem_cons_of_mem _ (List.mem_append_right _ waits))
    refine (next.picks picks).replacedBy cedes fun id listed => ?_
    rcases listed with below | handed
    · exact (List.mem_append.mp below).elim
        (fun rest => List.mem_append_left _ (mem_revisit_of (.inl rest))) (List.mem_append_right _)
    · exact List.mem_append_left _ (mem_revisit_of (.inr handed))

theorem removeTrivial_reduced (reduced : b.Reduced (phi :: behind)) :
    Ends (removeTrivial phi) b (fun _ t => t.Reduced behind)
      fun e _ => e = .broken .arenaExhausted := by
  have ends : Ends (removeTrivial phi) b (fun _ t => t.Reduced behind) fun _ _ => True := by
    rw [removeTrivial, ends_bind, ends_get, ends_bind]
    exact replaceTrivial_reduced _ [phi] reduced
  exact (ends.and (removeTrivial_shifts reduced.toAliased phi)).mono (fun _ _ both => both.1)
    fun _ _ both => both.2.1

theorem finish_phis (phis : List ValueId) (reduced : b.Reduced work) :
    Ends (phis.forM fun phi => modifyPhi phi fun p => { p with complete := true }) b
      (fun _ t => t.Reduced (phis ++ work)) fun _ _ => False := by
  induction phis generalizing b work with
  | nil => exact reduced
  | cons phi phis ih =>
      refine (ih (reduced.finish phi)).imp fun _ t later => later.skip fun i listed => .inl ?_
      simp only [List.mem_append, List.mem_cons] at listed ⊢
      grind

theorem remove_phis (phis : List ValueId) (reduced : b.Reduced (phis ++ behind)) :
    Ends (phis.forM fun phi => do let _ ← removeTrivial phi) b (fun _ t => t.Reduced behind)
      fun e _ => e = .broken .arenaExhausted := by
  induction phis generalizing b with
  | nil => exact reduced
  | cons phi phis ih =>
      change Ends ((removeTrivial phi >>= fun _ => pure ()) >>= fun _ => phis.forM _) b _ _
      rw [ends_bind, ends_bind]
      exact (removeTrivial_reduced reduced).imp fun _ t later => ih later

/-- Every operation leaves all complete phis mixing values, unless ids run out. -/
theorem stable_reduced :
    Stable (Spared (· = .broken .arenaExhausted) (Reduced [])) (fun _ => True) (Reduced []) where
  mishaps := mishaps_spared
  stuck := .inr
  locals _ _ _ := trivial
  onBlocks _ reduced := ⟨⟨reduced.coherent, reduced.operand_lt, reduced.replaced⟩, reduced.watched,
    reduced.mixes⟩
  addPhi _ _ _ := by
    refine along_of_ends fun b reduced => ?_
    refine (addValue_reduced reduced fun p same => ?_).mono (fun _ _ => id) fun _ _ => .inl
    cases same
    exact ⟨rfl, rfl, rfl⟩
  addValue _ _ noPhi := by
    refine along_of_ends fun b reduced => ?_
    refine (addValue_reduced reduced fun p same => ?_).mono (fun _ _ => id) fun _ _ => .inl
    exact absurd same (noPhi p)
  feed phi operand := by
    refine along_of_ends fun b reduced => ?_
    by_cases inside : b.representative operand < b.values.size
    · refine (feed_ends phi inside).mono ?_ fun _ _ => False.elim
      rintro _ _ rfl
      exact reduced.fed phi inside
    · simp only [feed, ends_bind, ends_get, ends_maintain]
      exact ⟨fun bound => absurd bound inside, fun _ => .inr reduced⟩
  finish phi := by
    refine along_of_ends fun b reduced => ?_
    rw [ends_bind, ends_modifyPhi]
    exact (removeTrivial_reduced (reduced.finish phi)).mono (fun _ _ => id) fun _ _ => .inl
  finishAll phis := by
    refine along_of_ends fun b reduced => ?_
    rw [ends_bind]
    refine (finish_phis phis reduced).mono (fun _ t waiting => ?_) fun _ _ => False.elim
    exact (remove_phis phis waiting).mono (fun _ _ => id) fun _ _ => .inl

end WasmFunclets.Ssa.Builder
