import Mathlib.Data.List.Forall2
import WasmFunclets.Proofs.TypedStack

/-! Operand stacks that stand for a list of types: operands of unknown type stand for any type, and a
polymorphic stack for any types below its operands. -/

namespace WasmFunclets.TypedStack

open Attempt

variable {s t : TypedStack} {types expected outer : List ValueType} {operands : List Operand}

def Fit (operands : List Operand) (types : List ValueType) : Prop :=
  List.Forall₂ (fun operand type => operand.type.admits type = true) operands types

theorem fit_of_types (same : operands.map Operand.type = types) : Fit operands types := by
  subst same
  exact List.forall₂_map_right_iff.mpr
    (List.forall₂_same.mpr fun operand _ => ValueType.admits_iff.mpr (.inl rfl))

def own (s : TypedStack) : List Operand := s.operands.toList.drop s.floor

/-- The operands in reach stand for the topmost types, and for all of them unless more can be made
up. -/
structure Holds (s : TypedStack) (types : List ValueType) : Prop where
  above : s.floor ≤ s.height
  split : ∃ conjured rest, types = conjured ++ rest ∧ Fit s.own rest ∧
    (conjured = [] ∨ s.polymorphic = true)

theorem length_own (s : TypedStack) : s.own.length = s.available := by
  rw [own, List.length_drop, ← height_eq, available]

theorem top_own (s : TypedStack) (n : Nat) (above : s.floor ≤ s.height) :
    s.top n = s.own.drop (s.own.length - n) := by
  rw [top_eq, own, List.drop_drop, ← own, length_own]
  congr 1
  unfold reach available
  omega

theorem own_without (s : TypedStack) (types : List ValueType) :
    (s.without types).own = s.own.take (s.own.length - types.length) := by
  rw [own, toList_without, floor_without, height_without, List.drop_take, ← own, length_own]
  congr 1
  unfold reach available
  omega

theorem own_extend (operands : List Operand) (above : s.floor ≤ s.height) :
    (s.extend operands).own = s.own ++ operands := by
  rw [own, toList_extend, floor_extend, List.drop_append_of_le_length above, ← own]

theorem own_cleared (polymorphic : Bool) (above : s.floor ≤ s.height) :
    (s.cleared polymorphic).own = [] := by
  rw [← List.length_eq_zero_iff, length_own]
  change (s.resize s.floor).height - s.floor = 0
  rw [height_resize above, Nat.sub_self]

theorem own_entered (s : TypedStack) (params : List ValueType) :
    (s.entered params).own = s.taken params := by
  change ((s.without params).extend (s.taken params)).operands.toList.drop
    (s.without params).height = _
  rw [toList_extend, height_eq, List.drop_left]

theorem fits_of_fit {more : Bool} {below : List ValueType} (fit : Fit operands types)
    (enough : below = [] ∨ more = true) :
    fits more (operands.map Operand.type).reverse (below ++ types).reverse = true := by
  rw [List.reverse_append, ← List.map_reverse]
  have back := List.forall₂_reverse_iff.mpr fit
  generalize operands.reverse = tops, types.reverse = kinds at back ⊢
  induction back with
  | nil =>
      rcases enough with rfl | rfl
      · rfl
      · cases below.reverse <;> rfl
  | cons first _ ih =>
      rw [List.map_cons, List.cons_append, fits, first, ih]
      rfl

theorem Holds.accepts (holds : s.Holds (outer ++ types)) :
    s.accepts types = true ∧ (s.without types).Holds outer := by
  obtain ⟨above, conjured, rest, same, fit, enough⟩ := holds
  have rests := rests_without (s := s) types above
  have top : s.accepts types = fits s.polymorphic
      ((s.own.drop (s.own.length - types.length)).map Operand.type).reverse types.reverse := by
    rw [TypedStack.accepts, top_own s _ above]
  rcases List.append_eq_append_iff.mp same with ⟨more, rfl, rfl⟩ | ⟨more, rfl, rfl⟩
  · -- The types reach below the operands.
    have none_ : s.own.length - (more ++ rest).length = 0 := by
      rw [List.length_append, fit.length_eq]
      omega
    refine ⟨?_, rests.above, outer, [], (List.append_nil _).symm, ?_, ?_⟩
    · rw [top, none_, List.drop_zero]
      refine fits_of_fit fit ?_
      rcases enough with empty | polymorphic
      · exact .inl (List.append_eq_nil_iff.mp empty).2
      · exact .inr polymorphic
    · rw [own_without, none_, List.take_zero]
      exact .nil
    · rcases enough with empty | polymorphic
      · exact .inl (List.append_eq_nil_iff.mp empty).1
      · exact .inr polymorphic
  · have cut : s.own.length - types.length = more.length := by
      rw [fit.length_eq, List.length_append]
      omega
    refine ⟨?_, rests.above, conjured, more, rfl, ?_, enough⟩
    · rw [top, cut]
      have fit := List.forall₂_drop more.length fit
      rw [List.drop_left] at fit
      exact @fits_of_fit _ _ _ [] fit (.inl rfl)
    · rw [own_without, cut]
      have fit := List.forall₂_take more.length fit
      rwa [List.take_left] at fit

theorem Holds.holdsExactly (holds : s.Holds types) : s.holdsExactly types = true := by
  have accepted : s.accepts types = true := (@Holds.accepts _ _ [] holds).1
  obtain ⟨_, conjured, known, rfl, fit, _⟩ := holds
  have size : s.available ≤ (conjured ++ known).length := by
    rw [← length_own, fit.length_eq, List.length_append]
    omega
  rw [TypedStack.holdsExactly, decide_eq_true size, Bool.true_and]
  exact accepted

theorem Holds.extend (holds : s.Holds outer) (fit : Fit operands types) :
    (s.extend operands).Holds (outer ++ types) := by
  obtain ⟨above, conjured, rest, rfl, below, enough⟩ := holds
  have rests := rests_extend (s := s) operands above
  refine ⟨rests.above, conjured, rest ++ types, List.append_assoc _ _ _, ?_, enough⟩
  rw [own_extend operands above]
  exact List.rel_append below fit

theorem holds_polymorphic (above : s.floor ≤ s.height) (types : List ValueType) :
    (s.cleared true).Holds types := by
  refine ⟨(rests_cleared true above).above, types, [], (List.append_nil _).symm, ?_, .inr rfl⟩
  rw [own_cleared true above]
  exact .nil

theorem holds_reset (above : s.floor ≤ s.height) (same : operands.map Operand.type = types) :
    ((s.cleared false).extend operands).Holds types := by
  have empty : (s.cleared false).Holds [] := by
    refine ⟨(rests_cleared false above).above, [], [], rfl, ?_, .inl rfl⟩
    rw [own_cleared false above]
    exact .nil
  exact Holds.extend empty (fit_of_types same)

theorem holds_entered (params : List ValueType) : (s.entered params).Holds params := by
  refine ⟨?_, [], params, rfl, ?_, .inl rfl⟩
  · change (s.without params).height ≤ ((s.without params).extend (s.taken params)).height
    rw [height_extend]
    exact Nat.le_add_right _ _
  · rw [own_entered]
    exact fit_of_types (types_taken s params)

theorem without_of_empty {type : ValueType} (empty : s.height = s.floor) : s.without [type] = s := by
  have none_ : s.reach [type].length = 0 := by
    unfold reach available
    omega
  refine ext_operands ?_ rfl rfl
  rw [toList_without, height_without, none_, Nat.sub_zero, height_eq, List.take_length]

theorem without_of_some {type : ValueType} (above : s.floor ≤ s.height) (some_ : s.height ≠ s.floor) :
    s.without [type] = { s with operands := s.operands.pop } := by
  have one : s.reach [type].length = 1 := by
    simp only [reach, available, List.length_singleton]
    omega
  refine ext_operands ?_ rfl rfl
  rw [toList_without, height_without, one, Array.toList_pop, List.dropLast_eq_take, height_eq]

theorem exists_back (above : s.floor ≤ s.height) (some_ : s.height ≠ s.floor) :
    ∃ operand, s.operands.back? = some operand := by
  have size : 0 < s.operands.size := by
    change 0 < s.height
    omega
  exact ⟨_, Array.getElem?_eq_getElem (Nat.sub_lt size Nat.one_pos)⟩

theorem admits_of_accepts {type : ValueType} {operand : Operand} (above : s.floor ≤ s.height)
    (some_ : s.height ≠ s.floor) (top : s.operands.back? = some operand)
    (accepted : s.accepts [type] = true) : operand.type.admits type = true := by
  have one : s.height - s.reach 1 = s.operands.pop.toList.length := by
    simp only [reach, available, Array.length_toList, Array.size_pop]
    change s.height - min 1 (s.height - s.floor) = s.height - 1
    omega
  rw [TypedStack.accepts, List.length_singleton, top_eq, one, eq_pop_append top,
    List.drop_left] at accepted
  simpa [fits] using accepted

theorem Holds.pop {type : ValueType} (holds : s.Holds (outer ++ [type])) :
    ∃ operand, TypedStack.pop s = .ok operand (s.without [type]) ∧
      operand.type.admits type = true := by
  have above := holds.above
  by_cases empty : s.height = s.floor
  · have polymorphic : s.polymorphic = true := by
      obtain ⟨_, conjured, rest, same, fit, rfl | polymorphic⟩ := holds
      · have length := fit.length_eq
        rw [length_own, available, empty, Nat.sub_self] at length
        have sizes := congrArg List.length same
        rw [List.length_append, List.length_append, ← length] at sizes
        simp at sizes
      · exact polymorphic
    refine ⟨⟨.any, none⟩, ?_, ValueType.admits_iff.mpr (.inr rfl)⟩
    rw [without_of_empty empty]
    exact pop_ok.mpr (by rw [if_pos empty]; exact ⟨polymorphic, rfl, rfl⟩)
  · obtain ⟨operand, top⟩ := exists_back above empty
    refine ⟨operand, ?_, admits_of_accepts above empty top holds.accepts.1⟩
    rw [without_of_some above empty]
    exact pop_ok.mpr (by rw [if_neg empty]; exact ⟨top, rfl⟩)

theorem Holds.popType {type : ValueType} (holds : s.Holds (outer ++ [type])) :
    ∃ operand, TypedStack.popType type s = .ok operand (s.without [type]) ∧ operand.type = type := by
  have above := holds.above
  by_cases empty : s.height = s.floor
  · obtain ⟨operand, popped, _⟩ := holds.pop
    have polymorphic := pop_ok.mp popped
    rw [if_pos empty] at polymorphic
    refine ⟨⟨type, none⟩, ?_, rfl⟩
    rw [without_of_empty empty]
    exact popType_ok.mpr (by rw [if_pos empty]; exact ⟨polymorphic.1, rfl, rfl⟩)
  · obtain ⟨operand, top⟩ := exists_back above empty
    have admitted := admits_of_accepts above empty top holds.accepts.1
    have topType : s.topType = operand.type := by simp [TypedStack.topType, empty, top]
    refine ⟨{ operand with type }, ?_, rfl⟩
    rw [without_of_some above empty]
    refine popType_ok.mpr ?_
    rw [if_neg empty, topType]
    exact ⟨admitted, operand, top, rfl, rfl⟩

structure Over (w u : TypedStack) : Prop where
  floor : u.floor = w.height
  below : u.operands.toList.take w.height = w.operands.toList

theorem Over.rests {w u : TypedStack} (on : Over w u) (rests : Rests u t) : Over w t where
  floor := rests.floor.trans on.floor
  below := by
    have below := rests.below
    rw [on.floor] at below
    rw [below, on.below]

theorem over_entered (params : List ValueType) : Over (s.without params) (s.entered params) where
  floor := rfl
  below := by
    change ((s.without params).extend (s.taken params)).operands.toList.take _ = _
    rw [toList_extend, height_eq, List.take_left]

theorem Over.left {w : TypedStack} (on : Over w t) (above : t.floor ≤ t.height) :
    t.left ⟨w.height, w.floor, w.polymorphic⟩ = w := by
  refine ext_operands ?_ rfl rfl
  change (t.resize w.height).operands.toList = _
  rw [toList_resize (on.floor ▸ above), on.below]

end WasmFunclets.TypedStack
