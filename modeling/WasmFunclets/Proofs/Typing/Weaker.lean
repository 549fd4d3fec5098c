import WasmFunclets.Proofs.Typing.Mirrors

/-! Operand stacks that stand for at least as much as another one: whatever can be taken off the one
can be taken off the other. -/

namespace WasmFunclets.TypedStack

open Attempt

variable {α β : Type} {s t s' : TypedStack} {types kinds conjured : List ValueType}
variable {operands others : List Operand} {operand : Operand} {type : ValueType}

def ownTypes (s : TypedStack) : List ValueType := s.own.map Operand.type

theorem length_ownTypes (s : TypedStack) : s.ownTypes.length = s.own.length := List.length_map _

theorem ownTypes_without (s : TypedStack) (types : List ValueType) :
    (s.without types).ownTypes = s.ownTypes.take (s.own.length - types.length) := by
  rw [ownTypes, own_without, List.map_take, ← ownTypes]

theorem ownTypes_extend (operands : List Operand) (above : s.floor ≤ s.height) :
    (s.extend operands).ownTypes = s.ownTypes ++ operands.map Operand.type := by
  rw [ownTypes, own_extend operands above, List.map_append, ← ownTypes]

theorem admits_trans {a b c : ValueType} (first : a.admits b = true) (second : b.admits c = true) :
    a.admits c = true := by
  rw [ValueType.admits_iff] at *
  rcases first with rfl | rfl
  · exact second
  · exact .inr rfl

theorem Fit.mono (fit : Fit operands kinds)
    (known : List.Forall₂ (fun kind type => kind.admits type = true) kinds types) :
    Fit operands types := by
  induction fit generalizing types with
  | nil =>
      cases known
      exact .nil
  | cons first _ ih =>
      cases known with
      | cons second known => exact .cons (admits_trans first second) (ih known)

theorem holds_ownTypes (above : s.floor ≤ s.height) : s.Holds s.ownTypes :=
  ⟨above, [], s.ownTypes, rfl, fit_of_types rfl, .inl rfl⟩

theorem Holds.conjure (holds : s.Holds types) (more : conjured = [] ∨ s.polymorphic = true) :
    s.Holds (conjured ++ types) := by
  rcases more with rfl | polymorphic
  · exact holds
  · obtain ⟨above, conjured', rest, rfl, fit, _⟩ := holds
    exact ⟨above, conjured ++ conjured', rest, (List.append_assoc _ _ _).symm, fit, .inr polymorphic⟩

theorem Holds.mono (holds : s.Holds kinds)
    (stands : List.Forall₂ (fun kind type => kind.admits type = true) kinds types) :
    s.Holds types := by
  obtain ⟨above, conjured, rest, rfl, fit, enough⟩ := holds
  have made := List.forall₂_take conjured.length stands
  have known := List.forall₂_drop conjured.length stands
  rw [List.take_left] at made
  rw [List.drop_left] at known
  refine ⟨above, _, _, (List.take_append_drop conjured.length types).symm, ?_,
    enough.imp_left fun empty => ?_⟩
  · exact Fit.mono fit known
  · rw [empty]
    rfl

theorem fit_of_fits {more : Bool} (fit : fits more (operands.map Operand.type) kinds = true)
    (few : operands.length ≤ kinds.length) :
    Fit operands (kinds.take operands.length) ∧
      (kinds.drop operands.length = [] ∨ more = true) := by
  induction operands generalizing kinds with
  | nil =>
      refine ⟨.nil, ?_⟩
      cases kinds with
      | nil => exact .inl rfl
      | cons kind kinds => exact .inr fit
  | cons operand operands ih =>
      cases kinds with
      | nil => cases few
      | cons kind kinds =>
          simp only [List.map_cons, fits, Bool.and_eq_true] at fit
          obtain ⟨others, enough⟩ := ih fit.2 (Nat.le_of_succ_le_succ few)
          exact ⟨.cons fit.1 others, enough⟩

/-- What is accepted is stood for, with what is left below it. -/
theorem holds_of_accepts (above : s.floor ≤ s.height) (accepted : s.accepts types = true) :
    s.Holds ((s.without types).ownTypes ++ types) := by
  have few : (s.top types.length).length ≤ types.length := by
    rw [length_top]
    exact Nat.min_le_left _ _
  rw [TypedStack.accepts, ← List.map_reverse] at accepted
  obtain ⟨fit, enough⟩ := fit_of_fits accepted (by simpa using few)
  have fit := List.forall₂_reverse_iff.mpr fit
  rw [List.reverse_reverse, List.length_reverse, List.take_reverse, List.reverse_reverse] at fit
  rw [List.length_reverse, List.drop_reverse, List.reverse_eq_nil_iff] at enough
  have own : s.own = (s.without types).own ++ s.top types.length := by
    rw [own_without, top_own s _ above, List.take_append_drop]
  have known : s.Holds ((s.without types).ownTypes ++
      types.drop (types.length - (s.top types.length).length)) := by
    refine ⟨above, [], _, rfl, ?_, .inl rfl⟩
    rw [own]
    exact List.rel_append (fit_of_types rfl) fit
  have split := List.take_append_drop (types.length - (s.top types.length).length) types
  by_cases all : types.length - (s.top types.length).length = 0
  · rwa [all, List.drop_zero] at known
  · -- More is asked for than there is in reach, so that nothing is left.
    have nothing : (s.without types).ownTypes = [] := by
      rw [ownTypes_without]
      rw [top_own s _ above, List.length_drop] at all
      have none_ : s.own.length - types.length = 0 := by omega
      rw [none_, List.take_zero]
    rw [nothing, List.nil_append] at known ⊢
    have made := known.conjure enough
    rwa [split] at made

theorem holds_of_exactly (above : s.floor ≤ s.height) (exact_ : s.holdsExactly types = true) :
    s.Holds types := by
  rw [TypedStack.holdsExactly, Bool.and_eq_true, decide_eq_true_eq, ← length_own] at exact_
  have holds := holds_of_accepts above exact_.2
  have none_ : s.own.length - types.length = 0 := by omega
  rwa [ownTypes_without, none_, List.take_zero, List.nil_append] at holds

/-- The second stack stands for whatever the first one stands for. -/
structure Weaker (s t : TypedStack) : Prop where
  above : s.floor ≤ s.height
  holds : t.Holds s.ownTypes
  grows : s.polymorphic = true → t.polymorphic = true

namespace Weaker

theorem refl (above : s.floor ≤ s.height) : Weaker s s := ⟨above, holds_ownTypes above, id⟩

theorem stands (weaker : Weaker s t) (holds : s.Holds types) : t.Holds types := by
  obtain ⟨_, conjured, rest, rfl, fit, enough⟩ := holds
  have known : t.Holds rest := weaker.holds.mono (List.forall₂_map_left_iff.mpr fit)
  exact known.conjure (enough.imp_right weaker.grows)

theorem below (weaker : Weaker s t) (accepted : s.accepts types = true) :
    t.Holds ((s.without types).ownTypes ++ types) :=
  weaker.stands (holds_of_accepts weaker.above accepted)

theorem without (weaker : Weaker s t) (accepted : s.accepts types = true) :
    Weaker (s.without types) (t.without types) :=
  ⟨(rests_without types weaker.above).above, (weaker.below accepted).accepts.2, weaker.grows⟩

theorem accepts (weaker : Weaker s t) (accepted : s.accepts types = true) :
    t.accepts types = true := (weaker.below accepted).accepts.1

theorem holdsExactly (weaker : Weaker s t) (exact_ : s.holdsExactly types = true) :
    t.holdsExactly types = true :=
  (weaker.stands (holds_of_exactly weaker.above exact_)).holdsExactly

theorem extend (weaker : Weaker s t) (fit : Fit others (operands.map Operand.type)) :
    Weaker (s.extend operands) (t.extend others) := by
  refine ⟨(rests_extend operands weaker.above).above, ?_, weaker.grows⟩
  rw [ownTypes_extend operands weaker.above]
  exact weaker.holds.extend fit

theorem cleared (weaker : Weaker s t) (polymorphic : Bool) :
    Weaker (s.cleared polymorphic) (t.cleared polymorphic) := by
  refine ⟨(rests_cleared polymorphic weaker.above).above, ?_, id⟩
  rw [ownTypes, own_cleared polymorphic weaker.above]
  refine ⟨(rests_cleared polymorphic weaker.holds.above).above, [], [], rfl, ?_, .inl rfl⟩
  rw [own_cleared polymorphic weaker.holds.above]
  exact .nil

theorem unreachable (weaker : Weaker s t) : Weaker s (t.cleared true) :=
  ⟨weaker.above, holds_polymorphic weaker.holds.above _, fun _ => rfl⟩

theorem entered (s t : TypedStack) (params : List ValueType) :
    Weaker (s.entered params) (t.entered params) := by
  refine ⟨(holds_entered params).above, ?_, id⟩
  rw [ownTypes, own_entered, types_taken]
  exact holds_entered params

end Weaker

theorem accepts_of_empty (empty : s.height = s.floor) (polymorphic : s.polymorphic = true)
    (types : List ValueType) : s.accepts types = true := by
  have own : s.own = [] := by
    rw [← List.length_eq_zero_iff, length_own, available, empty, Nat.sub_self]
  have holds : s.Holds ([] ++ types) :=
    ⟨Nat.le_of_eq empty.symm, types, [], (List.append_nil _).symm, own ▸ .nil, .inr polymorphic⟩
  exact holds.accepts.1

theorem accepts_of_top (above : s.floor ≤ s.height) (some_ : s.height ≠ s.floor)
    (top : s.operands.back? = some operand) (admitted : operand.type.admits type = true) :
    s.accepts [type] = true := by
  let below : TypedStack := { s with operands := s.operands.pop }
  have split : s = below.extend [operand] := by
    refine ext_operands ?_ rfl rfl
    rw [toList_extend]
    exact eq_pop_append top
  rw [split]
  exact ((holds_ownTypes (rests_pop above some_).above).extend (.cons admitted .nil)).accepts.1

theorem accepts_of_pop (above : s.floor ≤ s.height) (ok : TypedStack.pop s = .ok operand s') :
    s.accepts [operand.type] = true ∧ s' = s.without [operand.type] := by
  rw [pop_ok] at ok
  split at ok <;> rename_i empty
  · obtain ⟨polymorphic, rfl, rfl⟩ := ok
    exact ⟨accepts_of_empty empty polymorphic _, (without_of_empty empty).symm⟩
  · obtain ⟨top, rfl⟩ := ok
    exact ⟨accepts_of_top above empty top (ValueType.admits_iff.mpr (.inl rfl)),
      (without_of_some above empty).symm⟩

theorem accepts_of_popType (above : s.floor ≤ s.height)
    (ok : TypedStack.popType type s = .ok operand s') :
    s.accepts [type] = true ∧ operand.type = type ∧ s' = s.without [type] := by
  rw [popType_ok] at ok
  split at ok <;> rename_i empty
  · obtain ⟨polymorphic, rfl, rfl⟩ := ok
    exact ⟨accepts_of_empty empty polymorphic _, rfl, (without_of_empty empty).symm⟩
  · obtain ⟨admitted, below, top, rfl, rfl⟩ := ok
    have topType : s.topType = below.type := by simp [TypedStack.topType, empty, top]
    exact ⟨accepts_of_top above empty top (topType ▸ admitted), rfl,
      (without_of_some above empty).symm⟩

theorem popTypes_mirrors (types : List ValueType) :
    Mirrors Weaker Rests (popTypes types) (popTypes types) fun _ _ => True := by
  intro s t _ _ weaker ok
  obtain ⟨accepted, -, rfl⟩ := popTypes_ok.mp ok
  exact ⟨_, _, popTypes_ok.mpr ⟨weaker.accepts accepted, rfl, rfl⟩, trivial,
    weaker.without accepted, rests_without types weaker.above,
    rests_without types weaker.holds.above⟩

theorem pushAll_mirrors (fit : Fit others (operands.map Operand.type)) :
    Mirrors Weaker Rests (pushAll operands) (pushAll others) fun _ _ => True := by
  intro s t _ _ weaker ok
  obtain rfl := pushAll_ok.mp ok
  exact ⟨(), _, pushAll_ok.mpr rfl, trivial, weaker.extend fit, rests_extend _ weaker.above,
    rests_extend _ weaker.holds.above⟩

theorem reset_mirrors (fit : Fit others (operands.map Operand.type)) :
    Mirrors Weaker Rests (reset operands) (reset others) fun _ _ => True := by
  intro s t _ _ weaker ok
  obtain rfl := reset_ok.mp ok
  have one := rests_cleared false weaker.above
  have two := rests_cleared false weaker.holds.above
  exact ⟨(), _, reset_ok.mpr rfl, trivial, (weaker.cleared false).extend fit,
    one.trans (rests_extend _ one.above), two.trans (rests_extend _ two.above)⟩

theorem becomePolymorphic_mirrors :
    Mirrors Weaker Rests becomePolymorphic becomePolymorphic fun _ _ => True := by
  intro s t _ _ weaker ok
  obtain rfl := becomePolymorphic_ok.mp ok
  exact ⟨(), _, becomePolymorphic_ok.mpr rfl, trivial, weaker.cleared true,
    rests_cleared true weaker.above, rests_cleared true weaker.holds.above⟩

theorem pop_mirrors : Mirrors Weaker Rests pop pop fun a b => b.type.admits a.type = true := by
  intro s t a s' weaker ok
  obtain ⟨accepted, rfl⟩ := accepts_of_pop weaker.above ok
  obtain ⟨b, popped, admitted⟩ := (weaker.below accepted).pop
  exact ⟨b, _, popped, admitted, weaker.without accepted, rests_without _ weaker.above,
    rests_without _ weaker.holds.above⟩

theorem popType_mirrors (type : ValueType) :
    Mirrors Weaker Rests (popType type) (popType type) fun a b => a.type = type ∧ b.type = type := by
  intro s t a s' weaker ok
  obtain ⟨accepted, same, rfl⟩ := accepts_of_popType weaker.above ok
  obtain ⟨b, popped, same'⟩ := (weaker.below accepted).popType
  exact ⟨b, _, popped, ⟨same, same'⟩, weaker.without accepted, rests_without _ weaker.above,
    rests_without _ weaker.holds.above⟩

theorem popType_pop_mirrors (type : ValueType) :
    Mirrors Weaker Rests (popType type) pop fun a b => a.type = type ∧ b.type.admits type = true := by
  intro s t a s' weaker ok
  obtain ⟨accepted, same, rfl⟩ := accepts_of_popType weaker.above ok
  obtain ⟨b, popped, admitted⟩ := (weaker.below accepted).pop
  exact ⟨b, _, popped, ⟨same, admitted⟩, weaker.without accepted, rests_without _ weaker.above,
    rests_without _ weaker.holds.above⟩

theorem popLike_mirrors {second second' : Operand}
    (admitted : second'.type.admits second.type = true) :
    Mirrors Weaker Rests (popLike second) (popLike second') fun a b => b.type.admits a.type = true := by
  unfold popLike
  rcases ValueType.admits_iff.mp admitted with same | unknown'
  · rw [same]
    split
    · exact pop_mirrors
    · refine (popType_mirrors second.type).imp fun a b both => ?_
      rw [both.1, both.2]
      exact ValueType.admits_iff.mpr (.inl rfl)
  · rw [if_pos unknown']
    split
    · exact pop_mirrors
    · refine (popType_pop_mirrors second.type).imp fun a b both => ?_
      rw [both.1]
      exact both.2

/-- Stacks of which the second one stands for at least as much. -/
def weakerTypes : Comparison where
  Stacks := Weaker
  Types a b := b.admits a = true
  Moved := Rests
  refl _ := ValueType.admits_iff.mpr (.inl rfl)
  admits := id
  unmoved weaker := ⟨.refl weaker.above, .refl weaker.holds.above⟩
  holdsExactly := Weaker.holdsExactly
  popTypes := popTypes_mirrors
  pushAll types := pushAll_mirrors (List.forall₂_map_right_iff.mpr types.flip)
  reset types := reset_mirrors (List.forall₂_map_right_iff.mpr types.flip)
  becomePolymorphic := becomePolymorphic_mirrors
  pop := pop_mirrors
  popLike := popLike_mirrors

end WasmFunclets.TypedStack
