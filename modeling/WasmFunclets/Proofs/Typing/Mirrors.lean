import WasmFunclets.Proofs.Typing.Holds

/-! Changes of two operand stacks side by side, where a comparison of the stacks is kept. -/

namespace WasmFunclets.TypedStack

open Attempt

variable {α β : Type} {s t : TypedStack} {operands others : List Operand}
variable {W M : TypedStack → TypedStack → Prop}

/-- Takes an operand that has the type of another one, as far as that is known. -/
def popLike (second : Operand) : Attempt TypedStack Operand :=
  if second.type = .any then pop else popType second.type

/-- Where the first change succeeds the second one does on a stack that compares, both move the stack in
the given way, and the results are related. -/
def Mirrors (W M : TypedStack → TypedStack → Prop) (m : Attempt TypedStack α)
    (m' : Attempt TypedStack β) (R : α → β → Prop) : Prop :=
  ∀ s t a s', W s t → m s = .ok a s' →
    ∃ b t', m' t = .ok b t' ∧ R a b ∧ W s' t' ∧ M s s' ∧ M t t'

theorem Mirrors.imp {m : Attempt TypedStack α} {m' : Attempt TypedStack β} {R R' : α → β → Prop}
    (mirrors : Mirrors W M m m' R) (so : ∀ a b, R a b → R' a b) : Mirrors W M m m' R' := by
  intro s t a s' compares ok
  obtain ⟨b, t', ok', related, rest⟩ := mirrors s t a s' compares ok
  exact ⟨b, t', ok', so a b related, rest⟩

/-- A comparison of stacks and of types of operands that the changes of stacks keep up. -/
structure Comparison where
  Stacks : TypedStack → TypedStack → Prop
  Types : ValueType → ValueType → Prop
  Moved : TypedStack → TypedStack → Prop
  refl : ∀ type, Types type type
  admits : ∀ {a b}, Types a b → b.admits a = true
  unmoved : ∀ {s t}, Stacks s t → Moved s s ∧ Moved t t
  holdsExactly : ∀ {s t types}, Stacks s t → s.holdsExactly types = true → t.holdsExactly types = true
  popTypes : ∀ types, Mirrors Stacks Moved (popTypes types) (popTypes types) fun _ _ => True
  pushAll : ∀ {operands others}, List.Forall₂ (fun a b => Types a.type b.type) operands others →
    Mirrors Stacks Moved (pushAll operands) (pushAll others) fun _ _ => True
  reset : ∀ {operands others}, List.Forall₂ (fun a b => Types a.type b.type) operands others →
    Mirrors Stacks Moved (reset operands) (reset others) fun _ _ => True
  becomePolymorphic : Mirrors Stacks Moved becomePolymorphic becomePolymorphic fun _ _ => True
  pop : Mirrors Stacks Moved pop pop fun a b => Types a.type b.type
  popLike : ∀ {a b}, Types a.type b.type →
    Mirrors Stacks Moved (popLike a) (popLike b) fun c d => Types c.type d.type

def allTypes (s : TypedStack) : List ValueType := s.operands.toList.map Operand.type

theorem length_allTypes (s : TypedStack) : s.allTypes.length = s.height := List.length_map _

theorem allTypes_resize (s : TypedStack) (height : Nat) :
    (s.resize height).allTypes = s.allTypes.take height ++ List.replicate (height - s.height) .null := by
  simp [allTypes, resize, List.map_take]

theorem allTypes_extend (s : TypedStack) (operands : List Operand) :
    (s.extend operands).allTypes = s.allTypes ++ operands.map Operand.type := by
  rw [allTypes, toList_extend, List.map_append, allTypes]

theorem map_top (s : TypedStack) (n : Nat) :
    (s.top n).map Operand.type = s.allTypes.drop (s.height - s.reach n) := by
  rw [top_eq, List.map_drop, allTypes]

/-- The second stack differs from the first one in the values of its operands only. -/
structure Same (s t : TypedStack) : Prop where
  types : t.allTypes = s.allTypes
  floor : t.floor = s.floor
  polymorphic : t.polymorphic = s.polymorphic

namespace Same

theorem refl (s : TypedStack) : Same s s := ⟨rfl, rfl, rfl⟩

theorem height (same : Same s t) : t.height = s.height := by
  rw [← length_allTypes, same.types, length_allTypes]

theorem reach (same : Same s t) (n : Nat) : t.reach n = s.reach n := by
  rw [TypedStack.reach, available, same.height, same.floor, TypedStack.reach, available]

theorem accepts (same : Same s t) (types : List ValueType) : t.accepts types = s.accepts types := by
  rw [TypedStack.accepts, map_top, same.types, same.height, same.reach, same.polymorphic,
    TypedStack.accepts, map_top]

theorem holdsExactly (same : Same s t) (types : List ValueType) :
    t.holdsExactly types = s.holdsExactly types := by
  rw [TypedStack.holdsExactly, same.accepts, available, same.height, same.floor,
    TypedStack.holdsExactly, available]

theorem resize (same : Same s t) (height : Nat) : Same (s.resize height) (t.resize height) where
  types := by rw [allTypes_resize, allTypes_resize, same.types, same.height]
  floor := same.floor
  polymorphic := same.polymorphic

theorem without (same : Same s t) (types : List ValueType) :
    Same (s.without types) (t.without types) := by
  rw [TypedStack.without, TypedStack.without, same.height, same.reach]
  exact same.resize _

theorem extend (same : Same s t) (types : others.map Operand.type = operands.map Operand.type) :
    Same (s.extend operands) (t.extend others) where
  types := by rw [allTypes_extend, allTypes_extend, same.types, types]
  floor := same.floor
  polymorphic := same.polymorphic

theorem cleared (same : Same s t) (polymorphic : Bool) :
    Same (s.cleared polymorphic) (t.cleared polymorphic) := by
  rw [TypedStack.cleared, TypedStack.cleared, same.floor]
  exact ⟨(same.resize s.floor).types, same.floor, rfl⟩

theorem entered (same : Same s t) (params : List ValueType) :
    Same (s.entered params) (t.entered params) := by
  have below := same.without params
  have inside : Same ((s.without params).extend (s.taken params))
      ((t.without params).extend (t.taken params)) :=
    below.extend (by rw [types_taken, types_taken])
  exact ⟨inside.types, below.height, rfl⟩

theorem left (same : Same s t) (saved : Mark) : Same (s.left saved) (t.left saved) :=
  ⟨(same.resize saved.height).types, rfl, rfl⟩

theorem back (same : Same s t) :
    t.operands.back?.map Operand.type = s.operands.back?.map Operand.type := by
  rw [← Array.getLast?_toList, ← Array.getLast?_toList, ← List.getLast?_map, ← List.getLast?_map]
  exact congrArg List.getLast? same.types

theorem topType (same : Same s t) : t.topType = s.topType := by
  rw [TypedStack.topType, same.height, same.floor, same.polymorphic, same.back, TypedStack.topType]

theorem level (same : Same s t) : t.height = t.floor ↔ s.height = s.floor := by
  rw [same.height, same.floor]

theorem popped (same : Same s t) :
    Same { s with operands := s.operands.pop } { t with operands := t.operands.pop } where
  types := by
    simp only [allTypes, Array.toList_pop, List.map_dropLast]
    exact congrArg List.dropLast same.types
  floor := same.floor
  polymorphic := same.polymorphic

theorem drop (same : Same s t) {height : Nat} {operands : List Operand}
    (found : s.operandsFrom height = some operands) :
    ∃ others, t.operandsFrom height = some others ∧
      others.map Operand.type = operands.map Operand.type := by
  obtain ⟨le, rfl⟩ := operandsFrom_eq_some.mp found
  refine ⟨_, operandsFrom_eq_some.mpr ⟨same.height ▸ le, rfl⟩, ?_⟩
  rw [List.map_drop, List.map_drop]
  exact congrArg (List.drop height) same.types

end Same

abbrev Anyhow (_ _ : TypedStack) : Prop := True

theorem pop_same : Mirrors Same Anyhow pop pop fun a b => a.type = b.type := by
  intro s t a s' same ok
  rw [pop_ok] at ok
  split at ok <;> rename_i empty
  · obtain ⟨polymorphic, rfl, rfl⟩ := ok
    refine ⟨_, t, pop_ok.mpr ?_, rfl, same, trivial, trivial⟩
    rw [if_pos (same.level.mpr empty)]
    exact ⟨same.polymorphic.trans polymorphic, rfl, rfl⟩
  · obtain ⟨top, rfl⟩ := ok
    have back := same.back
    rw [top, Option.map_some, Option.map_eq_some_iff] at back
    obtain ⟨b, top', type⟩ := back
    refine ⟨b, _, pop_ok.mpr ?_, type.symm, same.popped, trivial, trivial⟩
    rw [if_neg (mt same.level.mp empty)]
    exact ⟨top', rfl⟩

theorem popType_same (type : ValueType) :
    Mirrors Same Anyhow (popType type) (popType type) fun a b => a.type = b.type := by
  intro s t a s' same ok
  rw [popType_ok] at ok
  split at ok <;> rename_i empty
  · obtain ⟨polymorphic, rfl, rfl⟩ := ok
    refine ⟨_, t, popType_ok.mpr ?_, rfl, same, trivial, trivial⟩
    rw [if_pos (same.level.mpr empty)]
    exact ⟨same.polymorphic.trans polymorphic, rfl, rfl⟩
  · obtain ⟨admitted, top, back, rfl, rfl⟩ := ok
    have back' := same.back
    rw [back, Option.map_some, Option.map_eq_some_iff] at back'
    obtain ⟨b, top', -⟩ := back'
    refine ⟨{ b with type }, _, popType_ok.mpr ?_, rfl, same.popped, trivial, trivial⟩
    rw [if_neg (mt same.level.mp empty), same.topType]
    exact ⟨admitted, b, top', rfl, rfl⟩

theorem forall₂_types (types : List.Forall₂ (fun a b => a.type = b.type) operands others) :
    others.map Operand.type = operands.map Operand.type := by
  induction types with
  | nil => rfl
  | cons first _ ih => rw [List.map_cons, List.map_cons, first, ih]

/-- Stacks that differ in values only. -/
def sameTypes : Comparison where
  Stacks := Same
  Types a b := a = b
  Moved := Anyhow
  refl _ := rfl
  admits same := ValueType.admits_iff.mpr (.inl same.symm)
  unmoved _ := ⟨trivial, trivial⟩
  holdsExactly same exact_ := (same.holdsExactly _).trans exact_
  popTypes types := by
    intro s t _ _ same ok
    obtain ⟨accepted, -, rfl⟩ := popTypes_ok.mp ok
    exact ⟨_, _, popTypes_ok.mpr ⟨(same.accepts types).trans accepted, rfl, rfl⟩, trivial,
      same.without types, trivial, trivial⟩
  pushAll types := by
    intro s t _ _ same ok
    obtain rfl := pushAll_ok.mp ok
    exact ⟨(), _, pushAll_ok.mpr rfl, trivial, same.extend (forall₂_types types), trivial, trivial⟩
  reset types := by
    intro s t _ _ same ok
    obtain rfl := reset_ok.mp ok
    exact ⟨(), _, reset_ok.mpr rfl, trivial, (same.cleared false).extend (forall₂_types types), trivial,
      trivial⟩
  becomePolymorphic := by
    intro s t _ _ same ok
    obtain rfl := becomePolymorphic_ok.mp ok
    exact ⟨(), _, becomePolymorphic_ok.mpr rfl, trivial, same.cleared true, trivial, trivial⟩
  pop := pop_same
  popLike := by
    intro a b type
    rw [popLike, popLike, ← type]
    split
    · exact pop_same
    · exact popType_same a.type

end WasmFunclets.TypedStack
