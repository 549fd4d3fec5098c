import WasmFunclets.Machine
import WasmFunclets.Proofs.Step

/-! A configuration of the machine whose stack has the types that a validation knows of: what can be
taken off the one can be taken off the other. -/

namespace WasmFunclets

open Attempt

variable {V : Type}

namespace Machine

def Config.without (c : Config V) (n : Nat) : Config V :=
  { c with stack := c.stack.take (c.stack.length - n) }

/-- Another stack and history at the same point, under the same labels. -/
structure Beside (c d : Config V) : Prop where
  pc : d.pc = c.pc
  labels : d.labels = c.labels
  locals : d.locals.map Typed.type = c.locals.map Typed.type

theorem Beside.refl (c : Config V) : Beside c c := ⟨rfl, rfl, rfl⟩

theorem Beside.trans {c d e : Config V} (first : Beside c d) (second : Beside d e) : Beside c e :=
  ⟨second.pc.trans first.pc, second.labels.trans first.labels, second.locals.trans first.locals⟩

/-- The stack of a configuration has known types, and exactly those of the operands. -/
structure Agrees (c : Config V) (s : TypedStack) : Prop where
  types : c.stack.map Typed.type = s.operands.toList.map Operand.type
  known : ∀ x ∈ c.stack, x.type ≠ .any
  finite : s.polymorphic = false
  floor : c.floor = s.floor
  above : s.floor ≤ s.height

namespace Agrees

variable {c : Config V} {s : TypedStack} {types : List ValueType}

theorem length (agrees : Agrees c s) : c.stack.length = s.height := by
  rw [TypedStack.height_eq, ← List.length_map Typed.type, agrees.types, List.length_map]

theorem solid (agrees : Agrees c s) : s.Solid where
  finite := agrees.finite
  known o member := by
    have typed : o.type ∈ c.stack.map Typed.type := by
      rw [agrees.types]
      exact List.mem_map_of_mem member
    obtain ⟨x, present, same⟩ := List.mem_map.mp typed
    exact same ▸ agrees.known x present

theorem enough (agrees : Agrees c s) (accepted : s.accepts types = true) :
    c.floor + types.length ≤ c.stack.length := by
  have := (agrees.solid.accepts accepted).1
  rw [TypedStack.available] at this
  rw [agrees.floor, agrees.length]
  have := agrees.above
  omega

theorem types_drop (agrees : Agrees c s) (h : Nat) :
    (c.stack.drop h).map Typed.type = (s.operands.toList.drop h).map Operand.type := by
  rw [List.map_drop, agrees.types, List.map_drop]

theorem take (agrees : Agrees c s) (accepted : s.accepts types = true) :
    ∃ args, c.take types = .ok (args, c.without types.length) ∧ args.map Typed.type = types ∧
      c.stack = (c.without types.length).stack ++ args ∧
      Agrees (c.without types.length) (s.without types) := by
  have enough := agrees.enough accepted
  obtain ⟨reach, top⟩ := agrees.solid.accepts accepted
  have drop : (c.stack.drop (c.stack.length - types.length)).map Typed.type = types := by
    rw [agrees.types_drop, agrees.length]
    exact top
  refine ⟨c.stack.drop (c.stack.length - types.length), ?_, drop,
    (List.take_append_drop _ _).symm, ?_, ?_, agrees.finite, agrees.floor, ?_⟩
  · have short : ¬ c.stack.length < c.floor + types.length := Nat.not_lt.mpr enough
    simp only [Config.take, short, if_false, drop, if_true, Config.without]
  · have all : s.reach types.length = types.length := Nat.min_eq_left reach
    rw [TypedStack.toList_without, TypedStack.height_without, all, ← agrees.length]
    simp only [Config.without, List.map_take, agrees.types]
  · exact fun x member => agrees.known x (List.mem_of_mem_take member)
  · exact (TypedStack.rests_without types agrees.above).above

theorem push (agrees : Agrees c s) {type : ValueType} (known : type ≠ .any) (datum : V)
    (value : Option ValueId) : Agrees (c.push type datum) (s.extend [⟨type, value⟩]) where
  types := by simp [Config.push, agrees.types]
  known x member := by
    rcases List.mem_append.mp member with old | new
    · exact agrees.known x old
    · rw [List.mem_singleton.mp new]
      exact known
  finite := agrees.finite
  floor := agrees.floor
  above := (TypedStack.rests_extend _ agrees.above).above

theorem share (agrees : Agrees c s) (accepted : s.accepts types = true) {operands : List Operand}
    (same : operands.map Operand.type = types) :
    Agrees c ((s.without types).extend operands) where
  types := by
    obtain ⟨args, _, typed, split, rest⟩ := agrees.take accepted
    rw [split, TypedStack.toList_extend, List.map_append, List.map_append, rest.types, typed, same]
  known := agrees.known
  finite := agrees.finite
  floor := agrees.floor
  above := (TypedStack.rests_extend _ (TypedStack.rests_without types agrees.above).above).above

theorem exactly (agrees : Agrees c s) (holds : s.holdsExactly types = true) :
    (c.stack.drop c.floor).map Typed.type = types := by
  rw [agrees.types_drop, agrees.floor]
  exact agrees.solid.holdsExactly holds agrees.above

theorem of_stack {d : Config V} (agrees : Agrees c s) (stack : d.stack = c.stack)
    (labels : d.labels = c.labels) : Agrees d s where
  types := by rw [stack, agrees.types]
  known := by
    rw [stack]
    exact agrees.known
  finite := agrees.finite
  floor := by rw [← agrees.floor, Config.floor, labels, Config.floor]
  above := agrees.above

theorem last (agrees : Agrees c s) (some_ : s.height ≠ s.floor) :
    ∃ x o, c.stack.getLast? = some x ∧ s.operands.back? = some o ∧ x.type = o.type := by
  have above := agrees.above
  have nonempty : s.operands.toList ≠ [] := fun empty => by
    rw [TypedStack.height_eq, empty, List.length_nil] at above some_
    omega
  have last := congrArg List.getLast? agrees.types
  rw [List.getLast?_map, List.getLast?_map, List.getLast?_eq_some_getLast nonempty,
    Option.map_some] at last
  obtain ⟨x, found, same⟩ := Option.map_eq_some_iff.mp last
  refine ⟨x, s.operands.toList.getLast nonempty, found, ?_, same⟩
  rw [← Array.getLast?_toList, List.getLast?_eq_some_getLast nonempty]

theorem topType (agrees : Agrees c s) (some_ : s.height ≠ s.floor) : c.topType = s.topType := by
  obtain ⟨x, o, top, back, same⟩ := agrees.last some_
  simp [Config.topType, TypedStack.topType, some_, top, back, same]

theorem drop (agrees : Agrees c s) (some_ : s.height ≠ s.floor) :
    c.drop = .ok (c.without 1) ∧ Agrees (c.without 1) { s with operands := s.operands.pop } := by
  have above := agrees.above
  have length := agrees.length
  have floor := agrees.floor
  have rests := TypedStack.rests_pop above some_
  refine ⟨?_, ?_, fun x member => agrees.known x (List.mem_of_mem_take member), agrees.finite,
    floor, rests.above⟩
  · have more : ¬ c.stack.length ≤ c.floor := by omega
    simp [Config.drop, more, Config.without, List.dropLast_eq_take]
  · simp only [Config.without, ← List.dropLast_eq_take, Array.toList_pop, List.map_dropLast,
      agrees.types]

end Agrees

namespace Program

theorem firstOf_eq {holds : Nat → Bool} {places pc q : Nat} (from_ : pc ≤ q)
    (upto : q ≤ pc + places) (before : ∀ m, pc ≤ m → m < q → holds m = false)
    (at_ : q < pc + places → holds q = true) : firstOf holds places pc = q := by
  induction places generalizing pc with
  | zero => exact Nat.le_antisymm from_ upto
  | succ places ih =>
      unfold firstOf
      by_cases here : pc = q
      · subst here
        simp [at_ (by omega)]
      · have not_here := before pc (Nat.le_refl _) (by omega)
        simp only [not_here, Bool.false_eq_true, if_false]
        exact ih (by omega) (by omega) (fun m after => before m (by omega)) fun inside =>
          at_ (by omega)

theorem seek_eq (p : Program V) {holds : Nat → Bool} {start q : Nat} (from_ : start ≤ q)
    (upto : q ≤ p.code.length) (before : ∀ m, start ≤ m → m < q → holds m = false)
    (at_ : q < p.code.length → holds q = true) : p.seek holds start = q :=
  firstOf_eq from_ (by omega) before fun inside => at_ (by omega)

end Program

end Machine

end WasmFunclets
