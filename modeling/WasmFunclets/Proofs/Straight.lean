import WasmFunclets.Proofs.Agreement
import WasmFunclets.Proofs.Shift

/-! The instructions that neither open a construct nor go elsewhere: what the validation does to its
stack the machine can do to its own. -/

namespace WasmFunclets.Machine

open Validation Attempt

variable {V : Type} {p : Program V} {c d : Config V} {s t u : State}

/-- The machine goes on to the next instruction, with operands of the types that are given. -/
def RunsOn (c : Config V) (s : TypedStack) (result : Except Flaw (Outcome V)) : Prop :=
  ∃ d : Config V, result = .ok (.running d.next) ∧ Beside c d ∧ Agrees d s

theorem Agrees.history {s : TypedStack} (agrees : Agrees c s) (history : List (Event V)) :
    Agrees { c with history } s := agrees.of_stack rfl rfl

theorem Agrees.locals {s : TypedStack} (agrees : Agrees c s) (locals : List (Typed V)) :
    Agrees { c with locals } s := agrees.of_stack rfl rfl

theorem takeValues_agrees {types : List ValueType} {values : List ValueId}
    (agrees : Agrees c s.stack) (ok : takeValues types s = .ok values u) :
    ∃ args, c.take types = .ok (args, c.without types.length) ∧ args.map Typed.type = types ∧
      c.stack = (c.without types.length).stack ++ args ∧
      Agrees (c.without types.length) u.stack := by
  obtain ⟨accepted, b, _, rfl⟩ := takeValues_ok.mp ok
  exact agrees.take accepted

theorem takeValue_agrees {type : ValueType} {value : ValueId} (agrees : Agrees c s.stack)
    (ok : takeValue type s = .ok value u) :
    ∃ x, c.take [type] = .ok ([x], c.without 1) ∧ x.type = type ∧
      c.stack = (c.without 1).stack ++ [x] ∧ Agrees (c.without 1) u.stack := by
  obtain ⟨values, ok, _⟩ := takeValue_ok.mp ok
  obtain ⟨args, taking, typed, split, rest⟩ := takeValues_agrees agrees ok
  obtain ⟨x, rfl⟩ := List.length_eq_one_iff.mp
    (by rw [← List.length_map Typed.type, typed]; rfl : args.length = 1)
  exact ⟨x, taking, by simpa using typed, split, rest⟩

theorem shareValues_agrees {types : List ValueType} {values : List ValueId}
    (agrees : Agrees c s.stack) (ok : shareValues types s = .ok values u) : Agrees c u.stack := by
  obtain ⟨accepted, b, _, rfl⟩ := shareValues_ok.mp ok
  exact agrees.share accepted (TypedStack.types_withValues _ _)

theorem condition_agrees (opcode : UInt8) (immediate : Nat) {value : ValueId}
    (agrees : Agrees c s.stack) (ok : takeValue .i32 s = .ok value u) :
    ∃ d, p.condition c opcode immediate = .ok d ∧ Beside c d ∧ Agrees d u.stack := by
  obtain ⟨x, taking, _, _, rest⟩ := takeValue_agrees agrees ok
  refine ⟨p.state (c.without 1) opcode [x.datum] immediate, ?_, ⟨rfl, rfl, rfl⟩, rest.history _⟩
  rw [Program.condition, taking]
  rfl

theorem emitStatement_stack {opcode : UInt8} {operands : List ValueId} {immediate : Nat}
    (ok : emitStatement opcode operands immediate s = .ok () t) : t.stack = s.stack := by
  obtain ⟨_, _, _, rfl⟩ := emitStatement_ok.mp ok
  rfl

theorem emit_stack {opcode : UInt8} {type : ValueType} {operands : List ValueId}
    {immediate : UInt64} {value : ValueId}
    (ok : emit opcode type operands immediate s = .ok value t) : t.stack = s.stack := by
  obtain ⟨_, _, rfl⟩ := emit_ok.mp ok
  rfl

theorem putValue_agrees {type : ValueType} {value : ValueId} (agrees : Agrees c s.stack)
    (known : type ≠ .any) (datum : V) (ok : putValue type value s = .ok () t) :
    Agrees (c.push type datum) t.stack := by
  obtain rfl := putValue_ok.mp ok
  exact agrees.push known datum _

theorem localOf_ok {slot : Nat} {type : ValueType}
    (typed : (c.locals.map Typed.type)[slot]? = some type) :
    ∃ x, Program.localOf slot type c = .ok x ∧ c.locals[slot]? = some x ∧ x.type = type := by
  rw [List.getElem?_map] at typed
  obtain ⟨x, present, same⟩ := Option.map_eq_some_iff.mp typed
  exact ⟨x, by simp [Program.localOf, present, same], present, same⟩

theorem localGet_proceeds {slot : Nat} {type : ValueType} (agrees : Agrees c s.stack)
    (typed : (c.locals.map Typed.type)[slot]? = some type) (known : type ≠ .any)
    (ok : localGet slot type s = .ok () t) :
    ∃ x, Program.localOf slot type c = .ok x ∧ Agrees (c.push type x.datum) t.stack := by
  obtain ⟨x, found, _⟩ := localOf_ok typed
  refine ⟨x, found, ?_⟩
  rw [localGet, get_bind_ok, bind_ok] at ok
  obtain ⟨value, _, read, put⟩ := ok
  obtain ⟨b, _, rfl⟩ := onBuilder_ok.mp read
  exact putValue_agrees (s := { s with builder := b }) agrees known x.datum put

theorem set_types {values : List (Typed V)} {slot : Nat} {x y : Typed V}
    (present : values[slot]? = some x) (same : y.type = x.type) :
    (values.take slot ++ [y] ++ values.drop (slot + 1)).map Typed.type =
      values.map Typed.type := by
  obtain ⟨inside, rfl⟩ := List.getElem?_eq_some_iff.mp present
  have whole : values = values.take slot ++ [values[slot]] ++ values.drop (slot + 1) := by
    rw [List.append_assoc, List.singleton_append, ← List.drop_eq_getElem_cons inside,
      List.take_append_drop]
  have types := congrArg (List.map Typed.type) whole
  rw [List.map_append, List.map_append] at types
  rw [List.map_append, List.map_append, types, List.map_singleton, List.map_singleton, same]

theorem localSet_agrees {slot : Nat} {type : ValueType} {value : ValueId}
    (agrees : Agrees c s.stack) (typed : (c.locals.map Typed.type)[slot]? = some type)
    (ok : localSet slot type s = .ok value t) :
    ∃ d, Program.localSet slot type c = .ok d ∧ Beside c d ∧ Agrees d t.stack := by
  obtain ⟨x, found, present, same⟩ := localOf_ok typed
  rw [localSet, bind_ok] at ok
  obtain ⟨_, u, taken, ok⟩ := ok
  obtain ⟨y, taking, type_eq, _, rest⟩ := takeValue_agrees agrees taken
  simp only [get_bind_ok] at ok
  rw [bind_ok] at ok
  obtain ⟨_, _, written, ok⟩ := ok
  obtain ⟨b, _, rfl⟩ := onBuilder_ok.mp written
  obtain ⟨rfl, rfl⟩ := pure_ok.mp ok
  refine ⟨{ c.without 1 with locals := c.locals.take slot ++ [y] ++ c.locals.drop (slot + 1) }, ?_,
    ⟨rfl, rfl, set_types present (by rw [type_eq, same])⟩, rest.locals _⟩
  rw [Program.localSet, found]
  simp only [Except.bind, bind, taking]
  rfl

theorem constant_agrees {type : ValueType} {bits : UInt64} (agrees : Agrees c s.stack)
    (known : type ≠ .any) (datum : V) (ok : constant type bits s = .ok () t) :
    Agrees (c.push type datum) t.stack := by
  rw [constant, get_bind_ok, bind_ok] at ok
  obtain ⟨value, _, made, put⟩ := ok
  obtain ⟨b, _, rfl⟩ := onBuilder_ok.mp made
  exact putValue_agrees (s := { s with builder := b }) agrees known datum put

theorem operation_runsOn {opcode : UInt8} {params : List ValueType} {result : ValueType}
    {immediate : UInt64} (agrees : Agrees c s.stack)
    (knows : p.knowsGlobal opcode immediate = true) (known : result ≠ .any)
    (ok : operation opcode params result immediate s = .ok () t) :
    RunsOn c t.stack (p.operation opcode params result immediate c) := by
  rw [operation, bind_ok] at ok
  obtain ⟨operands, u, taken, ok⟩ := ok
  obtain ⟨args, taking, _, _, rest⟩ := takeValues_agrees agrees taken
  obtain ⟨value, v, emitted, ok⟩ := bind_ok.mp ok
  have stack := emit_stack emitted
  rw [Program.operation, knows]
  simp only [Bool.true_eq_false, if_false, taking, bind, Except.bind, Program.perform]
  by_cases none_ : result = .null
  · simp only [none_, if_true] at ok ⊢
    obtain ⟨_, rfl⟩ := pure_ok.mp ok
    exact ⟨_, rfl, ⟨rfl, rfl, rfl⟩, by rw [stack]; exact rest.history _⟩
  · simp only [none_, if_false] at ok ⊢
    refine ⟨_, rfl, ⟨rfl, rfl, rfl⟩, ?_⟩
    exact putValue_agrees (s := v) (by rw [stack]; exact rest.history _) known _ ok

theorem selectTyped_runsOn {type : ValueType} (agrees : Agrees c s.stack) (known : type ≠ .any)
    (ok : selectTyped type s = .ok () t) : RunsOn c t.stack (p.selectTyped type c) := by
  rw [selectTyped, bind_ok] at ok
  obtain ⟨condition, u, first, ok⟩ := ok
  obtain ⟨x, taking, _, _, rest⟩ := takeValue_agrees agrees first
  obtain ⟨values, v, second, ok⟩ := bind_ok.mp ok
  obtain ⟨args, taking', _, _, rest'⟩ := takeValues_agrees rest second
  obtain ⟨value, w, emitted, put⟩ := bind_ok.mp ok
  have stack := emit_stack emitted
  rw [Program.selectTyped, taking]
  simp only [bind, Except.bind, taking', Program.perform]
  refine ⟨_, rfl, ⟨rfl, rfl, rfl⟩, ?_⟩
  exact putValue_agrees (s := w) (by rw [stack]; exact rest'.history _) known _ put

theorem pushResults_agrees {types : List ValueType} {tuple : ValueId} (datum : V) {index : Nat}
    (agrees : Agrees c s.stack) (known : ∀ t ∈ types, t ≠ .any)
    (ok : pushResults tuple index types s = .ok () t) :
    Beside c (p.project datum index types c) ∧ Agrees (p.project datum index types c) t.stack := by
  induction types generalizing c s index with
  | nil =>
      obtain ⟨_, rfl⟩ := pure_ok.mp ok
      exact ⟨.refl c, agrees⟩
  | cons type types ih =>
      rw [pushResults, get_bind_ok, bind_ok] at ok
      obtain ⟨value, _, made, ok⟩ := ok
      obtain ⟨b, _, rfl⟩ := onBuilder_ok.mp made
      obtain ⟨_, u, put, ok⟩ := bind_ok.mp ok
      obtain ⟨beside, later⟩ := ih (c := (p.perform c (.project index) [datum]).2.push type
          (p.perform c (.project index) [datum]).1)
        (putValue_agrees (s := { s with builder := b }) (agrees.history _)
          (known type List.mem_cons_self) _ put)
        (fun t member => known t (List.mem_cons_of_mem _ member)) ok
      exact ⟨.trans (by exact ⟨rfl, rfl, rfl⟩) beside, later⟩

theorem call_runsOn {index : Nat} {callee : Signature} (agrees : Agrees c s.stack)
    (present : p.context.functions[index]? = some callee) (known : ∀ t ∈ callee.results, t ≠ .any)
    (ok : call index callee s = .ok () t) : RunsOn c t.stack (p.call index callee c) := by
  rw [call, bind_ok] at ok
  obtain ⟨operands, u, taken, ok⟩ := ok
  obtain ⟨args, taking, _, _, rest⟩ := takeValues_agrees agrees taken
  rw [Program.call]
  simp only [present, ne_eq, not_true_eq_false, if_false, taking, bind, Except.bind,
    Program.perform]
  have emitted {type : ValueType} {value : ValueId} {v : State}
      (ok : emit Opcode.callByte type operands (UInt64.ofNat index) u = .ok value v) :
      Agrees
        { c.without callee.params.length with
          history := ⟨.operation Opcode.callByte (UInt64.ofNat index), args.map Typed.datum⟩ ::
            c.history } v.stack := by
    rw [emit_stack ok]
    exact rest.history _
  have several (pushed : (do
      let tuple ← emit Opcode.callByte .null operands (UInt64.ofNat index)
      pushResults tuple 0 callee.results : Step Unit) u = .ok () t) (datum : V) :=
    let ⟨_, _, first, second⟩ := bind_ok.mp pushed
    pushResults_agrees (p := p) datum (emitted first) known second
  rcases shape : callee.results with _ | ⟨type, _ | ⟨more, others⟩⟩
  · rw [shape] at ok several
    obtain ⟨beside, later⟩ := several ok _
    exact ⟨_, rfl, .trans (by exact ⟨rfl, rfl, rfl⟩) beside, later⟩
  · rw [shape] at ok
    obtain ⟨value, v, first, put⟩ := bind_ok.mp ok
    refine ⟨_, rfl, ⟨rfl, rfl, rfl⟩, ?_⟩
    exact putValue_agrees (emitted first)
      (known type (by rw [shape]; exact List.mem_cons_self)) _ put
  · rw [shape] at ok several
    obtain ⟨beside, later⟩ := several ok _
    exact ⟨_, rfl, .trans (by exact ⟨rfl, rfl, rfl⟩) beside, later⟩

theorem drop_proceeds {operand : Operand} (agrees : Agrees c s.stack)
    (ok : onStack TypedStack.pop s = .ok operand t) :
    c.drop = .ok (c.without 1) ∧ Agrees (c.without 1) t.stack ∧ s.stack.height ≠ s.stack.floor ∧
      s.stack.operands.back? = some operand := by
  obtain ⟨_, popped, rfl⟩ := onStack_ok.mp ok
  have split := TypedStack.pop_ok.mp popped
  by_cases empty : s.stack.height = s.stack.floor
  · rw [if_pos empty, agrees.finite] at split
    exact absurd split.1 Bool.false_ne_true
  · rw [if_neg empty] at split
    obtain ⟨dropped, rest⟩ := agrees.drop empty
    exact ⟨dropped, by rw [split.2]; exact rest, empty, split.1⟩

theorem popType_proceeds {type : ValueType} {operand : Operand} (agrees : Agrees c s.stack)
    (ok : onStack (TypedStack.popType type) s = .ok operand t) :
    operand.type = type ∧ c.topType = type ∧ s.stack.height ≠ s.stack.floor ∧
      Agrees (c.without 1) t.stack := by
  obtain ⟨_, popped, rfl⟩ := onStack_ok.mp ok
  have split := TypedStack.popType_ok.mp popped
  by_cases empty : s.stack.height = s.stack.floor
  · rw [if_pos empty, agrees.finite] at split
    exact absurd split.1 Bool.false_ne_true
  · rw [if_neg empty] at split
    obtain ⟨admits, top, back, rfl, rest⟩ := split
    refine ⟨rfl, ?_, empty, by rw [rest]; exact (agrees.drop empty).2⟩
    obtain ⟨x, o, last, back', same⟩ := agrees.last empty
    rw [agrees.topType empty]
    refine (ValueType.admits_iff.mp admits).resolve_right ?_
    rw [← agrees.topType empty, Config.topType, last]
    exact agrees.known x (List.mem_of_getLast? last)

theorem take_two {type : ValueType} (above : c.floor + 2 ≤ c.stack.length)
    (second : c.topType = type) (first : (c.without 1).topType = type) :
    ∃ args, c.take [type, type] = .ok (args, (c.without 1).without 1) := by
  obtain ⟨below, x, y, stack⟩ : ∃ below x y, c.stack = below ++ [x, y] := by
    refine ⟨c.stack.take (c.stack.length - 2), ?_⟩
    obtain ⟨x, y, both⟩ := List.length_eq_two.mp
      (by rw [List.length_drop]; omega : (c.stack.drop (c.stack.length - 2)).length = 2)
    exact ⟨x, y, by rw [← both, List.take_append_drop]⟩
  have length : c.stack.length = below.length + 2 := by rw [stack, List.length_append]; rfl
  have rest : (c.without 1).stack = below ++ [x] := by
    have short : c.stack.length - 1 = (below ++ [x]).length := by
      rw [length, List.length_append, List.length_singleton]
      omega
    rw [Config.without, short]
    dsimp only
    rw [stack, show below ++ [x, y] = below ++ [x] ++ [y] by simp, List.take_left]
  have types : x.type = type ∧ y.type = type := by
    rw [Config.topType, rest, List.getLast?_append] at first
    rw [Config.topType, stack, List.getLast?_append] at second
    exact ⟨first, second⟩
  have enough : ¬ c.stack.length < c.floor + 2 := Nat.not_lt.mpr above
  have all : c.stack.drop (c.stack.length - 2) = [x, y] := by
    rw [stack, List.length_append]
    simp
  refine ⟨[x, y], ?_⟩
  have whole : ((c.without 1).without 1).stack = c.stack.take (c.stack.length - 2) := by
    rw [Config.without, rest, stack]
    simp
  simp only [Config.take, List.length_cons, List.length_nil, Nat.zero_add, Nat.reduceAdd, enough,
    if_false, all, List.map_cons, types.1, types.2, List.map_nil, if_true]
  rw [← whole]
  rfl

theorem select_runsOn (agrees : Agrees c s.stack) (ok : select s = .ok () t) :
    RunsOn c t.stack (p.select c) := by
  rw [select, bind_ok] at ok
  obtain ⟨condition, u, taken, ok⟩ := ok
  obtain ⟨x, taking, _, _, rest⟩ := takeValue_agrees agrees taken
  obtain ⟨second, v, popped, ok⟩ := bind_ok.mp ok
  obtain ⟨_, once, some_, back⟩ := drop_proceeds rest popped
  have top : (c.without 1).topType = second.type := by
    rw [rest.topType some_, TypedStack.topType, if_neg some_, back]
    rfl
  have known : second.type ≠ .any := rest.solid.known second (by
    rw [← Array.getLast?_toList] at back
    exact List.mem_of_getLast? back)
  simp only [known, if_false] at ok
  obtain ⟨first, w, popped', ok⟩ := bind_ok.mp ok
  obtain ⟨type, top', more, twice⟩ := popType_proceeds once popped'
  obtain ⟨_, _, required, ok⟩ := bind_ok.mp ok
  obtain ⟨numeric, rfl⟩ := require_ok.mp required
  rw [type] at numeric ok
  have isNumeric : second.type.isNumeric = true := numeric.resolve_left known
  obtain ⟨values, _, supplied, ok⟩ := bind_ok.mp ok
  obtain ⟨b, _, rfl⟩ := valuesOf_ok.mp supplied
  obtain ⟨value, y, emitted, put⟩ := bind_ok.mp ok
  have stack := emit_stack emitted
  have above : (c.without 1).floor + 2 ≤ (c.without 1).stack.length := by
    have length := once.length
    have floor := once.floor
    have le := once.above
    have shorter : ((c.without 1).without 1).stack.length = (c.without 1).stack.length - 1 := by
      simp [Config.without]
    have same : ((c.without 1).without 1).floor = (c.without 1).floor := rfl
    omega
  obtain ⟨args, both⟩ := take_two above top top'
  rw [Program.select, taking]
  simp only [bind, Except.bind, top, both, isNumeric, Bool.true_eq_false, if_false,
    Program.perform]
  refine ⟨_, rfl, ⟨rfl, rfl, rfl⟩, ?_⟩
  exact putValue_agrees (s := y) (by rw [stack]; exact twice.history _) known _ put

end WasmFunclets.Machine
