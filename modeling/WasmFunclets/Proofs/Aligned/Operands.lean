import WasmFunclets.Proofs.Aligned.State
import WasmFunclets.Proofs.Refusals

/-! Operands are taken from the stack, put on it and used by instructions. -/

namespace WasmFunclets.Validation

open Attempt
open Ssa (Forest)

variable {context : Context} {strict : Bool} {f g : Forest} {written : BlockId → Nat → Prop}
variable {extra : List BlockId} {s : State} {types : List ValueType} {type : ValueType}
variable {v : ValueId} {vs : List ValueId} {b : Ssa.Builder} {c : BlockId}

theorem backs_fit {below operand : Operand} (backs : b.Backs strict f c below)
    (value : below.value = operand.value) (fits : below.type.admits operand.type = true)
    (known : strict = true → operand.type.isValue = true) : b.Backs strict f c operand := by
  obtain ⟨_, backs⟩ := backs
  refine ⟨fun checked => .inl (known checked), ?_⟩
  rw [value] at backs
  split at backs
  · exact backs.fit fits
  · exact ⟨backs.1, fun checked => ValueType.ne_any (known checked)⟩

theorem Aligned.taken (aligned : Aligned context strict f written extra s)
    (known : strict = true → ∀ type ∈ types, type.isValue = true) (accepted : s.stack.accepts types = true) :
    ∀ operand ∈ s.stack.taken types, s.builder.Backs strict f s.current operand := by
  intro operand member
  obtain ⟨listed, ⟨none_, polymorphic⟩ | ⟨below, old, value, fits⟩⟩ :=
    TypedStack.mem_taken aligned.above accepted member
  · refine ⟨fun checked => .inl (known checked _ listed), ?_⟩
    rw [none_]
    exact ⟨aligned.dead polymorphic, fun checked => ValueType.ne_any (known checked _ listed)⟩
  · exact backs_fit (aligned.operands below (List.mem_of_mem_drop old)) value fits
      fun checked => known checked _ listed

theorem mem_operandsOf (holds : b.HoldAll strict f c vs types)
    (known : strict = true → ∀ type ∈ types, type.isValue = true) {operand : Operand}
    (member : operand ∈ operandsOf types vs) :
    operand.type ∈ types ∧ b.Backs strict f c operand := by
  have full : operandsOf types vs = List.zipWith Operand.mk types (vs.map some) := by
    simp [operandsOf, TypedStack.withValues, holds.length_eq]
  rw [full] at member
  clear full
  induction holds with
  | nil => simp at member
  | cons first _ ih =>
      rcases List.mem_cons.mp member with rfl | rest
      · exact ⟨List.mem_cons_self, Ssa.Builder.backs_some first fun checked =>
          .inl (known checked _ List.mem_cons_self)⟩
      · exact (ih (fun checked type listed => known checked type (List.mem_cons_of_mem _ listed))
          rest).imp_left (List.mem_cons_of_mem _)

theorem Clear.rests {k k' : TypedStack} (clear : Clear k) (rests : TypedStack.Rests k k')
    (polymorphic : k'.polymorphic = k.polymorphic)
    (operands : ∀ operand ∈ k'.operands.toList.drop k.floor,
      operand ∈ k.operands.toList.drop k.floor ∨ operand.type ≠ .any) : Clear k' := by
  intro operand member unknown
  rw [rests.floor] at member
  rcases operands operand member with old | new
  · rw [polymorphic]
    exact clear operand old unknown
  · exact absurd unknown new

theorem Aligned.without (aligned : Aligned context strict f written extra s)
    (types : List ValueType) :
    Aligned context strict f written extra { s with stack := s.stack.without types } := by
  refine aligned.beside aligned.built (.refl aligned.built.sound.formed)
    (TypedStack.rests_without types aligned.above) rfl (fun operand member => .inl ?_) fun checked =>
      (aligned.clear checked).rests (TypedStack.rests_without types aligned.above) rfl
        fun operand member => .inl ?_
  · rw [TypedStack.toList_without] at member
    exact List.mem_of_mem_take member
  · rw [TypedStack.toList_without] at member
    rw [List.drop_take] at member
    exact List.mem_of_mem_take member

theorem Aligned.extend {operands : List Operand} (aligned : Aligned context strict f written extra s)
    (backs : ∀ operand ∈ operands, s.builder.Backs strict f s.current operand)
    (known : strict = true → ∀ operand ∈ operands, operand.type = .any → s.stack.polymorphic = true) :
    Aligned context strict f written extra { s with stack := s.stack.extend operands } := by
  refine aligned.beside aligned.built (.refl aligned.built.sound.formed)
    (TypedStack.rests_extend operands aligned.above) rfl (fun operand member => ?_) fun checked => ?_
  · rw [TypedStack.toList_extend] at member
    exact (List.mem_append.mp member).imp_right (backs operand)
  · intro operand member unknown
    rw [TypedStack.toList_extend, TypedStack.floor_extend,
      List.drop_append_of_le_length aligned.above] at member
    rcases List.mem_append.mp member with old | new
    · exact aligned.clear checked operand old unknown
    · exact known checked operand new unknown

theorem Aligned.put (aligned : Aligned context strict f written extra s)
    (holds : s.builder.HoldsValue strict f s.current v type)
    (sort : strict = true → type.isValue = true ∨ type = .any ∧ s.stack.polymorphic = true) :
    Aligned context strict f written extra { s with stack := s.stack.extend [⟨type, some v⟩] } := by
  refine aligned.extend (fun operand member => ?_) fun checked operand member unknown => ?_
  · rw [List.mem_singleton.mp member]
    exact Ssa.Builder.backs_some holds fun checked => (sort checked).imp_right And.left
  · rw [List.mem_singleton.mp member] at unknown
    exact ((sort checked).resolve_left fun known => ValueType.ne_any known unknown).2

theorem Aligned.puts (aligned : Aligned context strict f written extra s)
    (holds : s.builder.HoldAll strict f s.current vs types)
    (known : strict = true → ∀ type ∈ types, type.isValue = true) :
    Aligned context strict f written extra { s with stack := s.stack.extend (operandsOf types vs) } :=
  aligned.extend (fun _ member => (mem_operandsOf holds known member).2) fun checked _ member unknown =>
    absurd unknown (ValueType.ne_any (known checked _ (mem_operandsOf holds known member).1))

theorem Aligned.build {written' : BlockId → Nat → Prop}
    (aligned : Aligned context strict f written extra s)
    (built : b.Built context strict f written' []) (apart : s.builder.Apart b) :
    Aligned context strict f written' extra { s with builder := b } :=
  aligned.beside built apart (.refl aligned.above) rfl (fun _ member => .inl member) aligned.clear

theorem Aligned.supply {operands : List Operand} (aligned : Aligned context strict f written extra s)
    (backs : ∀ operand ∈ operands, s.builder.Backs strict f s.current operand) :
    Ends (supply operands) s.builder (fun vs b =>
      Aligned context strict f written extra { s with builder := b } ∧ s.builder.Aside b ∧
        b.HoldAll strict f s.current vs (operands.map Operand.type)) Ssa.Builder.Exhausted :=
  (Ssa.Builder.supply_built aligned.built backs).imp fun _ _ ⟨built, aside, holds⟩ =>
    ⟨aligned.build built aside.toApart, aside, holds⟩

structure TakesValues (context : Context) (strict : Bool) (f : Forest) (written : BlockId → Nat → Prop)
    (extra : List BlockId) (s : State) (stack : TypedStack) (types : List ValueType)
    (vs : List ValueId) (t : State) : Prop where
  same : t = { s with stack, builder := t.builder }
  aside : s.builder.Aside t.builder
  aligned : Aligned context strict f written extra t
  holds : t.builder.HoldAll strict f s.current vs types

theorem takeValues_aligned (aligned : Aligned context strict f written extra s)
    (known : strict = true → ∀ type ∈ types, type.isValue = true) :
    Ends (takeValues types) s
      (TakesValues context strict f written extra s (s.stack.without types) types) Refused := by
  refine ends_takeValues fun accepted => ?_
  refine ((aligned.without types).supply (aligned.taken known accepted)).imp ?_
  rintro vs b ⟨aligned', aside, holds⟩
  rw [TypedStack.types_taken] at holds
  exact ⟨rfl, aside, aligned', holds⟩

theorem takeValue_aligned (aligned : Aligned context strict f written extra s)
    (known : strict = true → type.isValue = true) :
    Ends (takeValue type) s (fun v =>
      TakesValues context strict f written extra s (s.stack.without [type]) [type] [v]) Refused := by
  rw [takeValue, ends_bind]
  have taken := @takeValues_aligned context strict f written extra s [type] aligned
    (by simpa using known)
  refine taken.imp ?_
  rintro vs t takes
  rw [ends_pure]
  obtain ⟨v, rfl⟩ := List.length_eq_one_iff.mp takes.holds.length_eq
  exact takes

theorem shareValues_aligned (aligned : Aligned context strict f written extra s)
    (known : strict = true → ∀ type ∈ types, type.isValue = true) :
    Ends (shareValues types) s (fun vs => TakesValues context strict f written extra s
      ((s.stack.without types).extend (operandsOf types vs)) types vs) Refused := by
  rw [shareValues, ends_bind]
  refine (takeValues_aligned aligned known).imp ?_
  rintro vs t ⟨same, aside, aligned', holds⟩
  rw [ends_bind]
  refine ends_putValues ?_
  rw [ends_pure]
  rw [same] at aligned' ⊢
  exact ⟨rfl, aside, aligned'.puts holds known, holds⟩

theorem takeAll_aligned (aligned : Aligned context strict f written extra s)
    (known : strict = true → ∀ type ∈ types, type.isValue = true) :
    Ends (takeAll types) s (fun vs t => s.stack.holdsExactly types = true ∧
      TakesValues context strict f written extra s (s.stack.without types) types vs t) Refused := by
  rw [takeAll, ends_bind, ends_get, ends_bind]
  exact ends_demand fun exactly => (takeValues_aligned aligned known).imp fun _ _ takes =>
    ⟨exactly, takes⟩

structure Makes (context : Context) (strict : Bool) (f : Forest) (written : BlockId → Nat → Prop)
    (extra : List BlockId) (s : State) (type : ValueType) (v : ValueId) (t : State) : Prop where
  same : t = { s with builder := t.builder }
  aside : s.builder.Aside t.builder
  aligned : Aligned context strict f written extra t
  holds : t.builder.HoldsValue strict f s.current v type

theorem ends_makes {m : Attempt Ssa.Builder ValueId}
    (aligned : Aligned context strict f written extra s)
    (ends : Ends m s.builder (fun v b => b.Built context strict f written [] ∧ s.builder.Aside b ∧
      b.HoldsValue strict f s.current v type) Ssa.Builder.Exhausted) :
    Ends (onBuilder m) s (Makes context strict f written extra s type) Refused :=
  ends_onBuilder <| ends.imp fun _ _ ⟨built, aside, holds⟩ =>
    ⟨rfl, aside, aligned.build built aside.toApart, holds⟩

theorem emit_aligned {opcode : UInt8} {immediate : UInt64}
    (aligned : Aligned context strict f written extra s)
    (holds : s.builder.HoldAll strict f s.current vs types)
    (required : strict = true → Opcode.operandTypes context opcode immediate type = some types)
    (known : strict = true → type ≠ .any) :
    Ends (emit opcode type vs immediate) s (Makes context strict f written extra s type) Refused := by
  rw [emit, ends_bind, ends_get]
  exact ends_makes aligned <| Ssa.Builder.emit_built aligned.built aligned.inside holds required
    (fun checked unknown => absurd unknown (known checked)) fun _ _ member => .inl member

theorem emitStatement_aligned {opcode : UInt8} {immediate : Nat}
    (aligned : Aligned context strict f written extra s)
    (holds : s.builder.HoldAll strict f s.current vs types)
    (required : strict = true →
      Opcode.operandTypes context opcode (UInt64.ofNat immediate) .null = some types) :
    Ends (emitStatement opcode vs immediate) s (fun _ t => t = { s with builder := t.builder } ∧
      s.builder.Aside t.builder ∧ Aligned context strict f written extra t) Refused := by
  rw [emitStatement, ends_bind]
  exact (emit_aligned aligned holds required (by simp)).imp fun _ t made =>
    ⟨made.same, made.aside, made.aligned⟩

theorem Makes.put {t : State} (made : Makes context strict f written extra s type v t)
    (known : strict = true → type.isValue = true) : Aligned context strict f written extra
      { t with stack := t.stack.extend [⟨type, some v⟩] } := by
  have current : t.current = s.current := by rw [made.same]
  exact made.aligned.put (current ▸ made.holds) fun checked => .inl (known checked)

end WasmFunclets.Validation
