import WasmFunclets.Proofs.Aligned.Operands
import WasmFunclets.Proofs.Typed

/-! Instructions that stay in their block. -/

namespace WasmFunclets

namespace Opcode

variable {context : Context} {immediate : UInt64} {type : ValueType}

theorem operandTypes_ifThen : operandTypes context ifThenByte immediate type = some [.i32] := rfl

theorem operandTypes_brIf : operandTypes context brIfByte immediate type = some [.i32] := rfl

theorem operandTypes_brTable : operandTypes context brTableByte immediate type = some [.i32] := rfl

theorem operandTypes_funcletCallIf :
    operandTypes context funcletCallIfByte immediate type = some [.i32] := rfl

theorem operandTypes_funcletCallTable :
    operandTypes context funcletCallTableByte immediate type = some [.i32] := rfl

theorem operandTypes_unreachable :
    operandTypes context unreachableByte immediate type = some [] := rfl

theorem operandTypes_funcletCall :
    operandTypes context funcletCallByte immediate type = some [] := rfl

theorem operandTypes_select :
    operandTypes context selectByte immediate type = some [type, type, .i32] := rfl

theorem operandTypes_selectTyped :
    operandTypes context selectTypedByte immediate type = some [type, type, .i32] := rfl

theorem operandTypes_call : operandTypes context callByte immediate type =
    context.functions[immediate.toNat]?.map Signature.params := rfl

end Opcode

namespace Validation

open Attempt
open Ssa (Forest)

variable {context : Context} {strict : Bool} {f : Forest} {written : BlockId → Nat → Prop}
variable {extra : List BlockId} {s t u : State} {types : List ValueType} {type : ValueType}
variable {v : ValueId} {vs : List ValueId}

structure Stays (context : Context) (strict : Bool) (f : Forest) (written : BlockId → Nat → Prop)
    (extra : List BlockId) (s t : State) : Prop where
  same : t = { s with stack := t.stack, builder := t.builder }
  aside : s.builder.Aside t.builder
  aligned : Aligned context strict f written extra t

theorem TakesValues.stays {stack : TypedStack}
    (takes : TakesValues context strict f written extra s stack types vs t) :
    Stays context strict f written extra s t :=
  ⟨by rw [takes.same], takes.aside, takes.aligned⟩

theorem Stays.trans (first : Stays context strict f written extra s t)
    (second : Stays context strict f written extra t u) : Stays context strict f written extra s u :=
  ⟨by rw [second.same, first.same], first.aside.trans second.aside, second.aligned⟩

theorem Makes.stays (made : Makes context strict f written extra s type v t)
    (known : strict = true → type.isValue = true) :
    Stays context strict f written extra s { t with stack := t.stack.extend [⟨type, some v⟩] } :=
  ⟨by rw [made.same], made.aside, made.put known⟩

theorem Stays.keeps (stays : Stays context strict f written extra s t)
    (aligned : Aligned context strict f written extra s)
    (holds : s.builder.HoldAll strict f s.current vs types) :
    t.builder.HoldAll strict f t.current vs types := by
  have current : t.current = s.current := by rw [stays.same]
  rw [current]
  exact holds.grow stays.aside.later stays.aside.size aligned.built.sound.formed
    stays.aligned.built.sound.formed (.refl f)

theorem TakesValues.at_hand {stack : TypedStack}
    (takes : TakesValues context strict f written extra s stack types vs t) :
    t.builder.HoldAll strict f t.current vs types := by
  have current : t.current = s.current := by rw [takes.same]
  exact current ▸ takes.holds

theorem Makes.at_hand (made : Makes context strict f written extra s type v t) :
    t.builder.HoldsValue strict f t.current v type := by
  have current : t.current = s.current := by rw [made.same]
  exact current ▸ made.holds

structure Pops (context : Context) (strict : Bool) (f : Forest) (written : BlockId → Nat → Prop)
    (extra : List BlockId) (s : State) (operand : Operand) (t : State) : Prop where
  same : t = { s with stack := t.stack }
  aligned : Aligned context strict f written extra t
  yields : t.builder.Yields strict f t.current true operand
  polymorphic : t.stack.polymorphic = s.stack.polymorphic

theorem Pops.stays {operand : Operand} (pops : Pops context strict f written extra s operand t) :
    Stays context strict f written extra s t := by
  have builder : t.builder = s.builder := by rw [pops.same]
  refine ⟨by rw [pops.same], ?_, pops.aligned⟩
  rw [← builder]
  exact .refl pops.aligned.built.sound.formed

theorem Aligned.pop (aligned : Aligned context strict f written extra s) {operand : Operand}
    (some_ : s.stack.height ≠ s.stack.floor)
    (split : s.stack.operands.toList = s.stack.operands.pop.toList ++ [operand]) :
    Aligned context strict f written extra
      { s with stack := { s.stack with operands := s.stack.operands.pop } } := by
  have rests := TypedStack.rests_pop aligned.above some_
  have fewer {o : Operand} (member : o ∈ s.stack.operands.pop.toList.drop s.stack.floor) :
      o ∈ s.stack.operands.toList.drop s.stack.floor := by
    rw [split]
    exact (List.sublist_append_left _ _).drop _ |>.mem member
  refine aligned.beside aligned.built (.refl aligned.built.sound.formed) rests rfl
    (fun o member => .inl ?_) fun checked =>
      (aligned.clear checked).rests rests rfl fun o member => .inl (fewer member)
  rw [split]
  exact List.mem_append_left _ member

theorem backs_yields {b : Ssa.Builder} {c : BlockId} {below operand : Operand}
    (backs : b.Backs strict f c below) (value : below.value = operand.value)
    (fits : below.type.admits operand.type = true) : b.Yields strict f c true operand := by
  obtain ⟨_, backs⟩ := backs
  unfold Ssa.Builder.Yields
  rw [value] at backs
  split at backs
  · exact backs.fit fits
  · exact ⟨backs.1, fun _ _ => rfl⟩

theorem yields_of_dead {b : Ssa.Builder} {c : BlockId} {operand : Operand} (dead : f.Dead c)
    (none_ : operand.value = none) : b.Yields strict f c true operand := by
  unfold Ssa.Builder.Yields
  rw [none_]
  exact ⟨dead, fun _ _ => rfl⟩

theorem pop_aligned (aligned : Aligned context strict f written extra s) :
    Ends (onStack TypedStack.pop) s (fun operand t =>
      Pops context strict f written extra s operand t ∧
        (strict = true → operand.type = .any → s.stack.polymorphic = true)) Refused := by
  refine ends_onStack TypedStack.pop_refuses fun operand k ok => ?_
  rcases TypedStack.pop_cases ok with ⟨polymorphic, rfl, rfl⟩ | ⟨some_, split, rfl⟩
  · exact ⟨⟨rfl, aligned, yields_of_dead (aligned.dead polymorphic) rfl, rfl⟩, fun _ _ => polymorphic⟩
  · have member : operand ∈ s.stack.operands.toList := by rw [split]; simp
    refine ⟨⟨rfl, aligned.pop some_ split, backs_yields (aligned.operands operand member) rfl
      (ValueType.admits_refl _), rfl⟩, fun checked unknown => aligned.clear checked operand ?_ unknown⟩
    have reach : s.stack.floor ≤ s.stack.operands.pop.toList.length :=
      (TypedStack.rests_pop aligned.above some_).above
    rw [split, List.drop_append_of_le_length reach]
    simp

theorem popType_aligned (aligned : Aligned context strict f written extra s) :
    Ends (onStack (TypedStack.popType type)) s (fun operand t =>
      Pops context strict f written extra s operand t ∧ operand.type = type) Refused := by
  refine ends_onStack (TypedStack.popType_refuses type) fun operand k ok => ?_
  obtain ⟨type_, ⟨polymorphic, none_, rfl⟩ | ⟨some_, below, split, value, fits, rfl⟩⟩ :=
    TypedStack.popType_cases ok
  · exact ⟨⟨rfl, aligned, yields_of_dead (aligned.dead polymorphic) none_, rfl⟩, type_⟩
  · have member : below ∈ s.stack.operands.toList := by rw [split]; simp
    exact ⟨⟨rfl, aligned.pop some_ split, backs_yields (aligned.operands below member) value
      (type_ ▸ fits), rfl⟩, type_⟩

theorem drop_aligned (aligned : Aligned context strict f written extra s) :
    Ends (do let _ ← onStack TypedStack.pop) s (fun _ t => Stays context strict f written extra s t) Refused := by
  rw [ends_bind]
  exact (pop_aligned aligned).imp fun _ _ popped => popped.1.stays

theorem selectTyped_aligned (aligned : Aligned context strict f written extra s)
    (known : strict = true → type.isValue = true) :
    Ends (selectTyped type) s (fun _ t => Stays context strict f written extra s t) Refused := by
  rw [selectTyped, ends_bind]
  refine (takeValue_aligned aligned fun _ => rfl).imp ?_
  rintro condition s₁ taken
  rw [ends_bind]
  have both : strict = true → ∀ t ∈ [type, type], t.isValue = true := fun checked => by
    simpa using known checked
  refine (takeValues_aligned taken.aligned both).imp ?_
  rintro vs s₂ taken₂
  rw [ends_bind]
  have operands : s₂.builder.HoldAll strict f s₂.current (vs ++ [condition]) [type, type, .i32] :=
    List.rel_append taken₂.at_hand (taken₂.stays.keeps taken.aligned taken.at_hand)
  refine (emit_aligned taken₂.aligned operands (fun _ => Opcode.operandTypes_selectTyped)
    fun checked => ValueType.ne_any (known checked)).imp ?_
  rintro v s₃ made
  exact ends_putValue ((taken.stays.trans taken₂.stays).trans (made.stays known))

/-- An untyped select in unreachable code may have operands of unknown type. -/
theorem select_aligned (aligned : Aligned context strict f written extra s) :
    Ends select s (fun _ t => Stays context strict f written extra s t) Refused := by
  rw [select, ends_bind]
  refine (takeValue_aligned aligned fun _ => rfl).imp ?_
  rintro condition s₁ taken
  rw [ends_bind]
  refine (pop_aligned taken.aligned).imp ?_
  rintro second s₂ ⟨popped, known₂⟩
  rw [ends_bind]
  have first : Ends (onStack (if second.type = .any then TypedStack.pop
      else TypedStack.popType second.type)) s₂ (fun first t =>
        Pops context strict f written extra s₂ first t ∧ second.type.admits first.type = true ∧
          (strict = true → first.type = .any → s₂.stack.polymorphic = true)) Refused := by
    split
    · rename_i unknown
      refine (pop_aligned popped.aligned).imp fun first t ⟨popped, known⟩ => ⟨popped, ?_, known⟩
      exact ValueType.admits_iff.mpr (.inr unknown)
    · rename_i other
      refine (popType_aligned popped.aligned).imp fun first t ⟨popped, same⟩ => ⟨popped, ?_, ?_⟩
      · rw [same]
        exact ValueType.admits_refl _
      · exact fun _ unknown => absurd (same ▸ unknown) other
  refine first.imp ?_
  rintro first s₃ ⟨popped₃, fits, known⟩
  rw [ends_bind]
  refine ends_demand fun numeric => ?_
  rw [ends_bind]
  have stays : Stays context strict f written extra s s₃ :=
    (taken.stays.trans popped.stays).trans popped₃.stays
  have aligned₃ := popped₃.aligned
  have formed := aligned₃.built.sound.formed
  have same : s₃.builder = s₂.builder ∧ s₃.current = s₂.current := by
    rw [popped₃.same]
    exact ⟨rfl, rfl⟩
  have yields : ∀ operand ∈ [first, second], s₃.builder.Yields strict f s₃.current true operand := by
    simp only [List.mem_cons, List.not_mem_nil, or_false, forall_eq_or_imp, forall_eq]
    refine ⟨popped₃.yields, ?_⟩
    rw [same.1, same.2]
    exact popped.yields
  refine ends_valuesOf <| (Ssa.Builder.supplyAll_built aligned₃.built yields).imp ?_
  rintro vs b ⟨⟨loose, built, waits⟩, aside, all⟩
  have held := popped₃.stays.keeps popped.aligned (popped.stays.keeps taken.aligned taken.at_hand)
  have operands : b.HoldAll strict f s₃.current (vs ++ [condition])
      [first.type, first.type, .i32] := by
    obtain _ | ⟨one, _ | ⟨two, _ | _⟩⟩ := all
    exact .cons one (.cons (two.fit fits) (held.grow aside.later aside.size formed
      built.sound.formed (.refl f)))
  have dead (checked : strict = true) (unknown : first.type = .any) : f.Dead s₃.current :=
    aligned₃.dead (popped₃.polymorphic ▸ known checked unknown)
  rw [ends_bind]
  refine ends_emit <| (@Ssa.Builder.emit_built context strict f written loose [] b s₃.current first.type
    built Opcode.selectByte _ _ 0 (aside.count.symm ▸ aligned₃.inside) operands
    (fun _ => Opcode.operandTypes_select) (fun checked unknown => ⟨rfl, dead checked unknown⟩)
    fun _ i member => ?_).imp ?_
  · obtain absurd_ | ⟨listed, waits⟩ := waits i member
    · cases absurd_
    · exact .inr ⟨rfl, waits.dead, i, List.mem_append_left _ listed, waits.leads built.sound.formed⟩
  · rintro v b' ⟨built', aside', holds⟩
    have aligned' := aligned₃.build built' (aside.trans aside').toApart
    exact ends_putValue ⟨by rw [stays.same], stays.aside.trans (aside.trans aside'),
      aligned'.put holds fun checked => numeric.symm.imp ValueType.isValue_of_isNumeric fun unknown =>
        ⟨unknown, popped₃.polymorphic ▸ known checked unknown⟩⟩

theorem constant_aligned {bits : UInt64} (aligned : Aligned context strict f written extra s)
    (known : strict = true → type.isValue = true) :
    Ends (constant type bits) s (fun _ t => Stays context strict f written extra s t) Refused := by
  rw [constant, ends_bind, ends_get, ends_bind]
  refine (ends_makes aligned (Ssa.Builder.constant_built aligned.built aligned.inside
    fun checked => ValueType.ne_any (known checked))).imp ?_
  rintro v t made
  exact ends_putValue (made.stays known)

theorem localGet_aligned {slot : Nat} (aligned : Aligned context strict f written extra s)
    (type_ : s.builder.locals[slot]? = some type) :
    Ends (localGet slot type) s (fun _ t => Stays context strict f written extra s t) Refused := by
  rw [localGet, ends_bind, ends_get, ends_bind]
  refine (ends_makes aligned (Ssa.Builder.read_built aligned.built aligned.inside type_)).imp ?_
  rintro v t made
  exact ends_putValue <| made.stays fun checked =>
    aligned.built.locals checked type (Array.mem_of_getElem? type_)

/-- The block, the frames and the regions are as before, and the block at hand may have written a
local. -/
structure Stores (context : Context) (strict : Bool) (f : Forest) (written : BlockId → Nat → Prop)
    (extra : List BlockId) (slot : Nat) (s t : State) : Prop where
  same : t = { s with stack := t.stack, builder := t.builder }
  apart : s.builder.Apart t.builder
  aligned : Aligned context strict f (fun c r => written c r ∨ c = s.current ∧ r = slot) extra t

theorem localSet_aligned {slot : Nat} (aligned : Aligned context strict f written extra s)
    (unused : ¬ s.builder.Used s.current) (type_ : s.builder.locals[slot]? = some type) :
    Ends (localSet slot type) s (fun v t => Stores context strict f written extra slot s t ∧
      t.builder.HoldsValue strict f t.current v type) Refused := by
  rw [localSet, ends_bind]
  refine (takeValue_aligned aligned fun checked =>
    aligned.built.locals checked type (Array.mem_of_getElem? type_)).imp ?_
  rintro v t taken
  have current : t.current = s.current := by rw [taken.same]
  obtain _ | ⟨holds, _ | _⟩ := taken.at_hand
  rw [ends_bind, ends_get, ends_bind]
  refine ends_onBuilder <| (Ssa.Builder.write_built taken.aligned.built taken.aligned.inside
    (by rwa [current, taken.aside.used]) (by rw [taken.aside.later.locals, type_]) holds).mono ?_
      fun _ _ => False.elim
  rintro _ b ⟨built, apart⟩
  rw [current] at built
  rw [ends_pure]
  exact ⟨⟨by rw [taken.same], taken.aside.toApart.trans apart, taken.aligned.build built apart⟩,
    holds.grow apart.later apart.size taken.aligned.built.sound.formed built.sound.formed (.refl f)⟩

theorem localTee_aligned {slot : Nat} (aligned : Aligned context strict f written extra s)
    (unused : ¬ s.builder.Used s.current) (type_ : s.builder.locals[slot]? = some type) :
    Ends (do putValue type (← localSet slot type)) s
      (fun _ t => Stores context strict f written extra slot s t) Refused := by
  rw [ends_bind]
  refine (localSet_aligned aligned unused type_).imp ?_
  rintro v t ⟨stores, holds⟩
  exact ends_putValue ⟨by rw [stores.same], stores.apart, stores.aligned.put holds fun checked =>
    .inl (aligned.built.locals checked type (Array.mem_of_getElem? type_))⟩

theorem operation_aligned {opcode : UInt8} {immediate : UInt64}
    (aligned : Aligned context strict f written extra s)
    (typed : strict = true → (Instruction.operation opcode types type immediate).ValueTyped context) :
    Ends (operation opcode types type immediate) s (fun _ t => Stays context strict f written extra s t)
      Refused := by
  rw [operation, ends_bind]
  refine (takeValues_aligned aligned fun checked => (typed checked).2.1).imp ?_
  rintro vs s₁ taken
  rw [ends_bind]
  refine (emit_aligned taken.aligned taken.at_hand (fun checked => (typed checked).2.2)
    fun checked => (typed checked).1.elim (fun null => by simp [null]) ValueType.ne_any).imp ?_
  rintro v t made
  rw [ends_ite]
  refine ⟨fun _ => ends_pure.mpr (taken.stays.trans ⟨made.same ▸ rfl, made.aside, made.aligned⟩),
    fun some_ => ends_putValue (taken.stays.trans (made.stays fun checked =>
      (typed checked).1.resolve_left some_))⟩

theorem pushResults_aligned {tuple : ValueId} {index : Nat} {type' : ValueType}
    (aligned : Aligned context strict f written extra s)
    (holds : s.builder.HoldsValue strict f s.current tuple type')
    (known : strict = true → ∀ type ∈ types, type.isValue = true) :
    Ends (pushResults tuple index types) s (fun _ t => Stays context strict f written extra s t) Refused := by
  induction types generalizing s index with
  | nil =>
      exact ends_pure.mpr ⟨rfl, .refl aligned.built.sound.formed, aligned⟩
  | cons type types ih =>
      have head (checked : strict = true) : type.isValue = true := known checked type List.mem_cons_self
      rw [pushResults, ends_bind, ends_get, ends_bind]
      refine (ends_makes aligned (Ssa.Builder.project_built aligned.built aligned.inside holds
        fun checked => ValueType.ne_any (head checked))).imp ?_
      rintro v s₁ made
      rw [ends_bind]
      have stays := made.stays head
      refine ends_putValue <| (ih (made.put head) ?_ fun checked type member =>
        known checked type (List.mem_cons_of_mem _ member)).imp fun _ t rest => stays.trans rest
      have current : s₁.current = s.current := by rw [made.same]
      rw [current]
      exact holds.grow made.aside.later made.aside.size aligned.built.sound.formed
        made.aligned.built.sound.formed (.refl f)

theorem call_aligned {index : Nat} {callee : Signature}
    (aligned : Aligned context strict f written extra s)
    (typed : strict = true → (Instruction.call index callee).ValueTyped context) :
    Ends (call index callee) s (fun _ t => Stays context strict f written extra s t) Refused := by
  rw [call, ends_bind]
  have params (checked : strict = true) : ∀ type ∈ callee.params, type.isValue = true := fun type member =>
    (typed checked).1 type (List.mem_append_left _ member)
  have results (checked : strict = true) : ∀ type ∈ callee.results, type.isValue = true := fun type member =>
    (typed checked).1 type (List.mem_append_right _ member)
  refine (takeValues_aligned aligned params).imp ?_
  rintro vs s₁ taken
  have emitted {type : ValueType} (known : strict = true → type ≠ .any) :=
    @emit_aligned context strict f written extra s₁ callee.params type vs Opcode.callByte
      (UInt64.ofNat index) taken.aligned taken.at_hand
      (fun checked => by rw [Opcode.operandTypes_call, (typed checked).2, Option.map_some]) known
  have several : Ends (emit Opcode.callByte .null vs (UInt64.ofNat index) >>= fun tuple =>
      pushResults tuple 0 callee.results) s₁ (fun _ t => Stays context strict f written extra s t) Refused := by
    rw [ends_bind]
    refine (emitted (by simp)).imp fun tuple s₂ made => ?_
    refine (pushResults_aligned made.aligned made.at_hand results).imp fun _ t stays => ?_
    exact (taken.stays.trans ⟨made.same ▸ rfl, made.aside, made.aligned⟩).trans stays
  dsimp only
  split
  · rename_i type single
    have known (checked : strict = true) : type.isValue = true := results checked type (by simp [single])
    rw [ends_bind]
    exact (emitted fun checked => ValueType.ne_any (known checked)).imp fun v s₂ made =>
      ends_putValue (taken.stays.trans (made.stays known))
  · exact several

end Validation

end WasmFunclets
