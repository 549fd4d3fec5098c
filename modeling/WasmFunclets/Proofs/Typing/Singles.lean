import WasmFunclets.Proofs.Typing.Values

/-! Single instructions that have a type are understood where they stand, and carried out. -/

namespace WasmFunclets.Validation

open Attempt
open Typing (Env Known Single)
open TypedStack (Holds Rests)

variable {env : Env} {labels : List (List ValueType)} {line : Line} {s : State}
variable {before after outer types : List ValueType} {strict : Bool}

/-- The open frames are those of the host format and have the given labels. -/
structure Hosts (env : Env) (labels : List (List ValueType)) (s : State) : Prop where
  frames : List.Forall₂ (fun frame types => frame.construct ≠ .region ∧ frame.labelTypes = types)
    s.frames labels
  function : ∃ frame, s.control[0]? = some frame ∧
    frame.signature.results = env.context.signature.results
  locals : s.builder.locals.toList = env.locals
  regions : s.regions = []

theorem Hosts.label (hosts : Hosts env labels s) {depth : Nat}
    (found : labels[depth]? = some types) :
    ∃ frame, s.frame? depth = some frame ∧ frame.labelTypes = types := by
  have size := hosts.frames.length_eq
  obtain ⟨inside, rfl⟩ := List.getElem?_eq_some_iff.mp found
  have inside' : depth < s.frames.length := size.symm ▸ inside
  refine ⟨s.frames[depth], ?_, (hosts.frames.get inside' inside).2⟩
  rw [s.frame?_eq]
  exact List.getElem?_eq_getElem inside'

theorem Hosts.innermost (hosts : Hosts env labels s) :
    ∃ frame, s.frame? 0 = some frame ∧ frame.construct ≠ .region := by
  obtain ⟨frame, bottom, _⟩ := hosts.function
  have some_ : 0 < s.frames.length := by
    rw [s.frames_length]
    exact (Array.getElem?_eq_some_iff.mp bottom).1
  refine ⟨s.frames[0], ?_, (hosts.frames.get some_ (hosts.frames.length_eq ▸ some_)).1⟩
  rw [s.frame?_eq]
  exact List.getElem?_eq_getElem some_

theorem Hosts.depth_lt (hosts : Hosts env labels s) {depth : Nat}
    (found : labels[depth]? = some types) : depth < s.control.size := by
  rw [← s.frames_length, hosts.frames.length_eq]
  exact (List.getElem?_eq_some_iff.mp found).1

theorem Hosts.slot (hosts : Hosts env labels s) {n : Nat} {type : ValueType}
    (slot : env.locals[n]? = some type) : s.builder.locals[n]? = some type := by
  rw [← slot, ← hosts.locals, Array.getElem?_toList]

def widthOf : Form → Nat
  | .load natural _ | .store natural _ => natural
  | _ => 0

theorem alignment_lt {opcode : Opcode} (listed : Opcode.ofByte? opcode.byte = some opcode)
    {natural alignment : Nat} {type : ValueType}
    (access : opcode.form = .load natural type ∨ opcode.form = .store natural type)
    (aligned : Nat.pow 2 alignment ≤ natural) : alignment < 32 := by
  have widths : ∀ row ∈ Opcode.all, widthOf row.form ≤ 8 := by decide +kernel
  have width : natural ≤ 8 := by
    have width := widths opcode (List.mem_of_find?_eq_some listed)
    rcases access with form | form <;> simpa [form, widthOf] using width
  have : alignment < Nat.pow 2 alignment := Nat.lt_two_pow_self
  omega

theorem ne_null {type : ValueType} (known : type.isValue = true) : type ≠ .null := by
  rintro rfl
  simp [ValueType.isValue, ValueType.values] at known

/-- A single instruction is understood, opens no region, and is carried out. -/
theorem execute_single (single : Single env labels line before after)
    (listed : Opcode.ofByte? line.opcode.byte = some line.opcode)
    (typed : env.context.ValueTyped) (hosts : Hosts env labels s)
    (holds : s.stack.Holds (outer ++ before)) :
    line.opcode.form ≠ .funcletRegion ∧
      ∃ i, Decode.resolve (scopeOf ⟨env.context, strict⟩ s) line = some i ∧
        ∀ c, LeavesTypes (execute ⟨env.context, strict⟩ i) (s.fetched c) (outer ++ after) := by
  obtain ⟨top, innermost, plain⟩ := hosts.innermost
  have types := Decode.isValue_of_ofByte? listed
  -- One case for each rule: `resolve` finds the instruction of the line, whose checks then pop what the
  -- rule takes and push what it leaves.
  cases single with
  | unreachable form =>
      refine ⟨by simp [form], .unreachable, by simp only [Decode.resolve, form], fun c => ?_⟩
      refine leavesTypes_bind ((aloof_emitStatement _ _ _).leavesTypes holds) fun _ t near holds => ?_
      exact leavesTypes_endBlock (near.frame? 0 ▸ innermost) plain holds _
  | nop form =>
      exact ⟨by simp [form], .nop, by simp only [Decode.resolve, form], fun c => leavesTypes_pure holds⟩
  | @br opcode depth labelTypes below _ form label =>
      refine ⟨by simp [form], .br depth, by simp only [Decode.resolve, form], fun c => ?_⟩
      obtain ⟨frame, found, rfl⟩ := hosts.label label
      rw [← List.append_assoc] at holds
      refine ends_bind_of_ok (labelled_ok.mpr ⟨found, rfl⟩) ?_
      refine leavesTypes_bind (leavesTypes_shareValues holds) fun args t near holds => ?_
      refine leavesTypes_bind ((aloof_branchTo _ _).leavesTypes holds) fun _ u near' holds => ?_
      refine leavesTypes_endBlock ?_ plain holds _
      rw [near'.frame?, near.frame?]
      exact innermost
  | @brIf opcode depth labelTypes form label =>
      refine ⟨by simp [form], .brIf depth, by simp only [Decode.resolve, form], fun c => ?_⟩
      obtain ⟨frame, found, rfl⟩ := hosts.label label
      rw [← List.append_assoc] at holds
      refine leavesTypes_bind (leavesTypes_takeValue holds) fun condition t near holds => ?_
      refine ends_bind_of_ok (labelled_ok.mpr ⟨(near.frame? _).trans found, rfl⟩) ?_
      refine leavesTypes_bind (leavesTypes_shareValues holds) fun args u _ holds => ?_
      refine leavesTypes_bind ((aloof_emitStatement _ _ _).leavesTypes holds) fun _ v _ holds => ?_
      exact leavesTypes_bind ((aloof_branchTo _ _).leavesTypes holds) fun _ w _ holds =>
        aloof_fallThrough.leavesTypes holds
  | @brTable opcode depths default labelTypes below _ form same =>
      have inside : ∀ depth ∈ depths ++ [default],
          depth < (scopeOf ⟨env.context, strict⟩ s).labels :=
        fun depth member => hosts.depth_lt (same depth member)
      refine ⟨by simp [form], .brTable depths default, ?_, fun c => ?_⟩
      · simp only [Decode.resolve, form]
        exact if_pos inside
      · rw [← List.append_assoc, ← List.append_assoc] at holds
        obtain ⟨frame, found, rfl⟩ := hosts.label (same default (by simp))
        refine leavesTypes_bind (leavesTypes_takeValue holds) fun index t near holds => ?_
        refine leavesTypes_bind ((aloof_emitStatement _ _ _).leavesTypes holds) fun _ u near' holds => ?_
        refine ends_bind_of_ok (labelled_ok.mpr
          ⟨((near'.frame? _).trans (near.frame? _)).trans found, rfl⟩) ?_
        refine leavesTypes_bind (leavesTypes_brTargets (fun depth member => ?_) holds) fun _ v near'' holds => ?_
        · rw [near'.frame?, near.frame?]
          exact hosts.label (same depth member)
        · refine leavesTypes_endBlock ?_ plain holds _
          rw [near''.frame?, near'.frame?, near.frame?]
          exact innermost
  | ret form =>
      refine ⟨by simp [form], .ret, by simp only [Decode.resolve, form], fun c => ?_⟩
      obtain ⟨function, bottom, results⟩ := hosts.function
      rw [← List.append_assoc, ← results] at holds
      have bottom' : (s.fetched c).control[0]? = some function := bottom
      change LeavesTypes (ret _) _ _
      refine leavesTypes_get ?_
      rw [bottom']
      refine leavesTypes_get ?_
      refine leavesTypes_bind (leavesTypes_shareValues holds) fun args t near holds => ?_
      refine leavesTypes_bind ((aloof_branchTo _ _).leavesTypes holds) fun _ u near' holds => ?_
      refine leavesTypes_endBlock ?_ plain holds _
      rw [near'.frame?, near.frame?]
      exact innermost
  | @call opcode n callee form function =>
      refine ⟨by simp [form], .call n callee, ?_, fun c => leavesTypes_call n callee holds⟩
      simp only [Decode.resolve, form]
      exact congrArg (Option.map _) function
  | drop form =>
      refine ⟨by simp [form], .drop, by simp only [Decode.resolve, form], fun c => ?_⟩
      obtain ⟨operand, popped, _⟩ := holds.pop
      rw [List.append_nil]
      exact leavesTypes_onStack_bind popped (TypedStack.rests_without _ holds.above)
        (leavesTypes_pure holds.accepts.2)
  | select form numeric =>
      exact ⟨by simp [form], .select, by simp only [Decode.resolve, form], fun c =>
        leavesTypes_select numeric holds⟩
  | @selectTyped opcode type form =>
      refine ⟨by simp [form], .selectTyped type, by simp only [Decode.resolve, form], fun c => ?_⟩
      have three : outer ++ [type, type, .i32] = outer ++ [type, type] ++ [.i32] := by simp
      rw [three] at holds
      refine leavesTypes_bind (leavesTypes_takeValue holds) fun condition t _ holds => ?_
      refine leavesTypes_bind (leavesTypes_takeValues holds) fun values u _ holds => ?_
      exact leavesTypes_bind ((aloof_emit _ _ _ _).leavesTypes holds) fun value _ _ holds =>
        leavesTypes_putValue value holds
  | @localGet opcode n type form slot =>
      refine ⟨by simp [form], .localGet n type, ?_, fun c => ?_⟩
      · simp only [Decode.resolve, form]
        exact congrArg (Option.map _) (hosts.slot slot)
      · rw [List.append_nil] at holds
        exact leavesTypes_localGet n type holds
  | @localSet opcode n type form slot =>
      refine ⟨by simp [form], .localSet n type, ?_, fun c => ?_⟩
      · simp only [Decode.resolve, form]
        exact congrArg (Option.map _) (hosts.slot slot)
      · rw [List.append_nil]
        exact leavesTypes_bind (leavesTypes_localSet n holds) fun _ _ _ holds => leavesTypes_pure holds
  | @localTee opcode n type form slot =>
      refine ⟨by simp [form], .localTee n type, ?_, fun c => ?_⟩
      · simp only [Decode.resolve, form]
        exact congrArg (Option.map _) (hosts.slot slot)
      · exact leavesTypes_bind (leavesTypes_localSet n holds) fun value _ _ holds => leavesTypes_putValue value holds
  | @globalGet opcode n global form found =>
      refine ⟨by simp [form], .operation opcode.byte [] global.type (UInt64.ofNat n), ?_,
        fun c => ?_⟩
      · simp only [Decode.resolve, form]
        exact congrArg (Option.map _) found
      · have known := typed.globals global (Array.mem_of_getElem? found)
        exact leavesTypes_operation _ _ (ne_null known) holds
  | @globalSet opcode n global form found target =>
      refine ⟨by simp [form], .operation opcode.byte [global.type] .null (UInt64.ofNat n), ?_,
        fun c => ?_⟩
      · have found' : (Decode.context (scopeOf ⟨env.context, strict⟩ s)).globals[n]? =
            some global := found
        simp only [Decode.resolve, form, found', Option.filter, target, if_true, Option.map]
      · rw [List.append_nil]
        exact leavesTypes_statement _ _ holds
  | @load opcode natural alignment offset type form memory aligned =>
      refine ⟨by simp [form], .operation opcode.byte [.i32] type (UInt64.ofNat offset), ?_,
        fun c => ?_⟩
      · simp only [Decode.resolve, form]
        exact if_pos ⟨memory, alignment_lt listed (.inl form) aligned, aligned⟩
      · have known : type.isValue = true := types type (by simp [form, Decode.valueTypes])
        exact leavesTypes_operation _ _ (ne_null known) holds
  | @store opcode natural alignment offset type form memory aligned =>
      refine ⟨by simp [form], .operation opcode.byte [.i32, type] .null (UInt64.ofNat offset), ?_,
        fun c => ?_⟩
      · simp only [Decode.resolve, form]
        exact if_pos ⟨memory, alignment_lt listed (.inr form) aligned, aligned⟩
      · rw [List.append_nil]
        exact leavesTypes_statement _ _ holds
  | @memorySize opcode form memory =>
      refine ⟨by simp [form], .operation opcode.byte [] .i32 0, ?_, fun c => ?_⟩
      · simp only [Decode.resolve, form]
        exact if_pos memory
      · exact leavesTypes_operation _ _ (by decide) holds
  | @memoryGrow opcode form memory =>
      refine ⟨by simp [form], .operation opcode.byte [.i32] .i32 0, ?_, fun c => ?_⟩
      · simp only [Decode.resolve, form]
        exact if_pos memory
      · exact leavesTypes_operation _ _ (by decide) holds
  | @i32Const opcode value form =>
      refine ⟨by simp [form], .constant .i32 (Decode.wordBits 32 value),
        by simp only [Decode.resolve, form], fun c => ?_⟩
      rw [List.append_nil] at holds
      exact leavesTypes_constant _ _ holds
  | @i64Const opcode value form =>
      refine ⟨by simp [form], .constant .i64 (Decode.wordBits 64 value),
        by simp only [Decode.resolve, form], fun c => ?_⟩
      rw [List.append_nil] at holds
      exact leavesTypes_constant _ _ holds
  | @f32Const opcode bytes form =>
      refine ⟨by simp [form], .constant .f32 (UInt64.ofNat (Decode.littleEndian bytes)),
        by simp only [Decode.resolve, form], fun c => ?_⟩
      rw [List.append_nil] at holds
      exact leavesTypes_constant _ _ holds
  | @f64Const opcode bytes form =>
      refine ⟨by simp [form], .constant .f64 (UInt64.ofNat (Decode.littleEndian bytes)),
        by simp only [Decode.resolve, form], fun c => ?_⟩
      rw [List.append_nil] at holds
      exact leavesTypes_constant _ _ holds
  | @unary opcode operand result form =>
      refine ⟨by simp [form], .operation opcode.byte [operand] result 0,
        by simp only [Decode.resolve, form], fun c => ?_⟩
      have known : result.isValue = true := types result (by simp [form, Decode.valueTypes])
      exact leavesTypes_operation _ _ (ne_null known) holds
  | @binary opcode operand result form =>
      refine ⟨by simp [form], .operation opcode.byte [operand, operand] result 0,
        by simp only [Decode.resolve, form], fun c => ?_⟩
      have known : result.isValue = true := types result (by simp [form, Decode.valueTypes])
      exact leavesTypes_operation _ _ (ne_null known) holds

end WasmFunclets.Validation
