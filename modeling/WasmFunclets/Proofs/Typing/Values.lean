import WasmFunclets.Proofs.Course
import WasmFunclets.Proofs.Guards
import WasmFunclets.Proofs.Ssa.NeverRefuses
import WasmFunclets.Proofs.Typed
import WasmFunclets.Proofs.Typing.Holds
import WasmFunclets.Typing.Rules

/-! An instruction that has a type is carried out on every stack that stands for what it takes, and
leaves a stack that stands for what the type says it leaves. -/

namespace WasmFunclets.Validation

open Attempt
open TypedStack (Holds Rests)
open Ssa.Builder (NeverRefuses)

variable {α β : Type} {s t u : State} {types other outer : List ValueType}

/-- The second state has the frames of the first one, and its locals. -/
structure Near (s t : State) : Prop where
  same : t = { s with stack := t.stack, builder := t.builder, current := t.current }
  locals : t.builder.locals = s.builder.locals

theorem Near.refl (s : State) : Near s s := ⟨rfl, rfl⟩

theorem Near.trans (first : Near s t) (second : Near t u) : Near s u where
  same := by rw [second.same, first.same]
  locals := second.locals.trans first.locals

theorem Near.control (near : Near s t) : t.control = s.control := by rw [near.same]

theorem Near.regions (near : Near s t) : t.regions = s.regions := by rw [near.same]

theorem Near.cursor (near : Near s t) : t.cursor = s.cursor := by rw [near.same]

theorem Near.frame? (near : Near s t) (depth : Nat) : t.frame? depth = s.frame? depth := by
  rw [near.same]
  rfl

/-- The attempt refuses nothing, and leaves a stack that stands for the given types. -/
def LeavesTypes (m : Step α) (s : State) (types : List ValueType) : Prop :=
  Ends m s (fun _ t => Near s t ∧ t.stack.Holds types ∧ Rests s.stack t.stack)
    fun e _ => ¬ e.IsRefusal

theorem leavesTypes_bind {m : Step α} {f : α → Step β} (first : LeavesTypes m s types)
    (rest : ∀ a t, Near s t → t.stack.Holds types → LeavesTypes (f a) t other) :
    LeavesTypes (m >>= f) s other := by
  unfold LeavesTypes
  rw [ends_bind]
  refine first.imp fun a t reached => ?_
  obtain ⟨near, holds, rests⟩ := reached
  exact (rest a t near holds).imp fun _ u later =>
    ⟨near.trans later.1, later.2.1, rests.trans later.2.2⟩

theorem leavesTypes_pure {a : α} (holds : s.stack.Holds types) : LeavesTypes (pure a : Step α) s types :=
  ⟨.refl s, holds, .refl holds.above⟩

theorem leavesTypes_get {f : State → Step α} (rest : LeavesTypes (f s) s types) : LeavesTypes (get >>= f) s types :=
  rest

/-- The attempt refuses nothing, and leaves the operands and the frames alone. -/
def Aloof (m : Step α) : Prop :=
  Along (fun s t => Near s t ∧ t.stack = s.stack) (fun e _ _ => ¬ e.IsRefusal) m

instance : Composes (fun s t => Near s t ∧ t.stack = s.stack) fun e _ _ => ¬ e.IsRefusal where
  refl s := ⟨.refl s, rfl⟩
  trans first second := ⟨first.1.trans second.1, second.2.trans first.2⟩
  fails _ unrefused := unrefused

theorem Aloof.leavesTypes {m : Step α} (aloof : Aloof m) (holds : s.stack.Holds types) :
    LeavesTypes m s types := by
  refine (aloof s).imp fun _ t reached => ?_
  obtain ⟨near, stack⟩ := reached
  rw [stack]
  exact ⟨near, holds, .refl holds.above⟩

theorem aloof_onBuilder {m : Attempt Ssa.Builder α} (never : NeverRefuses m) : Aloof (onBuilder m) := fun s =>
  ends_within.mpr <| (never s.builder).imp fun _ _ locals => ⟨⟨rfl, locals⟩, rfl⟩

theorem aloof_moveTo (block : BlockId) : Aloof (moveTo block) := fun _ =>
  ends_modify.mpr ⟨⟨rfl, rfl⟩, rfl⟩

theorem aloof_valueOf (operand : Operand) : Aloof (valueOf operand) := by
  unfold valueOf
  cases operand.value with
  | some _ => exact along_pure _
  | none => exact aloof_onBuilder (Ssa.Builder.undef_neverRefuses _)

theorem aloof_valuesOf (operands : List Operand) : Aloof (valuesOf operands) := by
  induction operands with
  | nil => exact along_pure _
  | cons operand operands ih =>
      rw [valuesOf_cons]
      exact along_bind (aloof_valueOf operand) fun _ => along_bind ih fun _ => along_pure _

theorem aloof_emit (opcode : UInt8) (type : ValueType) (operands : List ValueId)
    (immediate : UInt64) : Aloof (emit opcode type operands immediate) :=
  along_bind along_get fun _ => aloof_onBuilder (Ssa.Builder.emit_neverRefuses _ _ _ _ _)

theorem aloof_emitStatement (opcode : UInt8) (operands : List ValueId) (immediate : Nat) :
    Aloof (emitStatement opcode operands immediate) :=
  along_bind (aloof_emit _ _ _ _) fun _ => along_pure _

theorem aloof_branchTo (target : BlockId) (args : List ValueId) : Aloof (branchTo target args) :=
  along_bind along_get fun _ => aloof_onBuilder (Ssa.Builder.connect_neverRefuses _ _ _)

theorem aloof_followBlock (source : BlockId) : Aloof (followBlock source) := by
  have never : NeverRefuses (follower source) :=
    along_bind (Ssa.Builder.addBlock_neverRefuses _) fun _ =>
      along_bind (Ssa.Builder.connect_neverRefuses _ _ _) fun _ =>
        along_bind (Ssa.Builder.sealBlock_neverRefuses _) fun _ => along_pure _
  exact along_bind (aloof_onBuilder never) fun _ => aloof_moveTo _

theorem aloof_fallThrough : Aloof fallThrough := along_bind along_get fun _ => aloof_followBlock _

theorem aloof_newTarget (kind : Ssa.BlockKind) (params : List ValueType) :
    Aloof (newTarget kind params) :=
  aloof_onBuilder (along_bind (Ssa.Builder.addBlock_neverRefuses _) fun _ =>
    along_bind (Ssa.Builder.declareArguments_neverRefuses _ _) fun _ =>
      along_pure _)

theorem aloof_unreachedBlock : Aloof (do
    let block ← onBuilder do
      let block ← Ssa.Builder.addBlock .body
      Ssa.Builder.sealBlock block
      pure block
    moveTo block) :=
  along_bind (aloof_onBuilder (along_bind (Ssa.Builder.addBlock_neverRefuses _) fun _ =>
    along_bind (Ssa.Builder.sealBlock_neverRefuses _) fun _ => along_pure _))
    fun _ => aloof_moveTo _

theorem leavesTypes_onStack_bind {m : Attempt TypedStack α} {f : α → Step β} {a : α} {k : TypedStack}
    (ok : m s.stack = .ok a k) (rests : Rests s.stack k)
    (rest : LeavesTypes (f a) { s with stack := k } types) : LeavesTypes (onStack m >>= f) s types := by
  refine ends_bind_of_ok (onStack_ok.mpr ⟨k, ok, rfl⟩) (rest.imp fun _ t later => ?_)
  exact ⟨@Near.trans s { s with stack := k } t ⟨rfl, rfl⟩ later.1, later.2.1, rests.trans later.2.2⟩

theorem leavesTypes_onStack {m : Attempt TypedStack α} {a : α} {k : TypedStack}
    (ok : m s.stack = .ok a k) (rests : Rests s.stack k) (holds : k.Holds types) :
    LeavesTypes (onStack m) s types := by
  have done : onStack m s = .ok a { s with stack := k } := onStack_ok.mpr ⟨k, ok, rfl⟩
  rw [LeavesTypes, Ends, done]
  exact ⟨⟨rfl, rfl⟩, holds, rests⟩

theorem leavesTypes_require {p : Prop} [Decidable p] {cause : Cause} (yes : p)
    (holds : s.stack.Holds types) : LeavesTypes (require p cause) s types :=
  ends_require.mpr ⟨fun _ => ⟨.refl s, holds, .refl holds.above⟩, fun no => absurd yes no⟩

theorem leavesTypes_takeValues (holds : s.stack.Holds (outer ++ types)) :
    LeavesTypes (takeValues types) s outer := by
  obtain ⟨accepted, left⟩ := holds.accepts
  exact leavesTypes_onStack_bind (TypedStack.popTypes_ok.mpr ⟨accepted, rfl, rfl⟩)
    (TypedStack.rests_without types holds.above) ((aloof_valuesOf _).leavesTypes left)

theorem leavesTypes_takeValue {type : ValueType} (holds : s.stack.Holds (outer ++ [type])) :
    LeavesTypes (takeValue type) s outer :=
  leavesTypes_bind (leavesTypes_takeValues holds) fun _ _ _ holds => leavesTypes_pure holds

theorem leavesTypes_takeAll (holds : s.stack.Holds types) : LeavesTypes (takeAll types) s [] :=
  leavesTypes_get <| leavesTypes_bind (leavesTypes_require holds.holdsExactly holds) fun _ _ _ holds =>
    @leavesTypes_takeValues _ types [] holds

theorem leavesTypes_putValues (values : List ValueId) (holds : s.stack.Holds outer) :
    LeavesTypes (putValues types values) s (outer ++ types) :=
  @leavesTypes_onStack _ _ _ _ () _ (TypedStack.pushAll_ok.mpr rfl) (TypedStack.rests_extend _ holds.above)
    (holds.extend (TypedStack.fit_of_types (TypedStack.types_withValues _ _)))

theorem leavesTypes_putValue {type : ValueType} (value : ValueId) (holds : s.stack.Holds outer) :
    LeavesTypes (putValue type value) s (outer ++ [type]) :=
  @leavesTypes_onStack _ _ _ _ () _ (TypedStack.push_ok.mpr rfl) (TypedStack.rests_extend _ holds.above)
    (holds.extend (TypedStack.fit_of_types rfl))

theorem leavesTypes_shareValues (holds : s.stack.Holds (outer ++ types)) :
    LeavesTypes (shareValues types) s (outer ++ types) :=
  leavesTypes_bind (leavesTypes_takeValues holds) fun values _ _ holds =>
    leavesTypes_bind (leavesTypes_putValues values holds) fun _ _ _ holds => leavesTypes_pure holds

theorem leavesTypes_reset (values : List (Option ValueId)) (holds : s.stack.Holds outer) :
    LeavesTypes (onStack (TypedStack.reset (TypedStack.withValues types values))) s types := by
  have cleared := TypedStack.rests_cleared false holds.above
  exact @leavesTypes_onStack _ _ _ _ () _ (TypedStack.reset_ok.mpr rfl)
    (cleared.trans (TypedStack.rests_extend _ cleared.above))
    (TypedStack.holds_reset holds.above (TypedStack.types_withValues _ _))

theorem leavesTypes_endBlock {setting : Setting} {frame : Frame} (innermost : s.frame? 0 = some frame)
    (plain : frame.construct ≠ .region) (holds : s.stack.Holds outer) (types : List ValueType) :
    LeavesTypes (endBlock setting) s types := by
  refine ends_bind_of_ok (innermost_ok.mpr ⟨innermost, rfl⟩) ?_
  rw [if_neg plain]
  refine @leavesTypes_onStack_bind _ _ _ _ _ _ () _ (TypedStack.becomePolymorphic_ok.mpr rfl)
    (TypedStack.rests_cleared true holds.above) ?_
  exact aloof_unreachedBlock.leavesTypes (TypedStack.holds_polymorphic holds.above types)

theorem leavesTypes_brTargets {depths : List Nat} {seen : Std.HashSet BlockId}
    (same : ∀ depth ∈ depths, ∃ frame, s.frame? depth = some frame ∧ frame.labelTypes = types)
    (holds : s.stack.Holds (outer ++ types)) :
    LeavesTypes (brTargets types depths seen) s (outer ++ types) := by
  induction depths generalizing s seen with
  | nil => exact leavesTypes_pure holds
  | cons depth depths ih =>
      obtain ⟨frame, found, rfl⟩ := same depth List.mem_cons_self
      refine ends_bind_of_ok (labelled_ok.mpr ⟨found, rfl⟩) ?_
      refine leavesTypes_bind (leavesTypes_require rfl holds) fun _ t near holds => ?_
      refine leavesTypes_bind (leavesTypes_shareValues holds) fun args u near' holds => ?_
      have later (v : State) (near'' : Near u v) (holds : v.stack.Holds (outer ++ frame.labelTypes)) :
          LeavesTypes (brTargets frame.labelTypes depths (seen.insert frame.target)) v
            (outer ++ frame.labelTypes) := by
        refine ih (fun depth member => ?_) holds
        rw [near''.frame?, near'.frame?, near.frame?]
        exact same depth (List.mem_cons_of_mem _ member)
      dsimp only
      split
      · exact later u (.refl u) holds
      · exact leavesTypes_bind ((aloof_branchTo _ _).leavesTypes holds) fun _ v near'' holds => later v near'' holds

theorem leavesTypes_pushResults (tuple : ValueId) (index : Nat) (holds : s.stack.Holds outer) :
    LeavesTypes (pushResults tuple index types) s (outer ++ types) := by
  induction types generalizing s index outer with
  | nil =>
      rw [List.append_nil]
      exact leavesTypes_pure holds
  | cons type types ih =>
      refine leavesTypes_get ?_
      refine leavesTypes_bind ((aloof_onBuilder (Ssa.Builder.project_neverRefuses _ _ _ _)).leavesTypes holds)
        fun value t _ holds => ?_
      refine leavesTypes_bind (leavesTypes_putValue value holds) fun _ u _ holds => ?_
      have all := ih (index + 1) holds
      rwa [List.append_assoc] at all

theorem leavesTypes_call (index : Nat) (callee : Signature) (holds : s.stack.Holds (outer ++ callee.params)) :
    LeavesTypes (call index callee) s (outer ++ callee.results) := by
  refine leavesTypes_bind (leavesTypes_takeValues holds) fun args t _ holds => ?_
  dsimp only
  split
  · rename_i type same
    rw [same]
    exact leavesTypes_bind ((aloof_emit _ _ _ _).leavesTypes holds) fun value _ _ holds =>
      leavesTypes_putValue value holds
  · exact leavesTypes_bind ((aloof_emit _ _ _ _).leavesTypes holds) fun tuple _ _ holds =>
      leavesTypes_pushResults tuple 0 holds

/-- An untyped selection leaves the second operand untyped where it knows no type. -/
theorem leavesTypes_select {type : ValueType} (numeric : type.isNumeric = true)
    (holds : s.stack.Holds (outer ++ [type, type, .i32])) : LeavesTypes select s (outer ++ [type]) := by
  have some_ : type ≠ .any := ValueType.ne_any (ValueType.isValue_of_isNumeric numeric)
  have three : outer ++ [type, type, .i32] = outer ++ [type] ++ [type] ++ [.i32] := by simp
  rw [three] at holds
  refine leavesTypes_bind (leavesTypes_takeValue holds) fun condition t _ holds => ?_
  obtain ⟨second, popped, admitted⟩ := holds.pop
  have left := holds.accepts.2
  refine leavesTypes_onStack_bind popped (TypedStack.rests_without _ holds.above) ?_
  obtain ⟨first, popped', kind⟩ : ∃ first, (if second.type = .any then TypedStack.pop
      else TypedStack.popType second.type) (t.stack.without [type]) =
        .ok first ((t.stack.without [type]).without [type]) ∧
          (first.type = .any ∨ first.type = type) := by
    by_cases unknown : second.type = .any
    · obtain ⟨first, popped', admitted'⟩ := left.pop
      rw [if_pos unknown]
      exact ⟨first, popped', (ValueType.admits_iff.mp admitted').symm⟩
    · obtain same := (ValueType.admits_iff.mp admitted).resolve_right unknown
      obtain ⟨first, popped', same'⟩ := left.popType
      rw [if_neg unknown, same]
      exact ⟨first, popped', .inr same'⟩
  refine leavesTypes_onStack_bind popped' (TypedStack.rests_without _ left.above) ?_
  have rest := left.accepts.2
  have allowed : first.type = .any ∨ first.type.isNumeric = true := by
    rcases kind with unknown | rfl
    · exact .inl unknown
    · exact .inr numeric
  refine leavesTypes_bind (leavesTypes_require allowed rest) fun _ u _ holds => ?_
  refine leavesTypes_bind ((aloof_valuesOf _).leavesTypes holds) fun values v _ holds => ?_
  refine leavesTypes_bind ((aloof_emit _ _ _ _).leavesTypes holds) fun value w _ holds => ?_
  refine @leavesTypes_onStack _ _ _ _ () _ (TypedStack.push_ok.mpr rfl) (TypedStack.rests_extend _ holds.above) ?_
  exact holds.extend (.cons (ValueType.admits_iff.mpr kind.symm) .nil)

theorem leavesTypes_constant (type : ValueType) (bits : UInt64) (holds : s.stack.Holds outer) :
    LeavesTypes (constant type bits) s (outer ++ [type]) :=
  leavesTypes_get <| leavesTypes_bind ((aloof_onBuilder (Ssa.Builder.constant_neverRefuses _ _ _)).leavesTypes holds)
    fun value _ _ holds => leavesTypes_putValue value holds

theorem leavesTypes_localGet (slot : Nat) (type : ValueType) (holds : s.stack.Holds outer) :
    LeavesTypes (localGet slot type) s (outer ++ [type]) :=
  leavesTypes_get <| leavesTypes_bind ((aloof_onBuilder (Ssa.Builder.getLocal_neverRefuses _ _)).leavesTypes holds)
    fun value _ _ holds => leavesTypes_putValue value holds

theorem leavesTypes_localSet (slot : Nat) {type : ValueType} (holds : s.stack.Holds (outer ++ [type])) :
    LeavesTypes (localSet slot type) s outer :=
  leavesTypes_bind (leavesTypes_takeValue holds) fun _ _ _ holds => leavesTypes_get <|
    leavesTypes_bind ((aloof_onBuilder (Ssa.Builder.setLocal_neverRefuses _ _ _)).leavesTypes holds) fun _ _ _ holds =>
      leavesTypes_pure holds

theorem leavesTypes_operation (opcode : UInt8) (immediate : UInt64) {params : List ValueType}
    {result : ValueType} (known : result ≠ .null) (holds : s.stack.Holds (outer ++ params)) :
    LeavesTypes (operation opcode params result immediate) s (outer ++ [result]) := by
  refine leavesTypes_bind (leavesTypes_takeValues holds) fun args t _ holds => ?_
  refine leavesTypes_bind ((aloof_emit _ _ _ _).leavesTypes holds) fun value u _ holds => ?_
  rw [if_neg known]
  exact leavesTypes_putValue value holds

theorem leavesTypes_statement (opcode : UInt8) (immediate : UInt64) {params : List ValueType}
    (holds : s.stack.Holds (outer ++ params)) :
    LeavesTypes (operation opcode params .null immediate) s outer := by
  refine leavesTypes_bind (leavesTypes_takeValues holds) fun args t _ holds => ?_
  exact leavesTypes_bind ((aloof_emit _ _ _ _).leavesTypes holds) fun value u _ holds => leavesTypes_pure holds

end WasmFunclets.Validation
