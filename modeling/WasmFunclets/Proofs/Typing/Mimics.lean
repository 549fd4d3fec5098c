import WasmFunclets.Proofs.Typing.Frames
import WasmFunclets.Proofs.Typing.Mirrors

/-! Two validations side by side, in like frames on operands that compare: what the first one carries
out the second one does not refuse. -/

namespace WasmFunclets

def Instruction.isFunclet : Instruction → Bool
  | .funcletRegion _ _ | .strayFuncletSig | .funcletCall _ | .funcletCallIf _
  | .funcletCallTable _ _ => true
  | _ => false

/-- Constructs of the host format of one kind; what an `if` keeps for its `else` may differ. -/
inductive Construct.Alike : Construct → Construct → Prop where
  | function : Alike .function .function
  | block : Alike .block .block
  | loop : Alike .loop .loop
  | ifThen {condition condition' : BlockId} {params params' : List ValueId} :
      Alike (.ifThen condition params) (.ifThen condition' params')
  | ifElse : Alike .ifElse .ifElse

structure Frame.Alike (f g : Frame) : Prop where
  signature : g.signature = f.signature
  construct : f.construct.Alike g.construct

theorem Frame.Alike.labelTypes {f g : Frame} (alike : f.Alike g) : g.labelTypes = f.labelTypes := by
  obtain ⟨signature, construct⟩ := alike
  unfold Frame.labelTypes
  rw [signature]
  generalize f.construct = a, g.construct = b at construct
  cases construct <;> rfl

theorem Frame.Alike.plain {f g : Frame} (alike : f.Alike g) :
    f.construct ≠ .region ∧ g.construct ≠ .region := by
  have construct := alike.construct
  generalize f.construct = a, g.construct = b at construct
  cases construct <;> exact ⟨Construct.noConfusion, Construct.noConfusion⟩

namespace Validation

open Attempt
open TypedStack (Comparison Mirrors)

variable {α β γ δ : Type} {s t u v : State} {P Q : State → State → Prop} {C : Comparison}
variable {f g : Frame} {types : List ValueType} {setting : Setting} {mark mark' : Mark}

structure Kept (C : Comparison) (s t u v : State) : Prop where
  near : Near s u
  near' : Near t v
  moved : C.Moved s.stack u.stack
  moved' : C.Moved t.stack v.stack
  compares : C.Stacks u.stack v.stack

/-- A relation that compares the operands, and that holds on while the frames stay. -/
structure StackRelation (C : Comparison) (P : State → State → Prop) : Prop where
  compares : ∀ {s t}, P s t → C.Stacks s.stack t.stack
  kept : ∀ {s t u v}, P s t → Kept C s t u v → P u v

theorem Near.frames (near : Near s t) : t.frames = s.frames := by
  rw [State.frames, near.control, State.frames]

/-- Where the first attempt succeeds the second one refuses nothing, and what it ends with is related. -/
def Mimics (P : State → State → Prop) (m : Step α) (m' : Step β)
    (Q : α → β → State → State → Prop) : Prop :=
  ∀ s t, P s t → ∀ a u, m s = .ok a u → Ends m' t (fun b v => Q a b u v) fun e _ => ¬ e.IsRefusal

abbrev Shadows (P : State → State → Prop) (m : Step α) (m' : Step β) : Prop :=
  Mimics P m m' fun _ _ => P

variable {m : Step α} {m' : Step β} {k : α → Step γ} {k' : β → Step δ}
variable {R : α → β → State → State → Prop} {S : γ → δ → State → State → Prop}

theorem mimics_bind (first : Mimics P m m' R) (rest : ∀ a b, Mimics (R a b) (k a) (k' b) S) :
    Mimics P (m >>= k) (m' >>= k') S := by
  intro s t related c u ok
  obtain ⟨a, w, one, two⟩ := bind_ok.mp ok
  rw [ends_bind]
  exact (first s t related a w one).imp fun b x later => rest a b w x later c u two

theorem mimics_pure {a : α} {b : β} (related : ∀ s t, P s t → R a b s t) :
    Mimics P (pure a) (pure b) R := by
  intro s t before _ _ ok
  obtain ⟨rfl, rfl⟩ := pure_ok.mp ok
  exact related s t before

theorem mimics_get {k : State → Step γ} {k' : State → Step δ}
    (rest : ∀ s t, P s t → Mimics P (k s) (k' t) S) : Mimics P (get >>= k) (get >>= k') S :=
  fun s t related => rest s t related s t related

theorem mimics_of_fact {fact : Prop} (rest : fact → Mimics P m m' R) :
    Mimics (fun s t => P s t ∧ fact) m m' R :=
  fun s t related => rest related.2 s t related.1

theorem mimics_of_failure (fails : ∀ {s u a}, m s = .ok a u → False) : Mimics P m m' R :=
  fun _ _ _ _ _ ok => (fails ok).elim

theorem mimics_of_ok (both : ∀ {s t a u}, P s t → m s = .ok a u → ∃ b v, m' t = .ok b v ∧ R a b u v) :
    Mimics P m m' R := by
  intro s t related a u ok
  obtain ⟨b, v, done, after⟩ := both related ok
  rw [Ends, done]
  exact after

theorem Mimics.results {p : α → Prop} {p' : β → Prop} (mimics : Mimics P m m' R)
    (one : ∀ {s a u}, m s = .ok a u → p a) (two : ∀ {t b v}, m' t = .ok b v → p' b) :
    Mimics P m m' fun a b u v => R a b u v ∧ p a ∧ p' b := by
  intro s t related a u ok
  have ends := mimics s t related a u ok
  unfold Ends at ends ⊢
  cases ran : m' t with
  | ok b v =>
      rw [ran] at ends
      exact ⟨ends, one ok, two ran⟩
  | error e v =>
      rw [ran] at ends
      exact ends

theorem mimics_require {p p' : Prop} [Decidable p] [Decidable p'] {cause cause' : Cause}
    (so : p → p') : Shadows P (require p cause) (require p' cause') := by
  intro s t related _ _ ok
  obtain ⟨yes, rfl⟩ := require_ok.mp ok
  exact ends_require.mpr ⟨fun _ => related, fun no => absurd (so yes) no⟩

theorem shadows_of_aloof (stable : StackRelation C P) (aloof : Aloof m) (aloof' : Aloof m') :
    Shadows P m m' := by
  intro s t related a u ok
  obtain ⟨near, same⟩ := (aloof s).of_ok ok
  refine (aloof' t).imp fun b v reached => ?_
  obtain ⟨near', same'⟩ := reached
  have compares := stable.compares related
  obtain ⟨unmoved, unmoved'⟩ := C.unmoved compares
  refine stable.kept related ⟨near, near', ?_, ?_, ?_⟩
  · rwa [same]
  · rwa [same']
  · rwa [same, same']

theorem mimics_onStack {m : Attempt TypedStack α} {m' : Attempt TypedStack β} {R : α → β → Prop}
    (stable : StackRelation C P) (mirrors : Mirrors C.Stacks C.Moved m m' R) :
    Mimics P (onStack m) (onStack m') fun a b s t => P s t ∧ R a b := by
  intro s t related a u ok
  obtain ⟨x, changed, rfl⟩ := onStack_ok.mp ok
  obtain ⟨b, y, changed', same, compares, moved, moved'⟩ :=
    mirrors s.stack t.stack a x (stable.compares related) changed
  have done : onStack m' t = .ok b { t with stack := y } := onStack_ok.mpr ⟨y, changed', rfl⟩
  rw [Ends, done]
  exact ⟨stable.kept related ⟨⟨rfl, rfl⟩, ⟨rfl, rfl⟩, moved, moved', compares⟩, same⟩

theorem shadows_onStack {m : Attempt TypedStack α} {m' : Attempt TypedStack β} (stable : StackRelation C P)
    (mirrors : Mirrors C.Stacks C.Moved m m' fun _ _ => True) : Shadows P (onStack m) (onStack m') :=
  fun s t related a u ok => (mimics_onStack stable mirrors s t related a u ok).imp
    fun _ _ reached => reached.1

theorem shadows_takeValues (stable : StackRelation C P) (types : List ValueType) :
    Shadows P (takeValues types) (takeValues types) :=
  mimics_bind (shadows_onStack stable (C.popTypes types)) fun _ _ =>
    shadows_of_aloof stable (aloof_valuesOf _) (aloof_valuesOf _)

theorem shadows_takeValue (stable : StackRelation C P) (type : ValueType) :
    Shadows P (takeValue type) (takeValue type) :=
  mimics_bind (shadows_takeValues stable _) fun _ _ =>
    shadows_of_aloof stable (along_pure _) (along_pure _)

theorem compares_withValues (C : Comparison) (types : List ValueType)
    (values values' : List (Option ValueId)) :
    List.Forall₂ (fun a b : Operand => C.Types a.type b.type) (TypedStack.withValues types values)
      (TypedStack.withValues types values') := by
  refine List.forall₂_map_left_iff.mp (List.forall₂_map_right_iff.mp ?_)
  rw [TypedStack.types_withValues, TypedStack.types_withValues]
  exact List.forall₂_same.mpr fun type _ => C.refl type

theorem shadows_putValues (stable : StackRelation C P) (types : List ValueType)
    (values values' : List ValueId) :
    Shadows P (putValues types values) (putValues types values') :=
  shadows_onStack stable (C.pushAll (compares_withValues C types _ _))

theorem shadows_putValue (stable : StackRelation C P) {type type' : ValueType} (compares : C.Types type type')
    (value value' : ValueId) : Shadows P (putValue type value) (putValue type' value') :=
  shadows_onStack stable (@Comparison.pushAll C [⟨type, some value⟩] [⟨type', some value'⟩]
    (.cons compares .nil))

theorem shadows_shareValues (stable : StackRelation C P) (types : List ValueType) :
    Shadows P (shareValues types) (shareValues types) :=
  mimics_bind (shadows_takeValues stable types) fun _ _ =>
    mimics_bind (shadows_putValues stable types _ _) fun _ _ => mimics_pure fun _ _ => id

theorem shadows_takeAll (stable : StackRelation C P) (types : List ValueType) :
    Shadows P (takeAll types) (takeAll types) := by
  refine mimics_get fun s t related => ?_
  exact mimics_bind (mimics_require fun left => C.holdsExactly (stable.compares related) left)
    fun _ _ => shadows_takeValues stable types

theorem shadows_takeResults (stable : StackRelation C P) (alike : f.Alike g) :
    Shadows P (takeAll f.signature.results) (takeAll g.signature.results) := by
  rw [alike.signature]
  exact shadows_takeAll stable _

theorem shadows_reset (stable : StackRelation C P) (types : List ValueType)
    (values values' : List (Option ValueId)) :
    Shadows P (onStack (TypedStack.reset (TypedStack.withValues types values)))
      (onStack (TypedStack.reset (TypedStack.withValues types values'))) :=
  shadows_onStack stable (C.reset (compares_withValues C types _ _))

theorem shadows_branchTo (stable : StackRelation C P) (target target' : BlockId)
    (args args' : List ValueId) : Shadows P (branchTo target args) (branchTo target' args') :=
  shadows_of_aloof stable (aloof_branchTo _ _) (aloof_branchTo _ _)

theorem shadows_emitStatement (stable : StackRelation C P) (opcode opcode' : UInt8)
    (operands operands' : List ValueId) (immediate immediate' : Nat) :
    Shadows P (emitStatement opcode operands immediate)
      (emitStatement opcode' operands' immediate') :=
  shadows_of_aloof stable (aloof_emitStatement _ _ _) (aloof_emitStatement _ _ _)

theorem shadows_builder (stable : StackRelation C P) {m : Attempt Ssa.Builder α}
    {m' : Attempt Ssa.Builder β} (never : Ssa.Builder.NeverRefuses m) (never' : Ssa.Builder.NeverRefuses m') :
    Shadows P (onBuilder m) (onBuilder m') :=
  shadows_of_aloof stable (aloof_onBuilder never) (aloof_onBuilder never')

theorem aloof_unless (known : Bool) {m : Step Unit} (aloof : Aloof m) :
    Aloof (if known = true then pure () else m) := by
  split
  · exact along_pure _
  · exact aloof

theorem unless_bind (known : Bool) (m : Step Unit) (rest : Step α) :
    (if known = true then rest else m >>= fun _ => rest) =
      (if known = true then pure () else m) >>= fun _ => rest := by
  split <;> rfl

theorem shadows_pushResults (stable : StackRelation C P) (types : List ValueType) (tuple tuple' : ValueId)
    (index : Nat) : Shadows P (pushResults tuple index types) (pushResults tuple' index types) := by
  induction types generalizing index with
  | nil => exact mimics_pure fun _ _ => id
  | cons type types ih =>
      refine mimics_get fun s t _ => ?_
      refine mimics_bind (shadows_builder stable (Ssa.Builder.project_neverRefuses _ _ _ _)
        (Ssa.Builder.project_neverRefuses _ _ _ _)) fun _ _ => ?_
      exact mimics_bind (shadows_putValue stable (C.refl _) _ _)
        fun _ _ => ih _

theorem shadows_emit (stable : StackRelation C P) (opcode : UInt8) (type type' : ValueType)
    (operands operands' : List ValueId) (immediate : UInt64) :
    Shadows P (emit opcode type operands immediate) (emit opcode type' operands' immediate) :=
  shadows_of_aloof stable (aloof_emit _ _ _ _) (aloof_emit _ _ _ _)

theorem shadows_call (stable : StackRelation C P) (index : Nat) (callee : Signature) :
    Shadows P (call index callee) (call index callee) := by
  refine mimics_bind (shadows_takeValues stable _) fun _ _ => ?_
  dsimp only
  split
  · exact mimics_bind (shadows_emit stable _ _ _ _ _ _) fun _ _ =>
      shadows_putValue stable (C.refl _) _ _
  · exact mimics_bind (shadows_emit stable _ _ _ _ _ _) fun _ _ => shadows_pushResults stable _ _ _ _

theorem shadows_select (stable : StackRelation C P) : Shadows P select select := by
  refine mimics_bind (shadows_takeValue stable _) fun _ _ => ?_
  refine mimics_bind (mimics_onStack stable C.pop) fun second second' => ?_
  refine mimics_of_fact fun compares => ?_
  refine mimics_bind (mimics_onStack stable (C.popLike compares)) fun first first' => ?_
  refine mimics_of_fact fun compares => ?_
  refine mimics_bind (mimics_require ?_) fun _ _ => ?_
  · rintro typed
    rcases ValueType.admits_iff.mp (C.admits compares) with same | unknown
    · rw [same]
      exact typed
    · exact .inl unknown
  · refine mimics_bind (shadows_of_aloof stable (aloof_valuesOf _) (aloof_valuesOf _)) fun _ _ => ?_
    exact mimics_bind (shadows_emit stable _ _ _ _ _ _) fun _ _ => shadows_putValue stable compares _ _

theorem shadows_localSet (stable : StackRelation C P) (slot : Nat) (type : ValueType) :
    Shadows P (localSet slot type) (localSet slot type) :=
  mimics_bind (shadows_takeValue stable type) fun _ _ => mimics_get fun _ _ _ =>
    mimics_bind (shadows_builder stable (Ssa.Builder.setLocal_neverRefuses _ _ _)
      (Ssa.Builder.setLocal_neverRefuses _ _ _)) fun _ _ => mimics_pure fun _ _ => id

theorem shadows_operation (stable : StackRelation C P) (opcode : UInt8) (params : List ValueType)
    (result : ValueType) (immediate : UInt64) :
    Shadows P (operation opcode params result immediate)
      (operation opcode params result immediate) := by
  refine mimics_bind (shadows_takeValues stable _) fun _ _ => ?_
  refine mimics_bind (shadows_emit stable _ _ _ _ _ _) fun _ _ => ?_
  split
  · exact mimics_pure fun _ _ => id
  · exact shadows_putValue stable (C.refl _) _ _

/-- What relates two validations between two instructions, inside of frames that are still to be pushed,
in their innermost frames, and outside of frames that are still to be popped. It leaves open what a
region does at the end of one of its funclets. -/
structure Pairing (setting : Setting) where
  comparison : Comparison
  Held : State → State → Prop
  Inward : Mark → Mark → State → State → Prop
  Within : Frame → Frame → State → State → Prop
  Outward : State → State → Prop
  held : StackRelation comparison Held
  inward : ∀ m m', StackRelation comparison (Inward m m')
  within_ : ∀ f g, StackRelation comparison (Within f g)
  outward : StackRelation comparison Outward
  inside : ∀ {f g s t}, Within f g s t → Held s t
  alike : ∀ {f g s t}, Within f g s t →
    f.Alike g ∨ f.construct = .region ∧ g.construct = .region
  labelled : ∀ depth, Mimics Held (labelled depth) (labelled depth)
    fun f g s t => Held s t ∧ g.labelTypes = f.labelTypes
  function : ∀ {s t}, Held s t →
    t.control[0]?.map Frame.signature = s.control[0]?.map Frame.signature
  innermost : Mimics Held innermost innermost Within
  enter : ∀ params, Mimics Held (onStack (TypedStack.enter params))
    (onStack (TypedStack.enter params)) Inward
  pushFrame : ∀ {kind kind' m m'} signature block block', kind.Alike kind' → kind ≠ .function →
    Mimics (Inward m m') (pushFrame signature m block kind) (pushFrame signature m' block' kind')
      fun _ _ => Held
  turn : ∀ {f g}, (∃ condition params, f.construct = .ifThen condition params) → f.Alike g →
    Mimics (Within f g)
      (modify fun s => { s with control := s.control.pop.push { f with construct := .ifElse } })
      (modify fun s => { s with control := s.control.pop.push { g with construct := .ifElse } })
      fun _ _ => Held
  leave : ∀ {f g}, f.construct ≠ .function → Mimics (Within f g) (onStack (TypedStack.leave f.mark))
    (onStack (TypedStack.leave g.mark)) fun _ _ => Outward
  ends : ∀ {f g s t}, Within f g s t → f.construct = .function → Outward s t
  popFrame : Mimics Outward popFrame popFrame fun _ _ => Held
  nextFunclet : ∀ {f g}, f.construct = .region →
    Mimics (Within f g) (nextFunclet setting) (nextFunclet setting) fun _ _ => Held
  closeFunclet : ∀ {f g}, f.construct = .region →
    Mimics (Within f g) (closeFunclet setting f) (closeFunclet setting g) fun _ _ => Held

namespace Pairing

variable (pairing : Pairing setting)

theorem shadows_endBlock : Shadows pairing.Held (endBlock setting) (endBlock setting) := by
  refine mimics_bind pairing.innermost fun f g => ?_
  intro s t within_
  rcases pairing.alike within_ with alike | ⟨region, region'⟩
  · obtain ⟨plain, plain'⟩ := alike.plain
    rw [if_neg plain, if_neg plain']
    exact (mimics_bind (shadows_onStack pairing.held pairing.comparison.becomePolymorphic) fun _ _ =>
      shadows_of_aloof pairing.held aloof_unreachedBlock aloof_unreachedBlock) s t
      (pairing.inside within_)
  · rw [if_pos region, if_pos region']
    exact pairing.nextFunclet region s t within_

theorem shadows_br (depth : Nat) : Shadows pairing.Held (br setting depth) (br setting depth) := by
  refine mimics_bind (pairing.labelled depth) fun f g => mimics_of_fact fun types => ?_
  rw [types]
  exact mimics_bind (shadows_shareValues pairing.held _) fun _ _ =>
    mimics_bind (shadows_branchTo pairing.held _ _ _ _) fun _ _ => pairing.shadows_endBlock

theorem shadows_brIf (depth : Nat) : Shadows pairing.Held (brIf depth) (brIf depth) := by
  refine mimics_bind (shadows_takeValue pairing.held _) fun _ _ => ?_
  refine mimics_bind (pairing.labelled depth) fun f g => mimics_of_fact fun types => ?_
  rw [types]
  refine mimics_bind (shadows_shareValues pairing.held _) fun _ _ => ?_
  refine mimics_bind (shadows_emitStatement pairing.held _ _ _ _ _ _) fun _ _ => ?_
  exact mimics_bind (shadows_branchTo pairing.held _ _ _ _) fun _ _ =>
    shadows_of_aloof pairing.held aloof_fallThrough aloof_fallThrough

theorem shadows_brTargets (expected : List ValueType) (depths : List Nat)
    (seen seen' : Std.HashSet BlockId) :
    Shadows pairing.Held (brTargets expected depths seen) (brTargets expected depths seen') := by
  induction depths generalizing seen seen' with
  | nil => exact mimics_pure fun _ _ => id
  | cons depth depths ih =>
      refine mimics_bind (pairing.labelled depth) fun f g => mimics_of_fact fun types => ?_
      rw [types]
      refine mimics_bind (mimics_require id) fun _ _ => ?_
      refine mimics_bind (shadows_shareValues pairing.held _) fun args args' => ?_
      dsimp only
      rw [unless_bind, unless_bind]
      exact mimics_bind (shadows_of_aloof pairing.held (aloof_unless _ (aloof_branchTo _ _))
        (aloof_unless _ (aloof_branchTo _ _))) fun _ _ => ih _ _

theorem shadows_brTable (depths : List Nat) (default : Nat) :
    Shadows pairing.Held (brTable setting depths default) (brTable setting depths default) := by
  refine mimics_bind (shadows_takeValue pairing.held _) fun _ _ => ?_
  refine mimics_bind (shadows_emitStatement pairing.held _ _ _ _ _ _) fun _ _ => ?_
  refine mimics_bind (pairing.labelled default) fun f g => mimics_of_fact fun types => ?_
  rw [types]
  exact mimics_bind (pairing.shadows_brTargets _ _ _ _) fun _ _ => pairing.shadows_endBlock

theorem shadows_ret : Shadows pairing.Held (ret setting) (ret setting) := by
  refine mimics_get fun s t held => ?_
  have signature := pairing.function held
  cases bottom : s.control[0]? with
  | none =>
      rw [bottom, Option.map_none, Option.map_eq_none_iff] at signature
      rw [signature]
      exact mimics_bind (mimics_of_failure violate_ok.mp) fun _ _ => pairing.shadows_endBlock
  | some f =>
      rw [bottom, Option.map_some, Option.map_eq_some_iff] at signature
      obtain ⟨g, bottom', same⟩ := signature
      rw [bottom']
      refine mimics_get fun _ _ _ => ?_
      dsimp only
      rw [same]
      exact mimics_bind (shadows_shareValues pairing.held _) fun _ _ =>
        mimics_bind (shadows_branchTo pairing.held _ _ _ _) fun _ _ => pairing.shadows_endBlock

theorem shadows_openBlock (signature : Signature) :
    Shadows pairing.Held (openBlock signature) (openBlock signature) := by
  refine mimics_bind (shadows_of_aloof pairing.held (aloof_newTarget _ _) (aloof_newTarget _ _))
    fun _ _ => ?_
  exact mimics_bind (pairing.enter _) fun _ _ => pairing.pushFrame _ _ _ .block (by simp)

theorem shadows_openLoop (signature : Signature) :
    Shadows pairing.Held (openLoop signature) (openLoop signature) := by
  refine mimics_bind (shadows_of_aloof pairing.held (aloof_newTarget _ _) (aloof_newTarget _ _))
    fun _ _ => ?_
  refine mimics_bind (shadows_shareValues pairing.held _) fun _ _ => ?_
  refine mimics_bind (shadows_branchTo pairing.held _ _ _ _) fun _ _ => ?_
  refine mimics_bind (pairing.enter _) fun m m' => ?_
  have stable := pairing.inward m m'
  refine mimics_bind (shadows_of_aloof stable (aloof_moveTo _) (aloof_moveTo _)) fun _ _ => ?_
  refine mimics_bind (shadows_builder stable (Ssa.Builder.args_neverRefuses _) (Ssa.Builder.args_neverRefuses _))
    fun _ _ => ?_
  exact mimics_bind (shadows_reset stable _ _ _) fun _ _ => pairing.pushFrame _ _ _ .loop (by simp)

theorem shadows_openIf (signature : Signature) :
    Shadows pairing.Held (openIf signature) (openIf signature) := by
  refine mimics_bind (shadows_takeValue pairing.held _) fun _ _ => ?_
  refine mimics_bind (shadows_shareValues pairing.held _) fun _ _ => ?_
  refine mimics_bind (shadows_emitStatement pairing.held _ _ _ _ _ _) fun _ _ => ?_
  refine mimics_bind (pairing.enter _) fun m m' => ?_
  have stable := pairing.inward m m'
  refine mimics_bind (shadows_of_aloof stable (aloof_newTarget _ _) (aloof_newTarget _ _)) fun _ _ => ?_
  refine mimics_get fun _ _ _ => ?_
  exact mimics_bind (shadows_of_aloof stable aloof_fallThrough aloof_fallThrough) fun _ _ =>
    pairing.pushFrame _ _ _ .ifThen (by simp)

theorem shadows_openElse : Shadows pairing.Held openElse openElse := by
  refine mimics_bind pairing.innermost fun f g => ?_
  intro s t within_
  have stable := pairing.within_ f g
  rcases pairing.alike within_ with alike | ⟨region, -⟩
  · have construct := alike.construct
    generalize isF : f.construct = a, isG : g.construct = b at construct
    cases construct with
    | ifThen =>
        refine mimics_bind (shadows_takeResults stable alike) (fun _ _ => ?_) s t within_
        refine mimics_bind (shadows_branchTo stable _ _ _ _) fun _ _ => ?_
        refine mimics_bind (pairing.turn ⟨_, _, isF⟩ alike) fun _ _ => ?_
        refine mimics_bind (shadows_of_aloof pairing.held (aloof_followBlock _) (aloof_followBlock _))
          fun _ _ => ?_
        rw [alike.signature]
        exact shadows_reset pairing.held _ _ _
    | _ => exact mimics_of_failure reject_ok.mp s t within_
  · rw [region]
    exact mimics_of_failure reject_ok.mp s t within_

theorem mimics_closeJoin (alike : f.Alike g) (inner : f.construct ≠ .function)
    (results results' : List ValueId) :
    Mimics (pairing.Within f g) (closeJoin f results) (closeJoin g results')
      fun _ _ => pairing.Held := by
  have stable := pairing.within_ f g
  refine mimics_bind (shadows_branchTo stable _ _ _ _) fun _ _ => ?_
  refine mimics_bind (shadows_builder stable (Ssa.Builder.sealBlock_neverRefuses _)
    (Ssa.Builder.sealBlock_neverRefuses _)) fun _ _ => ?_
  refine mimics_bind (pairing.leave inner) fun _ _ => ?_
  have stable := pairing.outward
  refine mimics_bind (shadows_of_aloof stable (aloof_moveTo _) (aloof_moveTo _)) fun _ _ => ?_
  refine mimics_bind (shadows_builder stable (Ssa.Builder.args_neverRefuses _) (Ssa.Builder.args_neverRefuses _))
    fun _ _ => ?_
  rw [alike.signature]
  exact mimics_bind (shadows_putValues stable _ _ _) fun _ _ => pairing.popFrame

theorem mimics_closeLoop (alike : f.Alike g) (inner : f.construct ≠ .function)
    (results results' : List ValueId) :
    Mimics (pairing.Within f g) (closeLoop f results) (closeLoop g results')
      fun _ _ => pairing.Held := by
  refine mimics_bind (shadows_builder (pairing.within_ f g) (Ssa.Builder.sealBlock_neverRefuses _)
    (Ssa.Builder.sealBlock_neverRefuses _)) fun _ _ => ?_
  refine mimics_bind (pairing.leave inner) fun _ _ => ?_
  rw [alike.signature]
  exact mimics_bind (shadows_putValues pairing.outward _ _ _) fun _ _ => pairing.popFrame

theorem mimics_closeFunction (function : f.construct = .function) (results results' : List ValueId) :
    Mimics (pairing.Within f g) (closeFunction f results) (closeFunction g results')
      fun _ _ => pairing.Held := by
  have stable := pairing.within_ f g
  refine mimics_bind (shadows_branchTo stable _ _ _ _) fun _ _ => ?_
  refine mimics_bind (shadows_builder stable (Ssa.Builder.sealBlock_neverRefuses _)
    (Ssa.Builder.sealBlock_neverRefuses _)) fun _ _ => ?_
  exact fun s t within_ => pairing.popFrame s t (pairing.ends within_ function)

theorem shadows_skipBranch (stable : StackRelation C P) (alike : f.Alike g) (condition condition' : BlockId)
    (params params' : List ValueId) :
    Shadows P (skipBranch f condition params) (skipBranch g condition' params') := by
  obtain ⟨⟨types, results⟩, _, _, _, _⟩ := f
  obtain ⟨_, _, _, _, _⟩ := g
  cases alike.signature
  exact mimics_bind (mimics_require id) fun _ _ =>
    shadows_builder stable (Ssa.Builder.connect_neverRefuses _ _ _) (Ssa.Builder.connect_neverRefuses _ _ _)

theorem shadows_close : Shadows pairing.Held (close setting) (close setting) := by
  refine mimics_bind pairing.innermost fun f g => ?_
  intro s t within_
  have stable := pairing.within_ f g
  rcases pairing.alike within_ with alike | ⟨region, region'⟩
  · have takes := shadows_takeResults stable alike
    have construct := alike.construct
    generalize isF : f.construct = a, isG : g.construct = b at construct
    cases construct
    case function =>
      exact mimics_bind takes (fun _ _ => pairing.mimics_closeFunction isF _ _) s t within_
    case block | ifElse =>
      exact mimics_bind takes (fun _ _ => pairing.mimics_closeJoin alike (by simp [isF]) _ _) s t within_
    case loop =>
      exact mimics_bind takes (fun _ _ => pairing.mimics_closeLoop alike (by simp [isF]) _ _) s t within_
    case ifThen =>
      refine mimics_bind takes (fun _ _ => ?_) s t within_
      exact mimics_bind (shadows_skipBranch stable alike _ _ _ _) fun _ _ =>
        pairing.mimics_closeJoin alike (by simp [isF]) _ _
  · rw [region, region']
    exact pairing.closeFunclet region s t within_

/-- Each instruction of the host format keeps the two validations in step. -/
theorem shadows_host {i : Instruction} (host : i.isFunclet = false) :
    Shadows pairing.Held (execute setting i) (execute setting i) := by
  have stable := pairing.held
  have same := pairing.comparison.refl
  cases i with
  | unreachable =>
      exact mimics_bind (shadows_emitStatement stable _ _ _ _ _ _) fun _ _ => pairing.shadows_endBlock
  | nop => exact mimics_pure fun _ _ => id
  | block signature => exact pairing.shadows_openBlock signature
  | loop signature => exact pairing.shadows_openLoop signature
  | ifThen signature => exact pairing.shadows_openIf signature
  | elseThen => exact pairing.shadows_openElse
  | close => exact pairing.shadows_close
  | br depth => exact pairing.shadows_br depth
  | brIf depth => exact pairing.shadows_brIf depth
  | brTable depths default => exact pairing.shadows_brTable depths default
  | ret => exact pairing.shadows_ret
  | call index callee => exact shadows_call stable index callee
  | drop =>
      refine mimics_bind (mimics_onStack stable pairing.comparison.pop) fun _ _ => ?_
      exact mimics_pure fun _ _ related => related.1
  | select => exact shadows_select stable
  | selectTyped type =>
      refine mimics_bind (shadows_takeValue stable _) fun _ _ => ?_
      refine mimics_bind (shadows_takeValues stable _) fun _ _ => ?_
      exact mimics_bind (shadows_emit stable _ _ _ _ _ _) fun _ _ =>
        shadows_putValue stable (same type) _ _
  | localGet slot type =>
      refine mimics_get fun _ _ _ => ?_
      exact mimics_bind (shadows_builder stable (Ssa.Builder.getLocal_neverRefuses _ _)
        (Ssa.Builder.getLocal_neverRefuses _ _)) fun _ _ => shadows_putValue stable (same type) _ _
  | localSet slot type =>
      exact mimics_bind (shadows_localSet stable slot type) fun _ _ => mimics_pure fun _ _ => id
  | localTee slot type =>
      exact mimics_bind (shadows_localSet stable slot type) fun _ _ =>
        shadows_putValue stable (same type) _ _
  | constant type bits =>
      refine mimics_get fun _ _ _ => ?_
      exact mimics_bind (shadows_builder stable (Ssa.Builder.constant_neverRefuses _ _ _)
        (Ssa.Builder.constant_neverRefuses _ _ _)) fun _ _ => shadows_putValue stable (same type) _ _
  | operation opcode params result immediate =>
      exact shadows_operation stable opcode params result immediate
  | funcletRegion | strayFuncletSig | funcletCall | funcletCallIf | funcletCallTable => cases host

end Pairing

end Validation

end WasmFunclets
