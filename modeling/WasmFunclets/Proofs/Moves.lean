import WasmFunclets.Proofs.Shift

/-! How each instruction moves from one state of a validation to the next. -/

namespace WasmFunclets.Validation

open Attempt

variable {α β : Type} {s t u : State}

def StaysInFrame (m : Step α) : Prop :=
  Along (fun s t => Framed s → Quiet s t) (fun _ _ _ => True) m

instance : Composes (fun s t : State => Framed s → Quiet s t) fun (_ : Fault) _ _ => True where
  refl _ framed := .refl framed.above
  trans first second framed := (first framed).trans (second (framed.quiet (first framed)))
  fails _ _ := trivial

theorem StaysInFrame.quiet {m : Step α} {a : α} (stays : StaysInFrame m) (framed : Framed s)
    (ok : m s = .ok a t) : Quiet s t := (stays s).of_ok ok framed

theorem staysInFrame_of_ok {m : Step α}
    (each : ∀ {s t : State} {a : α}, Framed s → m s = .ok a t → Quiet s t) : StaysInFrame m :=
  fun _ => ends_of_forall (fun _ _ ok framed => each framed ok) fun _ _ _ => trivial

theorem staysInFrame_require (p : Prop) [Decidable p] (cause : Cause) :
    StaysInFrame (require p cause : Step Unit) := along_require p cause fun _ => trivial

theorem labelled_staysInFrame (depth : Nat) : StaysInFrame (labelled depth) := by
  refine staysInFrame_of_ok fun {s t b} framed ok => ?_
  obtain ⟨_, rfl⟩ := labelled_ok.mp ok
  exact .refl framed.above

theorem regionOperands_staysInFrame : StaysInFrame regionOperands := by
  refine staysInFrame_of_ok fun {s t b} framed ok => ?_
  obtain ⟨_, _, _, rfl⟩ := regionOperands_ok.mp ok
  exact .refl framed.above

theorem operandsUnreachable_staysInFrame : StaysInFrame operandsUnreachable := by
  refine staysInFrame_of_ok fun {s t b} framed ok => ?_
  obtain ⟨_, _, _, rfl⟩ := operandsUnreachable_ok.mp ok
  exact .refl framed.above

theorem onBuilder_staysInFrame {change : Attempt Ssa.Builder α} (leaves : Leaves Ssa.Builder.locals change) :
    StaysInFrame (onBuilder change) := by
  refine staysInFrame_of_ok fun {s t b} framed ok => ?_
  obtain ⟨_, built, rfl⟩ := onBuilder_ok.mp ok
  exact .of_parts (.refl framed.above) (leaves.of_ok built) .inl

theorem onStack_staysInFrame {change : Attempt TypedStack α}
    (rests : ∀ {s t : TypedStack} {a : α}, s.floor ≤ s.height → change s = .ok a t →
      s.Rests t ∧ t.polymorphic = s.polymorphic) : StaysInFrame (onStack change) := by
  refine staysInFrame_of_ok fun {s t b} framed ok => ?_
  obtain ⟨_, changed, rfl⟩ := onStack_ok.mp ok
  obtain ⟨rests, even⟩ := rests framed.above changed
  exact .of_parts rests rfl fun polymorphic => .inl (even ▸ polymorphic)

theorem popTypes_staysInFrame (types : List ValueType) : StaysInFrame (onStack (TypedStack.popTypes types)) :=
  onStack_staysInFrame fun above ok => by
    obtain ⟨_, _, rfl⟩ := TypedStack.popTypes_ok.mp ok
    exact ⟨TypedStack.rests_without types above, rfl⟩

theorem pushAll_staysInFrame (operands : List Operand) : StaysInFrame (onStack (TypedStack.pushAll operands)) :=
  onStack_staysInFrame fun above ok => by
    obtain rfl := TypedStack.pushAll_ok.mp ok
    exact ⟨TypedStack.rests_extend operands above, rfl⟩

theorem putValue_staysInFrame (type : ValueType) (value : ValueId) : StaysInFrame (putValue type value) :=
  onStack_staysInFrame fun above ok => by
    obtain rfl := TypedStack.push_ok.mp ok
    exact ⟨TypedStack.rests_extend _ above, rfl⟩

theorem putValues_staysInFrame (types : List ValueType) (values : List ValueId) :
    StaysInFrame (putValues types values) := pushAll_staysInFrame _

theorem valuesOf_staysInFrame (operands : List Operand) : StaysInFrame (valuesOf operands) := by
  refine staysInFrame_of_ok fun {s t b} framed ok => ?_
  obtain ⟨_, supplied, rfl⟩ := valuesOf_ok.mp ok
  exact .of_parts (.refl framed.above) ((supply_leaves operands).of_ok supplied) .inl

theorem takeValues_staysInFrame (types : List ValueType) : StaysInFrame (takeValues types) :=
  along_bind (popTypes_staysInFrame types) valuesOf_staysInFrame

theorem takeValue_staysInFrame (type : ValueType) : StaysInFrame (takeValue type) :=
  along_bind (takeValues_staysInFrame _) fun _ => along_pure _

theorem shareValues_staysInFrame (types : List ValueType) : StaysInFrame (shareValues types) :=
  along_bind (takeValues_staysInFrame _) fun _ => along_bind (putValues_staysInFrame _ _) fun _ => along_pure _

theorem takeAll_staysInFrame (types : List ValueType) : StaysInFrame (takeAll types) :=
  along_bind along_get fun _ => along_bind (staysInFrame_require _ _) fun _ => takeValues_staysInFrame _

theorem emit_staysInFrame (opcode : UInt8) (type : ValueType) (operands : List ValueId)
    (immediate : UInt64) : StaysInFrame (emit opcode type operands immediate) :=
  along_bind along_get fun _ => onBuilder_staysInFrame (Ssa.Builder.emit_leaves _ _ _ _ _)

theorem emitStatement_staysInFrame (opcode : UInt8) (operands : List ValueId) (immediate : Nat) :
    StaysInFrame (emitStatement opcode operands immediate) :=
  along_bind (emit_staysInFrame _ _ _ _) fun _ => along_pure _

theorem branchTo_staysInFrame (block : BlockId) (args : List ValueId) : StaysInFrame (branchTo block args) :=
  along_bind along_get fun _ => onBuilder_staysInFrame (Ssa.Builder.connect_leaves _ _ _)

theorem moveTo_staysInFrame (block : BlockId) : StaysInFrame (moveTo block) := by
  refine staysInFrame_of_ok fun {s t b} framed ok => ?_
  obtain rfl := moveTo_ok.mp ok
  exact .of_parts (.refl framed.above) rfl .inl

theorem followBlock_staysInFrame (source : BlockId) : StaysInFrame (followBlock source) :=
  along_bind (onBuilder_staysInFrame (follower_leaves source)) moveTo_staysInFrame

theorem fallThrough_staysInFrame : StaysInFrame fallThrough :=
  along_bind along_get fun _ => followBlock_staysInFrame _

theorem transferTo_staysInFrame (index : Nat) (args : List Operand) (polymorphic : Bool) :
    StaysInFrame (transferTo index args polymorphic) := by
  refine staysInFrame_of_ok fun {s t b} framed ok => ?_
  obtain ⟨region, outer, _, _, _, _, _, _, regions, _⟩ := transferTo_ok.mp ok
  have settled := framed.settled region (by simp [regions])
  obtain ⟨r, builder, rfl, steady, locals, _⟩ := transferTo_callsAdded regions settled ok
  refine ⟨rfl, rfl, rfl, ?_, ?_, .refl framed.above, rfl, rfl, locals, .inl⟩
  · rw [regions]
    exact .some steady
  · rw [regions]
    rfl

theorem pop_staysInFrame : StaysInFrame (onStack TypedStack.pop) :=
  onStack_staysInFrame fun {s t a} above ok => by
    have popped := TypedStack.pop_ok.mp ok
    by_cases empty : s.height = s.floor
    · rw [if_pos empty] at popped
      rw [popped.2.2]
      exact ⟨.refl above, rfl⟩
    · rw [if_neg empty] at popped
      rw [popped.2]
      exact ⟨TypedStack.rests_pop above empty, rfl⟩

theorem popType_staysInFrame (type : ValueType) : StaysInFrame (onStack (TypedStack.popType type)) :=
  onStack_staysInFrame fun {s t a} above ok => by
    have popped := TypedStack.popType_ok.mp ok
    by_cases empty : s.height = s.floor
    · rw [if_pos empty] at popped
      rw [popped.2.2]
      exact ⟨.refl above, rfl⟩
    · rw [if_neg empty] at popped
      obtain ⟨_, _, _, _, rfl⟩ := popped
      exact ⟨TypedStack.rests_pop above empty, rfl⟩

theorem brTargets_staysInFrame (expected : List ValueType) (depths : List Nat)
    (seen : Std.HashSet BlockId) : StaysInFrame (brTargets expected depths seen) := by
  induction depths generalizing seen with
  | nil => exact along_pure _
  | cons depth depths ih =>
      exact along_bind (labelled_staysInFrame _) fun _ => along_bind (staysInFrame_require _ _) fun _ =>
        along_bind (shareValues_staysInFrame _) fun _ => along_ite (ih _)
          (along_bind (branchTo_staysInFrame _ _) fun _ => ih _)

theorem callTargets_staysInFrame (args : List Operand) (polymorphic : Bool) (targets : List Nat)
    (seen : Std.HashSet Nat) : StaysInFrame (callTargets args polymorphic targets seen) := by
  induction targets generalizing seen with
  | nil => exact along_pure _
  | cons target targets ih =>
      exact along_ite (ih _) (along_bind (transferTo_staysInFrame _ _ _) fun _ => ih _)

theorem pushResults_staysInFrame (tuple : ValueId) (index : Nat) (types : List ValueType) :
    StaysInFrame (pushResults tuple index types) := by
  induction types generalizing index with
  | nil => exact along_pure _
  | cons type types ih =>
      exact along_bind along_get fun _ =>
        along_bind (onBuilder_staysInFrame (Ssa.Builder.project_leaves _ _ _ _)) fun _ =>
          along_bind (putValue_staysInFrame _ _) fun _ => ih _

theorem brIf_staysInFrame (depth : Nat) : StaysInFrame (brIf depth) :=
  along_bind (takeValue_staysInFrame _) fun _ => along_bind (labelled_staysInFrame _) fun _ =>
    along_bind (shareValues_staysInFrame _) fun _ => along_bind (emitStatement_staysInFrame _ _ _) fun _ =>
      along_bind (branchTo_staysInFrame _ _) fun _ => fallThrough_staysInFrame

theorem call_staysInFrame (index : Nat) (callee : Signature) : StaysInFrame (call index callee) := by
  refine along_bind (takeValues_staysInFrame _) fun args => ?_
  dsimp only
  split
  · exact along_bind (emit_staysInFrame _ _ _ _) fun _ => putValue_staysInFrame _ _
  · exact along_bind (emit_staysInFrame _ _ _ _) fun _ => pushResults_staysInFrame _ _ _

theorem drop_staysInFrame : StaysInFrame (do let _ ← onStack TypedStack.pop : Step Unit) :=
  along_bind pop_staysInFrame fun _ => along_pure _

theorem select_staysInFrame : StaysInFrame select := by
  refine along_bind (takeValue_staysInFrame _) fun _ => along_bind pop_staysInFrame fun second => along_bind ?_
    fun _ => along_bind (staysInFrame_require _ _) fun _ => along_bind (valuesOf_staysInFrame _) fun _ =>
      along_bind (emit_staysInFrame _ _ _ _) fun _ => putValue_staysInFrame _ _
  split
  · exact pop_staysInFrame
  · exact popType_staysInFrame _

theorem selectTyped_staysInFrame (type : ValueType) : StaysInFrame (selectTyped type) :=
  along_bind (takeValue_staysInFrame _) fun _ => along_bind (takeValues_staysInFrame _) fun _ =>
    along_bind (emit_staysInFrame _ _ _ _) fun _ => putValue_staysInFrame _ _

theorem localGet_staysInFrame (slot : Nat) (type : ValueType) : StaysInFrame (localGet slot type) :=
  along_bind along_get fun _ =>
    along_bind (onBuilder_staysInFrame (Ssa.Builder.getLocal_leaves _ _)) fun _ => putValue_staysInFrame _ _

theorem localSet_staysInFrame (slot : Nat) (type : ValueType) : StaysInFrame (localSet slot type) :=
  along_bind (takeValue_staysInFrame _) fun _ => along_bind along_get fun _ =>
    along_bind (onBuilder_staysInFrame (Ssa.Builder.setLocal_leaves _ _ _)) fun _ => along_pure _

theorem constant_staysInFrame (type : ValueType) (bits : UInt64) : StaysInFrame (constant type bits) :=
  along_bind along_get fun _ =>
    along_bind (onBuilder_staysInFrame (Ssa.Builder.constant_leaves _ _ _)) fun _ => putValue_staysInFrame _ _

theorem operation_staysInFrame (opcode : UInt8) (params : List ValueType) (result : ValueType)
    (immediate : UInt64) : StaysInFrame (operation opcode params result immediate) :=
  along_bind (takeValues_staysInFrame _) fun _ => along_bind (emit_staysInFrame _ _ _ _) fun _ =>
    along_ite (along_pure _) (putValue_staysInFrame _ _)

theorem funcletCallIf_staysInFrame (target : Nat) : StaysInFrame (funcletCallIf target) :=
  along_bind (takeValue_staysInFrame _) fun _ => along_bind (emitStatement_staysInFrame _ _ _) fun _ =>
    along_bind regionOperands_staysInFrame fun _ => along_bind operandsUnreachable_staysInFrame fun _ =>
      along_bind (transferTo_staysInFrame _ _ _) fun _ => fallThrough_staysInFrame

theorem moves_of_staysInFrame {i : Instruction} {m : Step α} {a : α} (stays : StaysInFrame m) (framed : Framed s)
    (ok : m s = .ok a t) (other : i ≠ .elseThen)
    (advance : ∀ nest, Nest.advance nest i = nest) : Moves s i t := by
  have quiet := stays.quiet framed ok
  exact ⟨.stays quiet other, by rw [quiet.nests, advance],
    .of_eq quiet.cursor, quiet.exit, quiet.locals⟩

def EndsBlock (setting : Setting) (m : Step Unit) : Prop :=
  ∀ {s t}, Framed s → m s = .ok () t → ∃ u, Quiet s u ∧ endBlock setting u = .ok () t

theorem endsBlock_self (setting : Setting) : EndsBlock setting (endBlock setting) :=
  fun framed ok => ⟨_, .refl framed.above, ok⟩

theorem endsBlock_bind {setting : Setting} {m : Step α} {f : α → Step Unit} (first : StaysInFrame m)
    (rest : ∀ a, EndsBlock setting (f a)) : EndsBlock setting (m >>= f) := by
  intro s t framed ok
  obtain ⟨a, u, started, ended⟩ := bind_ok.mp ok
  have quiet := first.quiet framed started
  obtain ⟨v, later, ended⟩ := rest a (framed.quiet quiet) ended
  exact ⟨v, quiet.trans later, ended⟩

theorem moves_of_endsBlock {setting : Setting} {i : Instruction} {m : Step Unit}
    (ends : EndsBlock setting m) (framed : Framed s) (ok : m s = .ok () t) (other : i ≠ .elseThen)
    (direct : ∀ funclet funclets outer, Nest.advance (.region funclet funclets :: outer) i =
      Nest.nextFunclet funclet funclets outer)
    (inner : ∀ outer, Nest.advance (.plain :: outer) i = .plain :: outer) : Moves s i t := by
  obtain ⟨u, quiet, ended⟩ := ends framed ok
  refine endBlock_moves framed quiet other ended (fun funclet funclets outer nests => ?_)
    fun outer nests => ?_
  · rw [nests, direct]
  · rw [nests, inner]

theorem unreachable_endsBlock (setting : Setting) :
    EndsBlock setting (execute setting .unreachable) :=
  endsBlock_bind (emitStatement_staysInFrame _ _ _) fun _ => endsBlock_self _

theorem br_endsBlock (setting : Setting) (depth : Nat) : EndsBlock setting (br setting depth) :=
  endsBlock_bind (labelled_staysInFrame _) fun _ => endsBlock_bind (shareValues_staysInFrame _) fun _ =>
    endsBlock_bind (branchTo_staysInFrame _ _) fun _ => endsBlock_self _

theorem brTable_endsBlock (setting : Setting) (depths : List Nat) (default : Nat) :
    EndsBlock setting (brTable setting depths default) :=
  endsBlock_bind (takeValue_staysInFrame _) fun _ => endsBlock_bind (emitStatement_staysInFrame _ _ _) fun _ =>
    endsBlock_bind (labelled_staysInFrame _) fun _ => endsBlock_bind (brTargets_staysInFrame _ _ _) fun _ =>
      endsBlock_self _

theorem ret_endsBlock (setting : Setting) : EndsBlock setting (ret setting) := by
  refine endsBlock_bind along_get fun s => ?_
  dsimp only
  split
  · exact endsBlock_bind along_get fun _ => endsBlock_bind (shareValues_staysInFrame _) fun _ =>
      endsBlock_bind (branchTo_staysInFrame _ _) fun _ => endsBlock_self _
  · exact fun _ ok => by simp at ok

theorem funcletCall_endsBlock (setting : Setting) (target : Nat) :
    EndsBlock setting (funcletCall setting target) :=
  endsBlock_bind (emitStatement_staysInFrame _ _ _) fun _ => endsBlock_bind regionOperands_staysInFrame fun _ =>
    endsBlock_bind operandsUnreachable_staysInFrame fun _ =>
      endsBlock_bind (transferTo_staysInFrame _ _ _) fun _ => endsBlock_self _

theorem funcletCallTable_endsBlock (setting : Setting) (targets : List Nat) (default : Nat) :
    EndsBlock setting (funcletCallTable setting targets default) :=
  endsBlock_bind (takeValue_staysInFrame _) fun _ => endsBlock_bind (emitStatement_staysInFrame _ _ _) fun _ =>
    endsBlock_bind regionOperands_staysInFrame fun _ => endsBlock_bind operandsUnreachable_staysInFrame fun _ =>
      endsBlock_bind (callTargets_staysInFrame _ _ _ _) fun _ => endsBlock_self _

theorem unreachableIn_of_plain {construct : Construct} {mark : Mark} {parent : Frame}
    (notRegion : construct ≠ .region) (innermost : s.frame? 0 = some parent) :
    s.unreachableIn construct mark = (parent.outerUnreachable || mark.polymorphic) := by
  unfold State.unreachableIn
  rw [innermost]
  cases construct <;> first | rfl | exact absurd rfl notRegion

theorem push_moves {i : Instruction} {frame : Frame} {h : Nat} (framed : Framed s)
    (control : t.control = s.control.push frame) (regions : t.regions = s.regions)
    (notRegion : frame.construct ≠ .region) (notFunction : frame.construct ≠ .function)
    (mark : frame.mark = ⟨h, s.stack.floor, s.stack.polymorphic⟩) (reach : s.stack.floor ≤ h)
    (unreachable : frame.outerUnreachable = s.unreachableIn frame.construct frame.mark)
    (tops : TypedStack.Tops s.stack t.stack h frame.signature.params) (floor : t.stack.floor = h)
    (finite : t.stack.polymorphic = false) (closed : t.closed = s.closed)
    (cursor : t.cursor = s.cursor) (exit : t.exit = s.exit)
    (locals : t.builder.locals = s.builder.locals)
    (advance : Nest.advance s.nests i = .plain :: s.nests)
    (loop : frame.construct = .loop → Heads s t frame.target h frame.signature.params)
    (fresh : s.builder.blocks.size ≤ frame.target) : Moves s i t := by
  have frames : t.frames = frame :: s.frames := by
    rw [State.frames, control, frames_push, State.frames]
  have layers : t.layers = ⟨frame, none⟩ :: s.layers := by
    rw [t.layers_of_plain frames notRegion, regions, State.layers]
  have height : frame.mark.height = h := by rw [mark]
  refine ⟨.opens ⟨frame, none⟩ layers ⟨height ▸ tops, floor.trans height.symm, finite⟩ ?_ closed
    regions (by simp) (by simp) (by rw [mark]) (height ▸ loop) (by simp) ⟨fresh, by simp⟩, ?_,
    .of_eq cursor, exit, locals⟩
  · intro parent around before
    have below := framed.floor parent around before
    refine ⟨by rw [mark]; exact below, by rw [height, ← below]; exact reach, notFunction,
      fun _ => ⟨notRegion, ?_⟩, by simp⟩
    obtain ⟨top, others, split, innermost, _⟩ := framed.cons
    have same : parent.frame = top := by
      have map := s.map_frame_layers
      rw [before, split, List.map_cons] at map
      exact (List.cons.inj map).1
    rw [same, unreachable, unreachableIn_of_plain notRegion innermost]
  · rw [advance, State.nests, layers, State.nests]
    rfl

theorem openBlock_moves {signature : Signature} (framed : Framed s)
    (ok : openBlock signature s = .ok () t) : Moves s (.block signature) t := by
  simp only [openBlock, bind_ok, newTarget_ok, onStack_ok, TypedStack.enter_ok, pushFrame_ok] at ok
  obtain ⟨join, _, ⟨b, built, rfl⟩, mark, _, ⟨_, ⟨_, rfl, rfl⟩, rfl⟩, rfl⟩ := ok
  exact push_moves framed rfl rfl (by simp) (by simp) rfl
    (TypedStack.rests_without _ framed.above).above rfl (TypedStack.tops_entered _) rfl rfl rfl
    rfl rfl ((target_leaves _ _).of_ok built) rfl (by simp) (Nat.le_of_eq (target_size built).symm)

theorem openLoop_moves {signature : Signature} (framed : Framed s)
    (ok : openLoop signature s = .ok () t) : Moves s (.loop signature) t := by
  simp only [openLoop, bind_ok, newTarget_ok, shareValues_ok, branchTo_ok, onStack_ok,
    TypedStack.enter_ok, moveTo_ok, onBuilder_ok, TypedStack.reset_ok, pushFrame_ok] at ok
  obtain ⟨header, _, ⟨b, built, rfl⟩, values, _, ⟨_, c, supplied, rfl⟩, _, _, ⟨d, connected, rfl⟩,
    mark, _, ⟨_, ⟨_, rfl, rfl⟩, rfl⟩, _, _, rfl, args, _, ⟨e, listed, rfl⟩, _, _, ⟨_, rfl, rfl⟩,
    rfl⟩ := ok
  have locals : e.locals = s.builder.locals :=
    ((Ssa.Builder.args_leaves _).of_ok listed).trans
      (((Ssa.Builder.connect_leaves _ _ _).of_ok connected).trans
        (((supply_leaves _).of_ok supplied).trans ((target_leaves _ _).of_ok built)))
  have rests := TypedStack.rests_without signature.params framed.above
  have length : (operandsOf signature.params values).length = signature.params.length :=
    TypedStack.length_withValues _ _
  have height := congrArg TypedStack.height (TypedStack.without_extend length framed.above)
  have tops := TypedStack.tops_shared length framed.above
  refine push_moves framed rfl rfl (by simp) (by simp) (by rw [height]; rfl) rests.above rfl
    (tops.reset height false _) height rfl rfl rfl rfl locals rfl
    (fun _ => heads_cleared (k := TypedStack.entered _ _) ?_ ?_ listed rfl rfl)
    (Nat.le_of_eq (target_size built).symm)
  · rw [tops.height]
    exact height ▸ Nat.le_add_right _ _
  · rw [show TypedStack.floor _ = _ from height]
    exact tops.take

theorem openIf_moves {signature : Signature} (framed : Framed s)
    (ok : openIf signature s = .ok () t) : Moves s (.ifThen signature) t := by
  rw [openIf, bind_ok] at ok
  obtain ⟨condition, u, taken, ok⟩ := ok
  have quiet := (takeValue_staysInFrame _).quiet framed taken
  have steady := framed.quiet quiet
  obtain ⟨_, taken, _⟩ := takeValue_ok.mp taken
  obtain ⟨_, b, first, rfl⟩ := takeValues_ok.mp taken
  simp only [bind_ok, shareValues_ok, emitStatement_ok, onStack_ok, TypedStack.enter_ok,
    newTarget_ok, get_ok, fallThrough_ok, followBlock_ok, pushFrame_ok] at ok
  obtain ⟨params, _, ⟨_, c, supplied, rfl⟩, _, _, ⟨_, d, emitted, rfl⟩, mark, _,
    ⟨_, ⟨_, rfl, rfl⟩, rfl⟩, join, _, ⟨e, built, rfl⟩, _, _, ⟨rfl, rfl⟩, _, _,
    ⟨block, f, followed, rfl⟩, rfl⟩ := ok
  have count : d.blockCount = s.builder.blockCount :=
    ((Ssa.Builder.emit_leaves _ _ _ _ _).of_ok emitted).trans
      (((supply_leaves _).of_ok supplied).trans ((supply_leaves _).of_ok first))
  have locals : f.locals = b.locals :=
    ((follower_leaves _).of_ok followed).trans
      (((target_leaves _ _).of_ok built).trans
        (((Ssa.Builder.emit_leaves _ _ _ _ _).of_ok emitted).trans
          ((supply_leaves _).of_ok supplied)))
  have rests := TypedStack.rests_without signature.params steady.above
  have length : (operandsOf signature.params params).length = signature.params.length :=
    TypedStack.length_withValues _ _
  have height := congrArg TypedStack.height (TypedStack.without_extend length steady.above)
  have tops := TypedStack.tops_shared length steady.above
  exact push_moves framed rfl rfl (by simp) (by simp) (by rw [height]; rfl) rests.above rfl
    tops.of_without height rfl rfl rfl rfl (locals.trans quiet.locals) rfl (by simp)
    (Nat.le_of_eq (count.symm.trans (target_size built).symm))

/-- The innermost frame turns from its `if` part to its `else` part. -/
theorem openElse_moves (framed : Framed s) (ok : openElse s = .ok () t) :
    Moves s .elseThen t := by
  obtain ⟨frame, frames, split, innermost, ground⟩ := framed.cons
  rw [openElse, bind_ok] at ok
  obtain ⟨top, _, looked, ok⟩ := ok
  obtain ⟨found, rfl⟩ := innermost_ok.mp looked
  rw [innermost] at found
  obtain rfl := Option.some.inj found
  cases construct : frame.construct with
  | ifThen condition params =>
      rw [construct] at ok
      simp only [bind_ok, takeAll_ok, branchTo_ok, modify_ok, followBlock_ok, onStack_ok,
        TypedStack.reset_ok] at ok
      obtain ⟨results, _, ⟨_, b, supplied, rfl⟩, _, _, ⟨c, connected, rfl⟩, _, _, rfl, _, _,
        ⟨block, d, followed, rfl⟩, _, rfl, rfl⟩ := ok
      have locals : d.locals = s.builder.locals :=
        ((follower_leaves _).of_ok followed).trans
          (((Ssa.Builder.connect_leaves _ _ _).of_ok connected).trans
            ((supply_leaves _).of_ok supplied))
      have plain : frame.construct ≠ .region := by simp [construct]
      have before := s.layers_of_plain split plain
      have popped : s.control.pop.toList.reverse = frames := frames_pop split
      have rests := TypedStack.rests_without frame.signature.results framed.above
      have tops := (TypedStack.tops_cleared frame.signature.params (params.map some)
        false rests.above).of_without
      rw [TypedStack.floor_without, ground] at tops
      have behind (u : State)
          (control : u.control = s.control.pop.push { frame with construct := .ifElse })
          (regions : u.regions = s.regions) :
          u.layers = ⟨{ frame with construct := .ifElse }, none⟩ :: layersOf frames s.regions := by
        have around : u.frames = { frame with construct := .ifElse } :: frames := by
          rw [State.frames, control, frames_push, popped]
        rw [u.layers_of_plain around (by simp), regions]
      refine ⟨.turns _ _ _ before (behind _ rfl rfl) condition params construct rfl
        ⟨tops, ground, rfl⟩ rfl rfl rfl, ?_, .refl _, rfl, locals⟩
      refine Eq.trans (State.nests_of_layers (behind _ rfl rfl)) ?_
      rw [State.nests_of_layers before]
      rfl
  | _ => simp [construct] at ok

theorem mapM_addBlock_leaves (kinds : List Ssa.BlockKind) :
    Leaves Ssa.Builder.locals (kinds.mapM Ssa.Builder.addBlock) :=
  along_mapM fun _ _ => Ssa.Builder.addBlock_leaves _

theorem mapM_addBlock_fresh {kinds : List Ssa.BlockKind} {b c : Ssa.Builder} {blocks : List BlockId}
    (ok : kinds.mapM Ssa.Builder.addBlock b = .ok blocks c) :
    b.blocks.size ≤ c.blocks.size ∧ ∀ block ∈ blocks, b.blocks.size ≤ block := by
  induction kinds generalizing b blocks with
  | nil =>
      obtain ⟨rfl, rfl⟩ := pure_ok.mp ok
      simp
  | cons kind kinds ih =>
      simp only [List.mapM_cons, Ssa.Builder.addBlock, bind_ok, get_ok, modify_ok, pure_ok] at ok
      obtain ⟨_, _, ⟨_, _, ⟨rfl, rfl⟩, _, _, rfl, rfl, rfl⟩, _, _, rest, rfl, rfl⟩ := ok
      obtain ⟨more, fresh⟩ := ih rest
      rw [Array.size_push] at more fresh
      refine ⟨Nat.le_of_succ_le more, List.forall_mem_cons.mpr ⟨Nat.le_refl _, fun block member => ?_⟩⟩
      exact Nat.le_of_succ_le (fresh block member)

/-- The first funclet of a region starts with the operands that its frame was entered with. -/
theorem startRegion_moves {setting : Setting} {signature : Signature} {funclets : Nat}
    {frame : Frame} {r : OpenRegion} (framed : Framed s) (ok : startFunclet setting 0 u = .ok () t)
    (control : u.control = s.control.push frame) (regions : u.regions = r :: s.regions)
    (construct : frame.construct = .region)
    (mark : frame.mark = ⟨u.stack.floor, s.stack.floor, s.stack.polymorphic⟩)
    (reach : s.stack.floor ≤ u.stack.floor) (unreachable : frame.outerUnreachable = false)
    (belongs : r.signature = frame.signature ∧ r.exit = frame.target ∧ r.base = frame.mark.height ∧
      r.blocks.size = r.graph.size ∧ r.offset = s.start ∧ r.depth = s.control.size)
    (opened : FuncletCalls.ofSize? funclets = some r.graph)
    (tops : TypedStack.Tops s.stack u.stack u.stack.floor signature.params)
    (closed : u.closed = s.closed) (cursor : u.cursor = s.cursor) (exit : u.exit = s.exit)
    (locals : u.builder.locals = s.builder.locals)
    (fresh : s.builder.blocks.size ≤ frame.target ∧
      ∀ block ∈ r.blocks, s.builder.blocks.size ≤ block) :
    Moves s (.funcletRegion signature funclets) t := by
  have above : u.stack.floor ≤ u.stack.height := by
    rw [tops.height]
    exact Nat.le_add_right _ _
  obtain ⟨q, params, same, onward, kept, later, settled, current, known, ⟨top, found, first⟩,
    floor, finite, started, block, place, heads⟩ := startFunclet_ok regions (enterable_of_size opened) above ok
  obtain ⟨_, size, _⟩ := FuncletCalls.coherent_of_size opened
  have height : frame.mark.height = u.stack.floor := by rw [mark]
  have around : u.frames = frame :: s.frames := by
    rw [State.frames, control, frames_push, State.frames]
  have top_eq : top = frame := by
    rw [u.frame?_eq, around] at found
    exact (Option.some.inj found).symm
  have params_eq : params = frame.signature.params := by
    rcases first with absurd_ | equal
    · exact absurd rfl absurd_
    · rw [equal, top_eq]
  have inner : t.layers = ⟨frame, some q⟩ :: s.layers := by
    have frames : t.frames = frame :: s.frames := by
      rw [State.frames, congrArg State.control same, ← around]
      rfl
    have regions : t.regions = q :: s.regions := congrArg State.regions same
    rw [State.layers, frames, regions, layersOf_region construct, State.layers]
  -- Below the frame's height the operands are those in front of the region, above it the parameters.
  have tops_t : TypedStack.Tops s.stack t.stack frame.mark.height frame.signature.params := by
    obtain ⟨operands, stack, types⟩ := started.operands
    obtain ⟨before, entered, _⟩ := tops.operands
    refine ⟨height ▸ tops.reach, operands, ?_, params_eq ▸ types⟩
    have length : (s.stack.operands.toList.take u.stack.floor).length = u.stack.floor := by
      rw [List.length_take, ← TypedStack.height_eq, Nat.min_eq_left tops.reach]
    rw [stack, entered, List.take_left' length, height]
  refine ⟨.opens ⟨frame, some q⟩ inner ⟨tops_t, floor.trans height.symm, finite⟩ ?_
    ((congrArg State.closed same).trans closed) (congrArg State.regions same) ?_ ?_ (by rw [mark])
    (by simp [construct]) ?_ ⟨fresh.1, ?_⟩, ?_, ?_, (congrArg State.exit same).trans exit,
    kept.trans locals⟩
  · intro parent outer before
    have below := framed.floor parent outer before
    refine ⟨by rw [mark]; exact below, by rw [height, ← below]; exact reach,
      by simp [construct], by simp, fun r' equal => ?_⟩
    obtain rfl := Option.some.inj equal
    refine ⟨construct, unreachable, ?_, ?_, ?_, ?_⟩
    · rw [later.same]; exact belongs.1
    · rw [later.same]; exact belongs.2.1
    · rw [later.same]; exact belongs.2.2.1
    · rw [later.keeps.size_eq, ← belongs.2.2.2.1, later.same]
  · intro r' equal
    obtain rfl := Option.some.inj equal
    refine ⟨?_, settled, current, params_eq ▸ known⟩
    rw [later.same]
    exact belongs.2.2.2.2.1
  · intro r' equal
    obtain rfl := Option.some.inj equal
    rw [later.same]
    exact belongs.2.2.2.2.2
  · intro r' equal
    obtain rfl := Option.some.inj equal
    rw [heads.current, later.same]
    refine ⟨place, ?_⟩
    rw [← params_eq]
    exact (height ▸ heads).of_take (height ▸ tops.take)
  · intro r' equal
    obtain rfl := Option.some.inj equal
    rw [later.same]
    exact fresh.2
  · rw [State.nests_of_layers inner]
    simp only [List.map_cons, Layer.nest, current, later.keeps.size_eq, size]
    rfl
  · rw [← cursor]
    exact onward

theorem funcletRegion_moves {setting : Setting} {signature : Signature} {funclets : Nat}
    (framed : Framed s) (ok : funcletRegion setting signature funclets s = .ok () t) :
    Moves s (.funcletRegion signature funclets) t := by
  rw [funcletRegion, get_bind_ok, get_bind_ok] at ok
  cases opened : FuncletCalls.ofSize? funclets with
  | none => simp [opened] at ok
  | some graph =>
      simp only [opened, bind_ok, onBuilder_ok, newTarget_ok, shareValues_ok, branchTo_ok,
        onStack_ok, TypedStack.enter_ok, pushFrame_ok, modify_ok] at ok
      obtain ⟨blocks, _, ⟨b, added, rfl⟩, exit, _, ⟨c, built, rfl⟩, values, _,
        ⟨_, d, supplied, rfl⟩, _, _, ⟨e, connected, rfl⟩, mark, _, ⟨_, ⟨_, rfl, rfl⟩, rfl⟩, _, _,
        rfl, _, _, rfl, ok⟩ := ok
      dsimp only at ok
      have locals : e.locals = s.builder.locals :=
        ((Ssa.Builder.connect_leaves _ _ _).of_ok connected).trans
          (((supply_leaves _).of_ok supplied).trans (((target_leaves _ _).of_ok built).trans
            ((mapM_addBlock_leaves _).of_ok added)))
      have rests := TypedStack.rests_without signature.params framed.above
      have length : (operandsOf signature.params values).length = signature.params.length :=
        TypedStack.length_withValues _ _
      have height := congrArg TypedStack.height (TypedStack.without_extend length framed.above)
      have tops := TypedStack.tops_shared length framed.above
      obtain ⟨_, size, _⟩ := FuncletCalls.coherent_of_size opened
      have blocks_size : blocks.toArray.size = graph.size := by
        rw [List.size_toArray, length_of_mapM_ok added, List.length_replicate, size]
      refine startRegion_moves framed ok rfl rfl rfl rfl ?_ rfl
        ⟨rfl, rfl, rfl, blocks_size, rfl, rfl⟩ opened ?_ rfl rfl rfl locals
        ⟨?_, fun block member => (mapM_addBlock_fresh added).2 block (by simpa using member)⟩
      · exact Nat.le_trans rests.above (Nat.le_of_eq height.symm)
      · rw [← height] at tops
        exact tops
      · exact Nat.le_trans (mapM_addBlock_fresh added).1 (Nat.le_of_eq (target_size built).symm)

theorem pop_moves {frame : Frame} {frames : List Frame} (framed : Framed s)
    (split : s.frames = frame :: frames) (notRegion : frame.construct ≠ .region)
    (notFunction : frame.construct ≠ .function) (control : t.control = s.control.pop)
    (regions : t.regions = s.regions)
    (tops : TypedStack.Tops s.stack t.stack frame.mark.height frame.signature.results)
    (floor : t.stack.floor = frame.mark.floor)
    (polymorphic : t.stack.polymorphic = frame.mark.polymorphic)
    (whole : ∀ condition params, frame.construct = .ifThen condition params →
      frame.signature.params = frame.signature.results)
    (closed : t.closed = s.closed) (cursor : t.cursor = s.cursor) (exit : t.exit = s.exit)
    (locals : t.builder.locals = s.builder.locals)
    (heads : frame.construct ≠ .loop →
      Heads s t frame.target frame.mark.height frame.signature.results) : Moves s .close t := by
  have layers := s.layers_of_plain split notRegion
  obtain ⟨parent, outer, around, inside, _⟩ :=
    (layers ▸ framed.nested).inner notFunction
  have behind : t.layers = parent :: outer := by
    rw [State.layers, State.frames, control, frames_pop split, regions, around]
  rw [around] at layers
  refine ⟨.closes _ parent outer layers behind ?_ tops floor polymorphic whole ⟨closed, rfl⟩ heads, ?_,
    .of_eq cursor, exit, locals⟩
  · rw [regions]
    rfl
  · rw [State.nests_of_layers behind, State.nests_of_layers layers]
    rfl

theorem Framed.ground {frame : Frame} {frames : List Frame} (framed : Framed s)
    (split : s.frames = frame :: frames) : s.stack.floor = frame.mark.height := by
  obtain ⟨_, _, split', _, floor⟩ := framed.cons
  obtain ⟨rfl, _⟩ := List.cons.inj (split.symm.trans split')
  exact floor

theorem tops_behind {frame : Frame} {frames : List Frame} (framed : Framed s) (quiet : Quiet s u)
    (split : s.frames = frame :: frames) (results : List ValueId) :
    TypedStack.Tops s.stack
      ((u.stack.left frame.mark).extend (operandsOf frame.signature.results results))
      frame.mark.height frame.signature.results := by
  have ground : frame.mark.height ≤ s.stack.floor := Nat.le_of_eq (framed.ground split).symm
  exact .of_rests quiet.stack (TypedStack.tops_left _ _ _
    (Nat.le_trans (quiet.stack.floor ▸ ground) quiet.stack.above)) ground framed.above

theorem closeLoop_moves {frame : Frame} {frames : List Frame} (framed : Framed s)
    (split : s.frames = frame :: frames) (construct : frame.construct = .loop)
    (ok : (do closeLoop frame (← takeAll frame.signature.results) : Step Unit) s = .ok () t) :
    Moves s .close t := by
  obtain ⟨results, u, taken, ok⟩ := bind_ok.mp ok
  have quiet := (takeAll_staysInFrame _).quiet framed taken
  obtain ⟨_, b, _, rfl⟩ := takeAll_ok.mp taken
  simp only [closeLoop, bind_ok, onBuilder_ok, onStack_ok, TypedStack.leave_ok, putValues_ok,
    popFrame_ok] at ok
  obtain ⟨_, _, ⟨c, complete, rfl⟩, _, _, ⟨_, rfl, rfl⟩, _, _, rfl, rfl⟩ := ok
  exact pop_moves framed split (by simp [construct]) (by simp [construct]) rfl rfl
    (tops_behind framed quiet split results) rfl rfl (by simp [construct]) rfl rfl rfl
    (((Ssa.Builder.sealBlock_leaves _).of_ok complete).trans quiet.locals) (by simp [construct])

theorem closeFunction_moves {frame : Frame} {frames : List Frame} (framed : Framed s)
    (split : s.frames = frame :: frames) (construct : frame.construct = .function)
    (ok : (do closeFunction frame (← takeAll frame.signature.results) : Step Unit) s = .ok () t) :
    Moves s .close t := by
  obtain ⟨results, u, taken, ok⟩ := bind_ok.mp ok
  have quiet := (takeAll_staysInFrame _).quiet framed taken
  obtain ⟨_, b, _, rfl⟩ := takeAll_ok.mp taken
  simp only [closeFunction, bind_ok, branchTo_ok, onBuilder_ok, popFrame_ok] at ok
  obtain ⟨_, _, ⟨c, connected, rfl⟩, _, _, ⟨d, complete, rfl⟩, rfl⟩ := ok
  have layers := s.layers_of_plain split (by simp [construct])
  have alone : s.layers = [⟨frame, none⟩] := by
    have nested := layers ▸ framed.nested
    rw [layers]
    generalize layersOf frames s.regions = outer at nested
    cases nested with
    | function => rfl
    | inside _ inside => exact absurd construct inside.inner
  have control : s.control.pop = #[] := by
    have size := s.layers_length
    rw [alone] at size
    apply Array.eq_empty_of_size_eq_zero
    rw [Array.size_pop, ← size]
    rfl
  refine ⟨.ends _ alone control rfl rfl rfl, ?_, .refl _, rfl,
    ((Ssa.Builder.sealBlock_leaves _).of_ok complete).trans
      (((Ssa.Builder.connect_leaves _ _ _).of_ok connected).trans quiet.locals)⟩
  rw [State.nests_of_layers alone]
  change (layersOf s.control.pop.toList.reverse s.regions).map Layer.nest = _
  rw [control]
  rfl

theorem closeJoin_moves {frame : Frame} {frames : List Frame} {results : List ValueId}
    (framed : Framed s) (quiet : Quiet s u) (regions : u.regions = s.regions)
    (split : s.frames = frame :: frames) (notRegion : frame.construct ≠ .region)
    (notFunction : frame.construct ≠ .function)
    (whole : ∀ condition params, frame.construct = .ifThen condition params →
      frame.signature.params = frame.signature.results)
    (ok : closeJoin frame results u = .ok () t) : Moves s .close t := by
  simp only [closeJoin, bind_ok, branchTo_ok, onBuilder_ok, onStack_ok, TypedStack.leave_ok,
    moveTo_ok, putValues_ok, popFrame_ok] at ok
  obtain ⟨_, _, ⟨b, connected, rfl⟩, _, _, ⟨c, complete, rfl⟩, _, _, ⟨_, rfl, rfl⟩, _, _, rfl,
    args, _, ⟨d, listed, rfl⟩, _, _, rfl, rfl⟩ := ok
  have ground : frame.mark.height ≤ s.stack.floor := Nat.le_of_eq (framed.ground split).symm
  refine pop_moves framed split notRegion notFunction (congrArg Array.pop quiet.control) regions
    (tops_behind framed quiet split args) rfl rfl whole quiet.closed quiet.cursor quiet.exit
    (((Ssa.Builder.args_leaves _).of_ok listed).trans
      (((Ssa.Builder.sealBlock_leaves _).of_ok complete).trans
        (((Ssa.Builder.connect_leaves _ _ _).of_ok connected).trans quiet.locals)))
    fun _ => quiet.heads ground (heads_of_args listed rfl ?_)
  exact (TypedStack.toList_extend _ _).trans (congrArg (· ++ _) (TypedStack.toList_resize
    (Nat.le_trans (quiet.stack.floor ▸ ground) quiet.stack.above)))

theorem skipBranch_staysInFrame (frame : Frame) (condition : BlockId) (params : List ValueId) :
    StaysInFrame (skipBranch frame condition params) :=
  along_bind (staysInFrame_require _ _) fun _ => onBuilder_staysInFrame (Ssa.Builder.connect_leaves _ _ _)

theorem closeIf_moves {frame : Frame} {frames : List Frame} {condition : BlockId}
    {params : List ValueId} (framed : Framed s) (split : s.frames = frame :: frames)
    (construct : frame.construct = .ifThen condition params)
    (ok : (do
      let results ← takeAll frame.signature.results
      skipBranch frame condition params
      closeJoin frame results : Step Unit) s = .ok () t) : Moves s .close t := by
  obtain ⟨results, u, taken, ok⟩ := bind_ok.mp ok
  have quiet := (takeAll_staysInFrame _).quiet framed taken
  obtain ⟨_, b, _, rfl⟩ := takeAll_ok.mp taken
  obtain ⟨_, v, skipped, ok⟩ := bind_ok.mp ok
  have more := (skipBranch_staysInFrame _ _ _).quiet (framed.quiet quiet) skipped
  simp only [skipBranch, bind_ok, require_ok, onBuilder_ok] at skipped
  obtain ⟨_, _, ⟨same, rfl⟩, c, _, rfl⟩ := skipped
  exact closeJoin_moves framed (quiet.trans more) rfl split (by simp [construct])
    (by simp [construct]) (fun _ _ _ => same) ok

theorem closeFunclet_moves {setting : Setting} {frame : Frame} {frames : List Frame}
    (framed : Framed s) (split : s.frames = frame :: frames)
    (construct : frame.construct = .region) (ok : closeFunclet setting frame s = .ok () t) :
    Moves s .close t := by
  obtain ⟨r, rest, regions, layers⟩ := framed.region_on_top split construct
  rw [closeFunclet, bind_ok] at ok
  obtain ⟨_, _, opened, ok⟩ := ok
  obtain ⟨head, rfl⟩ := openRegion_ok.mp opened
  rw [regions] at head
  obtain rfl := Option.some.inj head
  have settled := framed.settled r (by simp [regions])
  have nests : s.nests = .region r.graph.current r.graph.size :: s.nests.tail := by
    rw [State.nests_of_layers layers]
    rfl
  by_cases more : r.graph.current + 1 < r.graph.size
  · simp only [more, if_true, bind_ok] at ok
    obtain ⟨args, _, operands, unreachable, _, polymorphic, _, v, called, ok⟩ := ok
    obtain ⟨_, _, _, rfl⟩ := regionOperands_ok.mp operands
    obtain ⟨_, _, _, rfl⟩ := operandsUnreachable_ok.mp polymorphic
    have quiet := (transferTo_staysInFrame _ _ _).quiet framed called
    obtain ⟨shift, advance, cursor, exit, locals⟩ :=
      nextFunclet_moves (i := .close) framed quiet split construct regions ok
    refine ⟨shift, ?_, cursor, exit, locals⟩
    rw [nests, advance]
    rfl
  · simp only [more, if_false, bind_ok] at ok
    obtain ⟨results, u, taken, _, v, connected, ok⟩ := ok
    have quiet := (takeAll_staysInFrame _).quiet framed taken
    have later := quiet.trans ((branchTo_staysInFrame _ _).quiet (framed.quiet quiet) connected)
    have last : r.graph.current + 1 = r.graph.size := by
      have := settled.current_eq
      have := settled.visited_pos
      have := settled.visited_le
      omega
    obtain ⟨shift, advance, cursor, exit, locals⟩ :=
      closeRegion_moves (i := .close) framed later split construct regions last ok
    refine ⟨shift, ?_, .of_eq cursor, exit, locals⟩
    rw [nests, advance, nests]
    change _ = Nest.nextFunclet _ _ _
    rw [Nest.nextFunclet, if_neg more]

theorem close_moves {setting : Setting} (framed : Framed s) (ok : close setting s = .ok () t) :
    Moves s .close t := by
  obtain ⟨frame, frames, split, innermost, _⟩ := framed.cons
  rw [close, bind_ok] at ok
  obtain ⟨top, _, looked, ok⟩ := ok
  obtain ⟨found, rfl⟩ := innermost_ok.mp looked
  rw [innermost] at found
  obtain rfl := Option.some.inj found
  cases construct : frame.construct with
  | region => exact closeFunclet_moves framed split construct (by simpa only [construct] using ok)
  | function => exact closeFunction_moves framed split construct (by simpa only [construct] using ok)
  | loop => exact closeLoop_moves framed split construct (by simpa only [construct] using ok)
  | ifThen condition params =>
      exact closeIf_moves framed split construct (by simpa only [construct] using ok)
  | block | ifElse =>
      simp only [construct] at ok
      obtain ⟨results, u, taken, ok⟩ := bind_ok.mp ok
      have quiet := (takeAll_staysInFrame _).quiet framed taken
      obtain ⟨_, b, _, rfl⟩ := takeAll_ok.mp taken
      exact closeJoin_moves framed quiet rfl split (by simp [construct]) (by simp [construct])
        (by simp [construct]) ok

theorem execute_moves {setting : Setting} {i : Instruction} (framed : Framed s)
    (ok : execute setting i s = .ok () t) : Moves s i t := by
  cases i with
  | unreachable =>
      exact moves_of_endsBlock (unreachable_endsBlock setting) framed ok (by simp)
        (fun _ _ _ => rfl) fun _ => rfl
  | nop => exact moves_of_staysInFrame (along_pure ()) framed ok (by simp) fun nest => by cases nest <;> rfl
  | block signature => exact openBlock_moves framed ok
  | loop signature => exact openLoop_moves framed ok
  | ifThen signature => exact openIf_moves framed ok
  | elseThen => exact openElse_moves framed ok
  | close => exact close_moves framed ok
  | br depth =>
      exact moves_of_endsBlock (br_endsBlock setting depth) framed ok (by simp)
        (fun _ _ _ => rfl) fun _ => rfl
  | brIf depth => exact moves_of_staysInFrame (brIf_staysInFrame depth) framed ok (by simp) fun _ => rfl
  | brTable depths default =>
      exact moves_of_endsBlock (brTable_endsBlock setting depths default) framed ok (by simp)
        (fun _ _ _ => rfl) fun _ => rfl
  | ret =>
      exact moves_of_endsBlock (ret_endsBlock setting) framed ok (by simp)
        (fun _ _ _ => rfl) fun _ => rfl
  | call index callee => exact moves_of_staysInFrame (call_staysInFrame index callee) framed ok (by simp) fun _ => rfl
  | drop => exact moves_of_staysInFrame drop_staysInFrame framed ok (by simp) fun _ => rfl
  | select => exact moves_of_staysInFrame select_staysInFrame framed ok (by simp) fun _ => rfl
  | selectTyped type => exact moves_of_staysInFrame (selectTyped_staysInFrame type) framed ok (by simp) fun _ => rfl
  | localGet slot type =>
      exact moves_of_staysInFrame (localGet_staysInFrame slot type) framed ok (by simp) fun _ => rfl
  | localSet slot type =>
      exact moves_of_staysInFrame (along_bind (localSet_staysInFrame slot type) fun _ => along_pure _) framed ok
        (by simp) fun _ => rfl
  | localTee slot type =>
      exact moves_of_staysInFrame (along_bind (localSet_staysInFrame slot type) fun value =>
        putValue_staysInFrame type value)
        framed ok (by simp) fun _ => rfl
  | constant type bits =>
      exact moves_of_staysInFrame (constant_staysInFrame type bits) framed ok (by simp) fun _ => rfl
  | operation opcode params result immediate =>
      exact moves_of_staysInFrame (operation_staysInFrame opcode params result immediate) framed ok (by simp)
        fun _ => rfl
  | funcletRegion signature funclets => exact funcletRegion_moves framed ok
  | strayFuncletSig => simp [execute, strayFuncletSig] at ok
  | funcletCall target =>
      exact moves_of_endsBlock (funcletCall_endsBlock setting target) framed ok (by simp)
        (fun _ _ _ => rfl) fun _ => rfl
  | funcletCallIf target =>
      exact moves_of_staysInFrame (funcletCallIf_staysInFrame target) framed ok (by simp) fun _ => rfl
  | funcletCallTable targets default =>
      exact moves_of_endsBlock (funcletCallTable_endsBlock setting targets default) framed ok
        (by simp) (fun _ _ _ => rfl) fun _ => rfl

end WasmFunclets.Validation
