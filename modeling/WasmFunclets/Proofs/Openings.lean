import WasmFunclets.Proofs.Moves
import WasmFunclets.Proofs.Straight
import WasmFunclets.Proofs.Live

/-! The instructions that open a construct: the machine puts a label where the validation puts a
frame. -/

namespace WasmFunclets

namespace Validation

open Attempt

variable {s t : State}

/-- A frame that is opened on a stack with its parameters on top. -/
structure Opening (s t : State) (before : TypedStack) (signature : Signature)
    (frame : Frame) : Prop where
  frames : t.frames = frame :: s.frames
  typed : frame.signature = signature
  accepted : before.accepts signature.params = true
  height : frame.mark.height = (before.without signature.params).height
  below : (before.without signature.params).operands.toList =
    s.stack.operands.toList.take frame.mark.height
  polymorphic : frame.mark.polymorphic = s.stack.polymorphic

theorem Opening.length {before : TypedStack} {signature : Signature} {frame : Frame}
    (opening : Opening s t before signature frame) : t.layers.length = s.layers.length + 1 := by
  have frames := congrArg List.length opening.frames
  rw [← State.map_frame_layers, ← State.map_frame_layers, List.length_map, List.length_cons,
    List.length_map] at frames
  exact frames

theorem Opening.top {before : TypedStack} {signature : Signature} {frame : Frame} {l : Layer}
    (opening : Opening s t before signature frame) (layers : t.layers = l :: s.layers) :
    l.frame = frame := by
  have frames := opening.frames
  rw [← State.map_frame_layers, layers, List.map_cons] at frames
  exact (List.cons.inj frames).1

theorem openBlock_opening {signature : Signature} (ok : openBlock signature s = .ok () t) :
    ∃ frame, Opening s t s.stack signature frame ∧ frame.construct = .block := by
  simp only [openBlock, bind_ok, newTarget_ok, onStack_ok, TypedStack.enter_ok, pushFrame_ok] at ok
  obtain ⟨join, _, ⟨b, built, rfl⟩, mark, _, ⟨_, ⟨accepted, rfl, rfl⟩, rfl⟩, rfl⟩ := ok
  exact ⟨_, ⟨frames_push _ _, rfl, accepted, rfl, TypedStack.toList_without _ _, rfl⟩, rfl⟩

theorem openLoop_opening {signature : Signature} (framed : Framed s)
    (ok : openLoop signature s = .ok () t) :
    ∃ frame, Opening s t s.stack signature frame ∧ frame.construct = .loop := by
  simp only [openLoop, bind_ok, newTarget_ok, shareValues_ok, branchTo_ok, onStack_ok,
    TypedStack.enter_ok, moveTo_ok, onBuilder_ok, TypedStack.reset_ok, pushFrame_ok] at ok
  obtain ⟨header, _, ⟨b, built, rfl⟩, values, _, ⟨accepted, c, supplied, rfl⟩, _, _,
    ⟨d, connected, rfl⟩, mark, _, ⟨_, ⟨_, rfl, rfl⟩, rfl⟩, _, _, rfl, args, _, ⟨e, listed, rfl⟩,
    _, _, ⟨_, rfl, rfl⟩, rfl⟩ := ok
  have length : (operandsOf signature.params values).length = signature.params.length :=
    TypedStack.length_withValues _ _
  have height := congrArg TypedStack.height (TypedStack.without_extend length framed.above)
  refine ⟨_, ⟨frames_push _ _, rfl, accepted, height, ?_, rfl⟩, rfl⟩
  rw [TypedStack.toList_without]
  exact congrArg (s.stack.operands.toList.take ·) height.symm

theorem openIf_opening {signature : Signature} (framed : Framed s)
    (ok : openIf signature s = .ok () t) :
    ∃ value u frame condition params, takeValue .i32 s = .ok value u ∧
      Opening s t u.stack signature frame ∧ frame.construct = .ifThen condition params := by
  rw [openIf, bind_ok] at ok
  obtain ⟨value, u, taken, ok⟩ := ok
  have steady := framed.quiet ((takeValue_staysInFrame _).quiet framed taken)
  obtain ⟨_, parts, _⟩ := takeValue_ok.mp taken
  obtain ⟨_, b, _, rfl⟩ := takeValues_ok.mp parts
  simp only [bind_ok, shareValues_ok, emitStatement_ok, onStack_ok, TypedStack.enter_ok,
    newTarget_ok, get_ok, fallThrough_ok, followBlock_ok, pushFrame_ok] at ok
  obtain ⟨params, _, ⟨accepted, c, supplied, rfl⟩, _, _, ⟨_, d, emitted, rfl⟩, mark, _,
    ⟨_, ⟨_, rfl, rfl⟩, rfl⟩, join, _, ⟨e, built, rfl⟩, _, _, ⟨rfl, rfl⟩, _, _,
    ⟨block, f, followed, rfl⟩, rfl⟩ := ok
  have length : (operandsOf signature.params params).length = signature.params.length :=
    TypedStack.length_withValues _ _
  have height := congrArg TypedStack.height (TypedStack.without_extend length steady.above)
  refine ⟨value, _, _, _, params, taken, ⟨frames_push _ _, rfl, accepted, height, ?_, rfl⟩, rfl⟩
  have lower : ((s.stack.without [.i32]).without signature.params).height ≤
      (s.stack.without [.i32]).height := by
    rw [TypedStack.height_without]
    exact Nat.sub_le _ _
  rw [TypedStack.toList_without, TypedStack.toList_without, List.take_take, Nat.min_eq_left lower]
  exact congrArg (s.stack.operands.toList.take ·) height.symm

theorem funcletRegion_opening {setting : Setting} {signature : Signature} {funclets : Nat}
    (framed : Framed s) (ok : funcletRegion setting signature funclets s = .ok () t) :
    ∃ frame, Opening s t s.stack signature frame ∧ frame.construct = .region := by
  rw [funcletRegion, get_bind_ok, get_bind_ok] at ok
  cases opened : FuncletCalls.ofSize? funclets with
  | none => simp [opened] at ok
  | some graph =>
      simp only [opened, bind_ok, onBuilder_ok, newTarget_ok, shareValues_ok, branchTo_ok,
        onStack_ok, TypedStack.enter_ok, pushFrame_ok, modify_ok] at ok
      obtain ⟨blocks, _, ⟨b, added, rfl⟩, exit, _, ⟨c, built, rfl⟩, values, _,
        ⟨accepted, d, supplied, rfl⟩, _, _, ⟨e, connected, rfl⟩, mark, _, ⟨_, ⟨_, rfl, rfl⟩, rfl⟩,
        _, _, rfl, _, _, rfl, ok⟩ := ok
      dsimp only at ok
      have length : (operandsOf signature.params values).length = signature.params.length :=
        TypedStack.length_withValues _ _
      have height := congrArg TypedStack.height (TypedStack.without_extend length framed.above)
      have tops := TypedStack.tops_shared length framed.above
      rw [← height] at tops
      obtain ⟨_, _, same, _⟩ := startFunclet_ok rfl (enterable_of_size opened)
        (by rw [tops.height]; exact Nat.le_add_right _ _) ok
      have frames : t.control.toList.reverse = _ :=
        (congrArg (fun u : State => u.control.toList.reverse) same).trans (frames_push _ _)
      refine ⟨_, ⟨frames, rfl, accepted, height, ?_, rfl⟩, rfl⟩
      rw [TypedStack.toList_without]
      exact congrArg (s.stack.operands.toList.take ·) height.symm

end Validation

namespace Machine

open Validation Attempt

variable {V : Type} {p : Program V} {setting : Setting} {states : Nat → State} {c d : Config V}

def TargetFits (target : Target) (construct : Construct) (start offset : Nat) : Prop :=
  match target with
  | .behind => construct ≠ .loop ∧ construct ≠ .region
  | .again again => construct = .loop ∧ again = start
  | .funclets first region => construct = .region ∧ first = start ∧ region = offset

theorem TargetFits.labels {target : Target} {l : Layer} {k offset : Nat}
    (fits : TargetFits target l.frame.construct k offset) {outer : List Layer}
    (nested : Nested (l :: outer)) (region : ∀ r, l.region = some r → r.offset = offset)
    (here : Course.OpenSince states k outer.length k) :
    Labels states k outer.length ⟨l.frame.mark.height, l.frame.signature, target⟩ l := by
  refine ⟨rfl, rfl, ?_⟩
  have iff := nested.region_iff
  cases target with
  | behind =>
      refine ⟨fits.1, Option.not_isSome_iff_eq_none.mp fun isRegion => ?_⟩
      exact fits.2 (iff.mpr isRegion)
  | again start =>
      obtain ⟨construct, rfl⟩ := fits
      exact ⟨construct, here⟩
  | funclets start offset =>
      obtain ⟨construct, rfl, rfl⟩ := fits
      obtain ⟨r, isRegion⟩ := Option.isSome_iff_exists.mp (iff.mp construct)
      refine ⟨?_, here⟩
      rw [isRegion, Option.map_some, region r isRegion]

theorem Agrees.opened {s t : State} {before : TypedStack} {signature : Signature} {l : Layer}
    {args : List (Typed V)} (agrees : Agrees d before) (opening : Opening s t before signature l.frame)
    (starts : FreshOperands s t l l.frame.signature.params)
    (split : d.stack = (d.without signature.params.length).stack ++ args)
    (typed : args.map Typed.type = signature.params)
    (rest : Agrees (d.without signature.params.length) (before.without signature.params))
    (target : Target) :
    Agrees { d with labels := ⟨l.frame.mark.height, signature, target⟩ :: d.labels } t.stack := by
  obtain ⟨tops, stack, types⟩ := starts.tops.operands
  have below := opening.below
  have whole : d.stack.map Typed.type = t.stack.operands.toList.map Operand.type := by
    rw [split, List.map_append, rest.types, typed, below, stack, List.map_append, types,
      opening.typed]
  exact ⟨whole, agrees.known, starts.finite, starts.floor.symm, starts.above⟩

/-- Where a validation opens a frame, the machine enters the construct. -/
theorem Live.enter (described : Described p setting states) (live : Live p states c)
    {cursor : Cursor} {i : Instruction} {before : TypedStack} {signature : Signature}
    {frame : Frame} (moves : Moves ((states c.pc).fetched cursor) i (states (c.pc + 1)))
    (opening : Opening ((states c.pc).fetched cursor) (states (c.pc + 1)) before signature frame)
    (beside : Beside c d) (agrees : Agrees d before) (target : Target)
    (fits : TargetFits target frame.construct (c.pc + 1) (states c.pc).cursor.offset) :
    ∃ l e, (states (c.pc + 1)).layers = l :: (states c.pc).layers ∧ l.frame = frame ∧
      Program.enter d signature target = .ok e ∧ e.pc = c.pc ∧
      (e.stack.drop e.floor).map Typed.type = signature.params ∧ Live p states e.next ∧
      ∃ label, e = { d with labels := label :: d.labels } ∧ label.height = frame.mark.height := by
  obtain ⟨args, taking, typed, split, rest⟩ := agrees.take opening.accepted
  have height : (d.without signature.params.length).stack.length = frame.mark.height := by
    rw [rest.length, opening.height]
  have size : (states (c.pc + 1)).layers.length = (states c.pc).layers.length + 1 := opening.length
  obtain ⟨l, layers, starts, region, _⟩ := moves.shift.grows size
  replace layers : (states (c.pc + 1)).layers = l :: (states c.pc).layers := layers
  obtain rfl : l.frame = frame := opening.top layers
  have inside := described.inside_of_layers (Nat.succ_le_of_lt live.inside) (by
    rw [layers]
    exact List.cons_ne_nil _ _)
  have nested := layers ▸ (described.course.framed inside).nested
  have open_ (m : Nat) (from_ : min (c.pc + 1) c.pc ≤ m) (upto : m ≤ max (c.pc + 1) c.pc) :
      (states c.pc).layers.length ≤ (states m).layers.length := by
    rcases (by omega : m = c.pc ∨ m = c.pc + 1) with rfl | rfl
    · exact Nat.le_refl _
    · omega
  have labels := fits.labels nested region (.here size)
  rw [opening.typed] at labels
  refine ⟨l, { d with labels := ⟨l.frame.mark.height, signature, target⟩ :: d.labels }, layers, rfl,
    ?_, beside.pc, ?_, ?_, _, rfl, rfl⟩
  · rw [Program.enter, taking, ← height]
    rfl
  · change (d.stack.drop l.frame.mark.height).map Typed.type = _
    rw [split, List.drop_left' height, typed]
  refine ⟨by rw [Config.next, beside.pc]; exact inside, ?_, ?_, ?_, ?_⟩
  · change Agrees _ (states (d.pc + 1)).stack
    rw [beside.pc]
    exact { agrees.opened opening starts split typed rest target with }
  · change ∀ m ∈ (states (d.pc + 1)).layers, _
    rw [beside.pc, layers]
    intro m member
    rcases List.mem_cons.mp member with rfl | deeper
    · rw [opening.polymorphic]
      exact live.agrees.finite
    · exact live.marks m deeper
  · change Labelled states (d.pc + 1) (_ :: d.labels) (states (d.pc + 1)).layers
    rw [beside.pc, beside.labels, layers]
    exact .cons labels (live.labelled.move (forall₂_refl Alike.refl _) open_)
  · exact beside.locals.trans live.locals

end Machine

end WasmFunclets
