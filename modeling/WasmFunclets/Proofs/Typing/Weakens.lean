import WasmFunclets.Proofs.Typing.Mimics
import WasmFunclets.Proofs.Typing.Weaker

/-! Two validations without open regions, the operands of the second one being weaker in every frame. -/

namespace WasmFunclets.Validation

open Attempt
open TypedStack (Over Rests Weaker weakerTypes)

variable {s t u v : State} {c : Cursor} {f g : Frame} {fs gs : List Frame} {setting : Setting}
variable {mark mark' : Mark} {signature : Signature}

/-- Like frames, the innermost first, each on operands as the frame was entered on; those of the second
stack are weaker in every frame. -/
inductive WeakerFrames : List Frame → List Frame → TypedStack → TypedStack → Prop where
  | closed {a b : TypedStack} (weaker : Weaker a b) : WeakerFrames [] [] a b
  | function {f g : Frame} {a b : TypedStack} (weaker : Weaker a b) (alike : f.Alike g)
      (function : f.construct = .function) : WeakerFrames [f] [g] a b
  | inner {f g : Frame} {fs gs : List Frame} {a b w x : TypedStack} (weaker : Weaker a b)
      (alike : f.Alike g) (inner : f.construct ≠ .function) (mark : f.mark = w.mark)
      (mark' : g.mark = x.mark) (rises : Over w a) (rises' : Over x b) (below : WeakerFrames fs gs w x) :
      WeakerFrames (f :: fs) (g :: gs) a b

namespace WeakerFrames

variable {a b a' b' : TypedStack}

theorem weaker (tower : WeakerFrames fs gs a b) : Weaker a b := by
  cases tower <;> assumption

theorem alike (tower : WeakerFrames fs gs a b) : List.Forall₂ Frame.Alike fs gs := by
  induction tower with
  | closed _ => exact .nil
  | function _ alike _ => exact .cons alike .nil
  | inner _ alike _ _ _ _ _ _ ih => exact .cons alike ih

theorem kept (tower : WeakerFrames fs gs a b) (weaker : Weaker a' b') (rests : Rests a a')
    (rests' : Rests b b') : WeakerFrames fs gs a' b' := by
  cases tower with
  | closed _ => exact .closed weaker
  | function _ alike function => exact .function weaker alike function
  | inner _ alike inner mark mark' rises rises' below =>
      exact .inner weaker alike inner mark mark' (rises.rests rests) (rises'.rests rests') below

end WeakerFrames

/-- What two states share beside their frames and operands: the locals, and that no region is open. -/
structure Hosted (c : Cursor) (s t : State) : Prop where
  locals : t.builder.locals = s.builder.locals
  regions : s.regions = []
  regions' : t.regions = []
  cursor : t.cursor = c

/-- The second state is in like frames on weaker operands, with the cursor given. -/
structure Weakens (c : Cursor) (s t : State) : Prop where
  tower : WeakerFrames s.frames t.frames s.stack t.stack
  hosted : Hosted c s t

theorem Hosted.kept (hosted : Hosted c s t) (kept : Kept weakerTypes s t u v) : Hosted c u v where
  locals := by rw [kept.near.locals, kept.near'.locals, hosted.locals]
  regions := by rw [kept.near.regions, hosted.regions]
  regions' := by rw [kept.near'.regions, hosted.regions']
  cursor := by rw [kept.near'.cursor, hosted.cursor]

theorem stackRelation_weakens (c : Cursor) : StackRelation weakerTypes (Weakens c) where
  compares weakens := weakens.tower.weaker
  kept weakens kept := by
    refine ⟨?_, weakens.hosted.kept kept⟩
    rw [kept.near.frames, kept.near'.frames]
    exact weakens.tower.kept kept.compares kept.moved kept.moved'

theorem Weakens.control (weakens : Weakens c s t) :
    List.Forall₂ Frame.Alike s.control.toList t.control.toList :=
  List.forall₂_reverse_iff.mp weakens.tower.alike

theorem Weakens.control_eq_nil (weakens : Weakens c s t) (closed : s.control = #[]) :
    t.control = #[] := by
  have frames := weakens.tower.alike.length_eq
  rw [State.frames_length, State.frames_length, closed] at frames
  exact Array.size_eq_zero_iff.mp frames.symm

theorem Weakens.scope (weakens : Weakens c s t) (setting : Setting) :
    scopeOf setting t = scopeOf setting s := by
  have frames := weakens.tower.alike.length_eq
  rw [State.frames_length, State.frames_length] at frames
  rw [scopeOf, scopeOf, weakens.hosted.locals, ← frames, weakens.hosted.regions,
    weakens.hosted.regions']

theorem mimics_labelled (depth : Nat) :
    Mimics (Weakens c) (labelled depth) (labelled depth)
      fun f g s t => Weakens c s t ∧ f.Alike g := by
  intro s t weakens f u ok
  obtain ⟨found, rfl⟩ := labelled_ok.mp ok
  rw [State.frame?_eq] at found
  have alike := weakens.tower.alike
  obtain ⟨inside, rfl⟩ := List.getElem?_eq_some_iff.mp found
  have inside' : depth < t.frames.length := alike.length_eq ▸ inside
  have found' : t.frame? depth = some t.frames[depth] := by
    rw [State.frame?_eq]
    exact List.getElem?_eq_getElem inside'
  have done : labelled depth t = .ok t.frames[depth] t := labelled_ok.mpr ⟨found', rfl⟩
  rw [Ends, done]
  exact ⟨weakens, alike.get inside inside'⟩

structure InnermostFrames (c : Cursor) (f g : Frame) (s t : State) : Prop where
  weakens : Weakens c s t
  first : s.frames.head? = some f
  second : t.frames.head? = some g
  alike : f.Alike g

theorem stackRelation_innermostFrames (c : Cursor) (f g : Frame) :
    StackRelation weakerTypes (InnermostFrames c f g) where
  compares within_ := within_.weakens.tower.weaker
  kept within_ kept := by
    refine ⟨(stackRelation_weakens c).kept within_.weakens kept, ?_, ?_, within_.alike⟩
    · rw [kept.near.frames, within_.first]
    · rw [kept.near'.frames, within_.second]

theorem mimics_innermost : Mimics (Weakens c) innermost innermost (InnermostFrames c) := by
  intro s t weakens f u ok
  obtain ⟨found, rfl⟩ := innermost_ok.mp ok
  rw [State.frame?_eq, ← List.head?_eq_getElem?] at found
  obtain ⟨fs, split⟩ := List.head?_eq_some_iff.mp found
  have alike := weakens.tower.alike
  rw [split] at alike
  obtain ⟨g, gs, like, -, split'⟩ := List.forall₂_cons_left_iff.mp alike
  have found' : t.frames.head? = some g := by
    rw [split']
    rfl
  have done : innermost t = .ok g t := by
    rw [List.head?_eq_getElem?, ← State.frame?_eq] at found'
    exact innermost_ok.mpr ⟨found', rfl⟩
  rw [Ends, done]
  exact ⟨weakens, found, found', like⟩

/-- The states inside of frames that are still to be pushed, with their marks. -/
structure Inward (c : Cursor) (mark mark' : Mark) (s t : State) : Prop where
  around : ∃ w x, WeakerFrames s.frames t.frames w x ∧ Over w s.stack ∧ Over x t.stack ∧
    mark = w.mark ∧ mark' = x.mark
  weaker : Weaker s.stack t.stack
  hosted : Hosted c s t

theorem stackRelation_inward (c : Cursor) (mark mark' : Mark) : StackRelation weakerTypes (Inward c mark mark') where
  compares inward := inward.weaker
  kept inward kept := by
    obtain ⟨w, x, tower, rises, rises', marks⟩ := inward.around
    refine ⟨⟨w, x, ?_, rises.rests kept.moved, rises'.rests kept.moved', marks⟩, kept.compares,
      inward.hosted.kept kept⟩
    rw [kept.near.frames, kept.near'.frames]
    exact tower

theorem mimics_enter (params : List ValueType) :
    Mimics (Weakens c) (onStack (TypedStack.enter params)) (onStack (TypedStack.enter params))
      (Inward c) := by
  intro s t weakens m u ok
  obtain ⟨k, entered, rfl⟩ := onStack_ok.mp ok
  obtain ⟨accepted, rfl, rfl⟩ := TypedStack.enter_ok.mp entered
  have weaker := weakens.tower.weaker
  have done : onStack (TypedStack.enter params) t =
      .ok (t.stack.without params).mark { t with stack := t.stack.entered params } :=
    onStack_ok.mpr ⟨_, TypedStack.enter_ok.mpr ⟨weaker.accepts accepted, rfl, rfl⟩, rfl⟩
  have below := weakens.tower.kept (weaker.without accepted)
    (TypedStack.rests_without params weaker.above)
    (TypedStack.rests_without params weaker.holds.above)
  rw [Ends, done]
  exact ⟨⟨_, _, below, TypedStack.over_entered params, TypedStack.over_entered params, rfl, rfl⟩,
    Weaker.entered _ _ params, ⟨weakens.hosted.locals, weakens.hosted.regions,
      weakens.hosted.regions', weakens.hosted.cursor⟩⟩

theorem mimics_pushFrame {kind kind' : Construct} (alike : kind.Alike kind')
    (inner : kind ≠ .function) (block block' : BlockId) :
    Mimics (Inward c mark mark') (pushFrame signature mark block kind)
      (pushFrame signature mark' block' kind') fun _ _ => Weakens c := by
  intro s t inward _ u ok
  obtain ⟨w, x, tower, rises, rises', rfl, rfl⟩ := inward.around
  obtain rfl := pushFrame_ok.mp ok
  refine ends_of_forall (fun _ v ok' => ?_) fun e v error => by cases error
  obtain rfl := pushFrame_ok.mp ok'
  refine ⟨?_, ⟨inward.hosted.locals, inward.hosted.regions, inward.hosted.regions',
    inward.hosted.cursor⟩⟩
  simp only [State.frames, frames_push]
  exact .inner inward.weaker ⟨rfl, alike⟩ inner rfl rfl rises rises' tower

theorem mimics_turn (isIf : ∃ condition params, f.construct = .ifThen condition params) :
    Mimics (InnermostFrames c f g)
      (modify fun s => { s with control := s.control.pop.push { f with construct := .ifElse } })
      (modify fun s => { s with control := s.control.pop.push { g with construct := .ifElse } })
      fun _ _ => Weakens c := by
  intro s t within_ _ u ok
  obtain rfl := modify_ok.mp ok
  refine ends_modify.mpr ⟨?_, ⟨within_.weakens.hosted.locals, within_.weakens.hosted.regions,
    within_.weakens.hosted.regions', within_.weakens.hosted.cursor⟩⟩
  obtain ⟨fs, split⟩ := List.head?_eq_some_iff.mp within_.first
  obtain ⟨gs, split'⟩ := List.head?_eq_some_iff.mp within_.second
  have tower := within_.weakens.tower
  rw [split, split'] at tower
  simp only [State.frames, frames_push, frames_pop split, frames_pop split']
  obtain ⟨condition, params, construct⟩ := isIf
  cases tower with
  | function _ _ function => cases construct.symm.trans function
  | inner weaker alike inner mark mark' rises rises' below =>
      exact .inner weaker ⟨alike.signature, .ifElse⟩ (by simp) mark mark' rises rises' below

theorem frames_of_pop (s : State) :
    State.frames { s with control := s.control.pop } = s.frames.tail := by
  rw [State.frames, Array.toList_pop, ← List.tail_reverse, State.frames]

structure Outward (c : Cursor) (s t : State) : Prop where
  tower : WeakerFrames s.frames.tail t.frames.tail s.stack t.stack
  hosted : Hosted c s t

theorem stackRelation_outward (c : Cursor) : StackRelation weakerTypes (Outward c) where
  compares outward := outward.tower.weaker
  kept outward kept := by
    refine ⟨?_, outward.hosted.kept kept⟩
    rw [kept.near.frames, kept.near'.frames]
    exact outward.tower.kept kept.compares kept.moved kept.moved'

theorem mimics_popFrame : Mimics (Outward c) popFrame popFrame fun _ _ => Weakens c := by
  intro s t outward _ u ok
  obtain rfl := popFrame_ok.mp ok
  refine ends_modify.mpr ⟨?_, ⟨outward.hosted.locals, outward.hosted.regions,
    outward.hosted.regions', outward.hosted.cursor⟩⟩
  rw [frames_of_pop, frames_of_pop]
  exact outward.tower

theorem InnermostFrames.outward (within_ : InnermostFrames c f g s t) (function : f.construct = .function) :
    Outward c s t := by
  refine ⟨?_, within_.weakens.hosted⟩
  obtain ⟨fs, split⟩ := List.head?_eq_some_iff.mp within_.first
  obtain ⟨gs, split'⟩ := List.head?_eq_some_iff.mp within_.second
  have tower := within_.weakens.tower
  rw [split, split'] at tower ⊢
  cases tower with
  | function weaker _ _ => exact .closed weaker
  | inner _ _ inner _ _ _ _ _ => exact absurd function inner

theorem mimics_leave (inner : f.construct ≠ .function) :
    Mimics (InnermostFrames c f g) (onStack (TypedStack.leave f.mark)) (onStack (TypedStack.leave g.mark))
      fun _ _ => Outward c := by
  intro s t within_ _ u ok
  obtain ⟨k, left, rfl⟩ := onStack_ok.mp ok
  obtain rfl := TypedStack.leave_ok.mp left
  have done : onStack (TypedStack.leave g.mark) t = .ok () { t with stack := t.stack.left g.mark } :=
    onStack_ok.mpr ⟨_, TypedStack.leave_ok.mpr rfl, rfl⟩
  rw [Ends, done]
  refine ⟨?_, ⟨within_.weakens.hosted.locals, within_.weakens.hosted.regions,
    within_.weakens.hosted.regions', within_.weakens.hosted.cursor⟩⟩
  obtain ⟨fs, split⟩ := List.head?_eq_some_iff.mp within_.first
  obtain ⟨gs, split'⟩ := List.head?_eq_some_iff.mp within_.second
  have tower := within_.weakens.tower
  change WeakerFrames s.frames.tail t.frames.tail (s.stack.left f.mark) (t.stack.left g.mark)
  rw [split, split'] at tower ⊢
  cases tower with
  | function _ _ function => exact absurd function inner
  | inner weaker _ _ mark mark' rises rises' below =>
      rw [mark, mark']
      have one := rises.left weaker.above
      have two := rises'.left weaker.holds.above
      rw [TypedStack.mark, TypedStack.mark, one, two]
      exact below

theorem mimics_openRegion {α β : Type} {P Q : State → State → Prop} {k : OpenRegion → Step α}
    {m' : Step β} (regions : ∀ s t, P s t → s.regions = []) :
    Mimics P (openRegion >>= k) m' fun _ _ => Q := by
  intro s t related _ u ok
  obtain ⟨r, _, found, _⟩ := bind_ok.mp ok
  obtain ⟨open_, _⟩ := openRegion_ok.mp found
  rw [regions s t related] at open_
  cases open_

/-- Two validations of which the second one stays on weaker operands, and its cursor where it is. -/
def weakening (setting : Setting) (c : Cursor) : Pairing setting where
  comparison := weakerTypes
  Held := Weakens c
  Inward := Inward c
  Within := InnermostFrames c
  Outward := Outward c
  held := stackRelation_weakens c
  inward := stackRelation_inward c
  within_ := stackRelation_innermostFrames c
  outward := stackRelation_outward c
  inside within_ := within_.weakens
  alike within_ := .inl within_.alike
  labelled depth := fun s t weakens f u ok => (mimics_labelled depth s t weakens f u ok).imp
    fun _ _ found => ⟨found.1, found.2.labelTypes⟩
  function weakens := by
    have alike := weakens.control
    rw [← Array.getElem?_toList, ← Array.getElem?_toList]
    revert alike
    generalize Array.toList _ = fs, Array.toList _ = gs
    rintro (_ | ⟨first, _⟩)
    · rfl
    · exact congrArg some first.signature
  innermost := mimics_innermost
  enter := mimics_enter
  pushFrame _ block block' alike inner := mimics_pushFrame alike inner block block'
  turn isIf _ := mimics_turn isIf
  leave := mimics_leave
  ends := InnermostFrames.outward
  popFrame := mimics_popFrame
  nextFunclet _ := mimics_openRegion fun _ _ within_ => within_.weakens.hosted.regions
  closeFunclet _ := mimics_openRegion fun _ _ within_ => within_.weakens.hosted.regions

end WasmFunclets.Validation
