import Mathlib.Data.List.Forall2
import WasmFunclets.Proofs.FuncletCalls
import WasmFunclets.Proofs.Step

/-! The open frames of a validation, each with the region it opened, and how the heights of the
operand stack fit them. -/

namespace WasmFunclets

structure OpenRegion.Later (r t : OpenRegion) : Prop where
  same : t = { r with graph := t.graph }
  keeps : FuncletCalls.KeepsCalls r.graph t.graph

theorem OpenRegion.Later.refl (r : OpenRegion) : r.Later r := ⟨rfl, .refl _⟩

theorem OpenRegion.Later.trans {r t u : OpenRegion} (first : r.Later t) (second : t.Later u) :
    r.Later u :=
  ⟨by rw [second.same, first.same], first.keeps.trans second.keeps⟩

namespace Validation

open Attempt

def State.frames (s : State) : List Frame := s.control.toList.reverse

theorem State.frame?_eq (s : State) (depth : Nat) : s.frame? depth = s.frames[depth]? := by
  unfold frame? frames
  split
  · rename_i below
    rw [List.getElem?_reverse (by simpa using below)]
    simp
  · rename_i above
    rw [List.getElem?_eq_none (by simpa using above)]

theorem State.frames_length (s : State) : s.frames.length = s.control.size := by
  simp [frames]

structure Layer where
  frame : Frame
  region : Option OpenRegion

def layersOf : List Frame → List OpenRegion → List Layer
  | [], _ => []
  | frame :: frames, regions =>
      if frame.construct = .region then ⟨frame, regions.head?⟩ :: layersOf frames regions.tail
      else ⟨frame, none⟩ :: layersOf frames regions

def State.layers (s : State) : List Layer := layersOf s.frames s.regions

theorem layersOf_region {frame : Frame} (isRegion : frame.construct = .region)
    (frames : List Frame) (region : OpenRegion) (regions : List OpenRegion) :
    layersOf (frame :: frames) (region :: regions) =
      ⟨frame, some region⟩ :: layersOf frames regions := by
  simp [layersOf, isRegion]

theorem layersOf_plain {frame : Frame} (plain : frame.construct ≠ .region)
    (frames : List Frame) (regions : List OpenRegion) :
    layersOf (frame :: frames) regions = ⟨frame, none⟩ :: layersOf frames regions := by
  simp [layersOf, plain]

theorem map_frame_layersOf (frames : List Frame) (regions : List OpenRegion) :
    (layersOf frames regions).map Layer.frame = frames := by
  induction frames generalizing regions with
  | nil => rfl
  | cons frame frames ih =>
      unfold layersOf
      split <;> simp [ih]

theorem State.map_frame_layers (s : State) : s.layers.map Layer.frame = s.frames :=
  map_frame_layersOf _ _

theorem State.layers_length (s : State) : s.layers.length = s.control.size := by
  rw [← s.frames_length, ← s.map_frame_layers, List.length_map]

theorem rel_trans {α : Type} {R : α → α → Prop} (trans : ∀ x y z, R x y → R y z → R x z)
    {a b c : Option α} (first : Option.Rel R a b) (second : Option.Rel R b c) :
    Option.Rel R a c := by
  cases first with
  | none => exact second
  | some before =>
      cases second with
      | some behind => exact .some (trans _ _ _ before behind)

/-- A layer later on: an `if` may have come to its `else`, and the graph of a region has grown. -/
structure Layer.Later (l m : Layer) : Prop where
  frame : m.frame = { l.frame with construct := m.frame.construct }
  construct : m.frame.construct = l.frame.construct ∨
    (∃ condition params, l.frame.construct = .ifThen condition params) ∧
      m.frame.construct = .ifElse
  region : Option.Rel OpenRegion.Later l.region m.region

theorem Layer.Later.loop {l m : Layer} (later : l.Later m) :
    m.frame.construct = .loop ↔ l.frame.construct = .loop := by
  rcases later.construct with same | ⟨⟨_, _, wasIf⟩, isElse⟩
  · rw [same]
  · simp [wasIf, isElse]

theorem Layer.Later.refl (l : Layer) : l.Later l where
  frame := rfl
  construct := .inl rfl
  region := by
    cases l.region with
    | none => exact .none
    | some r => exact .some (.refl r)

theorem Layer.Later.trans {l m n : Layer} (first : l.Later m) (second : m.Later n) :
    l.Later n where
  frame := by rw [second.frame, first.frame]
  construct := by
    rcases first.construct with same | ⟨wasIf, isElse⟩
    · simpa only [← same] using second.construct
    · refine .inr ⟨wasIf, ?_⟩
      rcases second.construct with same | ⟨⟨_, _, stillIf⟩, _⟩
      · rw [same, isElse]
      · rw [isElse] at stillIf
        cases stillIf
  region := rel_trans (fun _ _ _ => .trans) first.region second.region

/-- A region whose graph got further calls, all in the funclet at hand. -/
structure CallsAdded (r t : OpenRegion) : Prop extends r.Later t where
  current : t.graph.current = r.graph.current
  visited : t.graph.visited = r.graph.visited
  settled : r.graph.Settled → t.graph.Settled

theorem CallsAdded.refl (r : OpenRegion) : CallsAdded r r := ⟨.refl r, rfl, rfl, id⟩

theorem CallsAdded.trans {r t u : OpenRegion} (first : CallsAdded r t) (second : CallsAdded t u) :
    CallsAdded r u where
  toLater := first.toLater.trans second.toLater
  current := second.current.trans first.current
  visited := second.visited.trans first.visited
  settled := second.settled ∘ first.settled

structure Layer.CallsAdded (l m : Layer) : Prop where
  frame : m.frame = l.frame
  region : Option.Rel Validation.CallsAdded l.region m.region

theorem rel_refl {α : Type} {R : α → α → Prop} (refl : ∀ x, R x x) (a : Option α) :
    Option.Rel R a a := by
  cases a with
  | none => exact .none
  | some x => exact .some (refl x)

theorem rel_mono {α : Type} {R S : α → α → Prop} (mono : ∀ x y, R x y → S x y) {a b : Option α}
    (related : Option.Rel R a b) : Option.Rel S a b := by
  cases related with
  | none => exact .none
  | some both => exact .some (mono _ _ both)

theorem rel_none {α : Type} {R : α → α → Prop} {a b : Option α} (related : Option.Rel R a b) :
    b = none ↔ a = none := by
  cases related <;> simp

theorem rel_some {α : Type} {R : α → α → Prop} {a : Option α} {y : α}
    (related : Option.Rel R a (some y)) : ∃ x, a = some x ∧ R x y := by
  cases related with
  | some both => exact ⟨_, rfl, both⟩

theorem Layer.CallsAdded.later {l m : Layer} (steady : l.CallsAdded m) : l.Later m where
  frame := by rw [steady.frame]
  construct := .inl (by rw [steady.frame])
  region := rel_mono (fun _ _ same => same.toLater) steady.region

theorem layersOf_callsAdded (frames : List Frame) {regions later : List OpenRegion}
    (steady : List.Forall₂ CallsAdded regions later) :
    List.Forall₂ Layer.CallsAdded (layersOf frames regions) (layersOf frames later) := by
  induction frames generalizing regions later with
  | nil => exact .nil
  | cons frame frames ih =>
      by_cases isRegion : frame.construct = .region
      · cases steady with
        | nil =>
            simp only [layersOf, isRegion, if_true]
            exact .cons ⟨rfl, .none⟩ (ih .nil)
        | cons same rest =>
            rw [layersOf_region isRegion, layersOf_region isRegion]
            exact .cons ⟨rfl, .some same⟩ (ih rest)
      · rw [layersOf_plain isRegion, layersOf_plain isRegion]
        exact .cons ⟨rfl, .none⟩ (ih steady)

theorem forall₂_refl {α : Type} {R : α → α → Prop} (refl : ∀ x, R x x) (items : List α) :
    List.Forall₂ R items items :=
  List.forall₂_same.mpr fun x _ => refl x

theorem forall₂_trans {α : Type} {R : α → α → Prop} (trans : ∀ x y z, R x y → R y z → R x z)
    {a b c : List α} (first : List.Forall₂ R a b) (second : List.Forall₂ R b c) :
    List.Forall₂ R a c := by
  induction first generalizing c with
  | nil => exact second
  | cons before _ ih =>
      cases second with
      | cons behind rest => exact .cons (trans _ _ _ before behind) (ih rest)

structure Layer.Inside (l parent : Layer) : Prop where
  floor : l.frame.mark.floor = parent.frame.mark.height
  height : parent.frame.mark.height ≤ l.frame.mark.height
  inner : l.frame.construct ≠ .function
  plain : l.region = none → l.frame.construct ≠ .region ∧
    l.frame.outerUnreachable = (parent.frame.outerUnreachable || l.frame.mark.polymorphic)
  region : ∀ r, l.region = some r → l.frame.construct = .region ∧
    l.frame.outerUnreachable = false ∧ r.signature = l.frame.signature ∧
    r.exit = l.frame.target ∧ r.base = l.frame.mark.height ∧ r.blocks.size = r.graph.size

inductive Nested : List Layer → Prop where
  | function {l : Layer} (construct : l.frame.construct = .function)
      (mark : l.frame.mark = ⟨0, 0, false⟩) (reachable : l.frame.outerUnreachable = false)
      (region : l.region = none) : Nested [l]
  | inside {l parent : Layer} {outer : List Layer} (nested : Nested (parent :: outer))
      (inside : l.Inside parent) : Nested (l :: parent :: outer)

theorem Layer.Inside.later {l parent m around : Layer} (inside : l.Inside parent)
    (later : l.Later m) (outer : parent.Later around) : m.Inside around := by
  have mark : m.frame.mark = l.frame.mark := by rw [later.frame]
  have ground : around.frame.mark = parent.frame.mark := by rw [outer.frame]
  have reach : m.frame.outerUnreachable = l.frame.outerUnreachable := by rw [later.frame]
  have around_reach : around.frame.outerUnreachable = parent.frame.outerUnreachable := by
    rw [outer.frame]
  have regions := later.region
  refine ⟨by rw [mark, ground, inside.floor], by rw [mark, ground]; exact inside.height, ?_, ?_, ?_⟩
  · rcases later.construct with same | ⟨_, isElse⟩
    · rw [same]
      exact inside.inner
    · simp [isElse]
  · intro none_
    obtain ⟨notRegion, unreachable⟩ := inside.plain ((rel_none regions).mp none_)
    refine ⟨?_, by rw [reach, around_reach, mark, unreachable]⟩
    rcases later.construct with same | ⟨_, isElse⟩
    · rwa [same]
    · simp [isElse]
  · intro r some_
    rw [some_] at regions
    obtain ⟨first, region, grown⟩ := rel_some regions
    obtain ⟨construct, reachable, signature, exit, base, blocks⟩ := inside.region first region
    have frame := later.frame
    refine ⟨?_, by rw [reach, reachable], ?_, ?_, ?_, ?_⟩
    · rcases later.construct with same | ⟨⟨_, _, wasIf⟩, _⟩
      · rw [same, construct]
      · simp [construct] at wasIf
    all_goals rw [grown.same]
    · rw [frame, signature]
    · rw [frame, exit]
    · rw [mark, base]
    · exact blocks.trans grown.keeps.size_eq.symm

theorem Nested.later {layers later : List Layer} (nested : Nested layers)
    (same : List.Forall₂ Layer.Later layers later) : Nested later := by
  induction nested generalizing later with
  | function construct mark reachable region =>
      cases same with
      | cons head tail =>
          cases tail
          have regions := head.region
          refine .function ?_ (by rw [head.frame, mark]) (by rw [head.frame, reachable]) ?_
          · rcases head.construct with same | ⟨⟨_, _, wasIf⟩, _⟩
            · rw [same, construct]
            · simp [construct] at wasIf
          · exact (rel_none regions).mpr region
  | inside nested inside ih =>
      cases same with
      | cons head tail =>
          cases tail with
          | cons next tail =>
              exact .inside (ih (.cons next tail)) (inside.later head next)

/-- Between instructions the layers are nested, the graphs of the open regions settled, and the
floor of the operand stack is where the innermost frame was entered. -/
structure Framed (s : State) : Prop where
  nested : Nested s.layers
  count : s.regions.length = s.frames.countP fun frame => frame.construct = .region
  settled : ∀ r ∈ s.regions, r.graph.Settled
  floor : ∀ l outer, s.layers = l :: outer → s.stack.floor = l.frame.mark.height
  above : s.stack.floor ≤ s.stack.height

theorem Nested.ne_nil {layers : List Layer} (nested : Nested layers) : layers ≠ [] := by
  cases nested <;> exact List.cons_ne_nil _ _

theorem Nested.cons {layers : List Layer} (nested : Nested layers) :
    ∃ l outer, layers = l :: outer := by
  cases nested <;> exact ⟨_, _, rfl⟩

theorem Nested.drop {layers : List Layer} {d : Nat} {l : Layer} {outer : List Layer}
    (nested : Nested layers) (found : layers.drop d = l :: outer) : Nested (l :: outer) := by
  induction d generalizing layers with
  | zero => exact found ▸ nested
  | succ d ih =>
      cases nested with
      | function => simp at found
      | inside nested _ => exact ih nested found

theorem Nested.last {layers : List Layer} (nested : Nested layers) :
    ∃ l, layers.drop (layers.length - 1) = [l] ∧ l.frame.construct = .function := by
  induction nested with
  | function construct => exact ⟨_, rfl, construct⟩
  | inside _ _ ih =>
      obtain ⟨l, last, construct⟩ := ih
      exact ⟨l, by simpa using last, construct⟩

theorem mem_regions_of_layersOf {frames : List Frame} {regions : List OpenRegion} {l : Layer}
    {r : OpenRegion} (member : l ∈ layersOf frames regions) (region : l.region = some r) :
    r ∈ regions := by
  induction frames generalizing regions with
  | nil => simp [layersOf] at member
  | cons frame frames ih =>
      unfold layersOf at member
      split at member
      · rcases List.mem_cons.mp member with rfl | inner
        · exact List.mem_of_head? region
        · exact List.mem_of_mem_tail (ih inner)
      · rcases List.mem_cons.mp member with rfl | inner
        · cases region
        · exact ih inner

theorem Nested.inner {l : Layer} {outer : List Layer} (nested : Nested (l :: outer))
    (inner : l.frame.construct ≠ .function) :
    ∃ parent around, outer = parent :: around ∧ l.Inside parent ∧ Nested outer := by
  cases nested with
  | function construct => exact absurd construct inner
  | inside nested inside => exact ⟨_, _, rfl, inside, nested⟩

/-- Changes that keep the frames, the regions but for further calls, and all below the floor. The stack
does not become one of unreachable code directly in a funclet. -/
structure Quiet (s t : State) : Prop where
  cursor : t.cursor = s.cursor
  start : t.start = s.start
  control : t.control = s.control
  region : Option.Rel CallsAdded s.regions.head? t.regions.head?
  outer : t.regions.tail = s.regions.tail
  stack : TypedStack.Rests s.stack t.stack
  closed : t.closed = s.closed
  exit : t.exit = s.exit
  locals : t.builder.locals = s.builder.locals
  finiteIn : t.stack.polymorphic = true → s.stack.polymorphic = true ∨
    ∃ frame, s.frame? 0 = some frame ∧ frame.construct ≠ .region

theorem Quiet.refl {s : State} (above : s.stack.floor ≤ s.stack.height) : Quiet s s :=
  ⟨rfl, rfl, rfl, rel_refl .refl _, rfl, .refl above, rfl, rfl, rfl, .inl⟩

theorem Quiet.trans {s t u : State} (first : Quiet s t) (second : Quiet t u) : Quiet s u where
  cursor := second.cursor.trans first.cursor
  start := second.start.trans first.start
  control := second.control.trans first.control
  region := rel_trans (fun _ _ _ => .trans) first.region second.region
  outer := second.outer.trans first.outer
  stack := first.stack.trans second.stack
  closed := second.closed.trans first.closed
  exit := second.exit.trans first.exit
  locals := second.locals.trans first.locals
  finiteIn polymorphic := (second.finiteIn polymorphic).elim first.finiteIn fun inner => .inr <| by
    simpa only [State.frame?, first.control] using inner

theorem Quiet.of_parts {s : State} {stack : TypedStack} {builder : Ssa.Builder} {current : BlockId}
    (rests : TypedStack.Rests s.stack stack) (locals : builder.locals = s.builder.locals)
    (finiteIn : stack.polymorphic = true → s.stack.polymorphic = true ∨
      ∃ frame, s.frame? 0 = some frame ∧ frame.construct ≠ .region) :
    Quiet s { s with stack, builder, current } :=
  ⟨rfl, rfl, rfl, rel_refl .refl _, rfl, rests, rfl, rfl, locals, finiteIn⟩

theorem Quiet.regions {s t : State} (quiet : Quiet s t) :
    List.Forall₂ CallsAdded s.regions t.regions := by
  have head := quiet.region
  have tail := quiet.outer
  revert head tail
  cases s.regions <;> cases t.regions <;> intro head tail
  · exact .nil
  · cases head
  · cases head
  · cases head with
    | some same =>
        obtain rfl : _ = _ := tail
        exact .cons same (forall₂_refl .refl _)

theorem Quiet.frames {s t : State} (quiet : Quiet s t) : t.frames = s.frames := by
  rw [State.frames, quiet.control, State.frames]

theorem Quiet.layers {s t : State} (quiet : Quiet s t) :
    List.Forall₂ Layer.CallsAdded s.layers t.layers := by
  unfold State.layers
  rw [quiet.frames]
  exact layersOf_callsAdded _ quiet.regions

theorem settled_of_callsAdded {regions later : List OpenRegion}
    (steady : List.Forall₂ CallsAdded regions later) (settled : ∀ r ∈ regions, r.graph.Settled) :
    ∀ r ∈ later, r.graph.Settled := by
  induction steady with
  | nil => simp
  | cons head _ ih =>
      have tail := ih fun r member => settled r (List.mem_cons_of_mem _ member)
      simp only [List.mem_cons, forall_eq_or_imp] at settled ⊢
      exact ⟨head.settled settled.1, tail⟩

theorem Framed.quiet {s t : State} (framed : Framed s) (quiet : Quiet s t) : Framed t where
  nested := framed.nested.later (quiet.layers.imp fun _ _ same => same.later)
  count := by rw [← quiet.regions.length_eq, quiet.frames, framed.count]
  settled := settled_of_callsAdded quiet.regions framed.settled
  floor l outer layers := by
    have steady := quiet.layers
    rw [layers] at steady
    cases before : s.layers with
    | nil => rw [before] at steady; cases steady
    | cons m around =>
        rw [before] at steady
        cases steady with
        | cons same _ => rw [quiet.stack.floor, framed.floor m around before, same.frame]
  above := quiet.stack.above

theorem State.layers_of_plain {s : State} {frame : Frame} {frames : List Frame}
    (split : s.frames = frame :: frames) (plain : frame.construct ≠ .region) :
    s.layers = ⟨frame, none⟩ :: layersOf frames s.regions := by
  rw [State.layers, split, layersOf_plain plain]

theorem Framed.region_on_top {s : State} (framed : Framed s) {frame : Frame} {frames : List Frame}
    (split : s.frames = frame :: frames) (isRegion : frame.construct = .region) :
    ∃ r rest, s.regions = r :: rest ∧
      s.layers = ⟨frame, some r⟩ :: layersOf frames rest := by
  cases regions : s.regions with
  | nil =>
      have count := framed.count
      rw [regions, split, List.countP_cons] at count
      simp [isRegion] at count
  | cons r rest =>
      exact ⟨r, rest, rfl, by rw [State.layers, split, regions, layersOf_region isRegion]⟩

theorem Framed.cons {s : State} (framed : Framed s) :
    ∃ frame frames, s.frames = frame :: frames ∧ s.frame? 0 = some frame ∧
      s.stack.floor = frame.mark.height := by
  obtain ⟨l, outer, layers⟩ := framed.nested.cons
  have frames := s.map_frame_layers
  rw [layers, List.map_cons] at frames
  refine ⟨l.frame, _, frames.symm, ?_, framed.floor l outer layers⟩
  rw [s.frame?_eq, ← frames]
  rfl

theorem Nested.base_eq {l : Layer} {outer : List Layer} {r : OpenRegion}
    (nested : Nested (l :: outer)) (region : l.region = some r) :
    r.base = l.frame.mark.height := by
  cases nested with
  | function _ _ _ plain => simp [plain] at region
  | inside _ inside => exact (inside.region r region).2.2.2.2.1

theorem Nested.exit_eq {l : Layer} {outer : List Layer} {r : OpenRegion} (nested : Nested (l :: outer))
    (region : l.region = some r) : r.exit = l.frame.target := by
  cases nested with
  | function _ _ _ plain => simp [plain] at region
  | inside _ inside => exact (inside.region r region).2.2.2.1

/-- The innermost region is that of the innermost layer that has one. -/
theorem Framed.innermost_region {s : State} (framed : Framed s) {r : OpenRegion}
    {rest : List OpenRegion} (regions : s.regions = r :: rest) :
    ∃ inner l outer, s.layers = inner ++ l :: outer ∧ l.region = some r ∧
      ∀ m ∈ inner, m.region = none := by
  have count := framed.count
  rw [State.layers, regions]
  rw [regions, List.length_cons] at count
  have some_ : 0 < s.frames.countP fun frame => frame.construct = .region := by omega
  clear count
  generalize s.frames = frames at some_
  induction frames with
  | nil => simp at some_
  | cons frame frames ih =>
      by_cases isRegion : frame.construct = .region
      · exact ⟨[], ⟨frame, some r⟩, _, layersOf_region isRegion _ _ _, rfl, by simp⟩
      · obtain ⟨inner, l, outer, layers, region, plain⟩ := ih (by simpa [isRegion] using some_)
        refine ⟨⟨frame, none⟩ :: inner, l, outer, ?_, region, ?_⟩
        · rw [layersOf_plain isRegion, layers, List.cons_append]
        · intro m member
          rcases List.mem_cons.mp member with rfl | deeper
          · rfl
          · exact plain m deeper

theorem frames_pop {control : Array Frame} {frame : Frame} {frames : List Frame}
    (split : control.toList.reverse = frame :: frames) :
    control.pop.toList.reverse = frames := by
  rw [Array.toList_pop, ← List.tail_reverse, split, List.tail_cons]

theorem frames_push (control : Array Frame) (frame : Frame) :
    (control.push frame).toList.reverse = frame :: control.toList.reverse := by
  rw [Array.toList_push, List.reverse_append, List.reverse_singleton, List.singleton_append]

end Validation

end WasmFunclets
