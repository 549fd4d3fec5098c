import Mathlib.Data.Nat.Find
import WasmFunclets.Proofs.Listing
import WasmFunclets.Proofs.Moves

/-! What holds over the course of a validation: layers keep what they were opened with, and the
operands below them stay, until they are closed. -/

namespace WasmFunclets.Validation

open Attempt

variable {s t : State} {i : Instruction}

def lowest {α : Type} (n : Nat) (items : List α) : List α := items.drop (items.length - n)

theorem lowest_length {α : Type} (items : List α) : lowest items.length items = items := by
  simp [lowest]

theorem lowest_cons {α : Type} {n : Nat} {item : α} {items : List α} (le : n ≤ items.length) :
    lowest n (item :: items) = lowest n items := by
  rw [lowest, lowest, List.length_cons, Nat.succ_sub le, List.drop_succ_cons]

theorem forall₂_lowest {α : Type} {R : α → α → Prop} {items later : List α} (n : Nat)
    (same : List.Forall₂ R items later) : List.Forall₂ R (lowest n items) (lowest n later) := by
  rw [lowest, lowest, same.length_eq]
  exact List.forall₂_drop _ same

theorem Nested.region_iff {l : Layer} {outer : List Layer} (nested : Nested (l :: outer)) :
    l.frame.construct = .region ↔ l.region.isSome := by
  cases nested with
  | function construct _ _ region => simp [construct, region]
  | inside _ inside =>
      cases region : l.region with
      | none => simpa using (inside.plain region).1
      | some r => simpa using (inside.region r region).1

theorem Nested.plain_iff {l : Layer} {outer : List Layer} (nested : Nested (l :: outer)) :
    l.frame.construct ≠ .region ↔ l.region = none := by
  rw [Ne, nested.region_iff, Option.not_isSome_iff_eq_none]

theorem Framed.frames_cons {l : Layer} {outer : List Layer} (layers : s.layers = l :: outer) :
    s.frames = l.frame :: outer.map Layer.frame := by
  rw [← s.map_frame_layers, layers, List.map_cons]

theorem Framed.region_cons {l : Layer} {outer : List Layer} (framed : Framed s)
    (layers : s.layers = l :: outer) :
    s.regions = l.region.toList ++ s.regions.drop l.region.toList.length := by
  have split := Framed.frames_cons layers
  cases region : l.region with
  | none => rfl
  | some r =>
      have isRegion : l.frame.construct = .region :=
        (layers ▸ framed.nested).region_iff.mpr (by simp [region])
      obtain ⟨r', rest, regions, layers'⟩ := framed.region_on_top split isRegion
      rw [layers] at layers'
      have same := congrArg Layer.region (List.cons.inj layers').1
      rw [region] at same
      obtain rfl := Option.some.inj same
      rw [regions]
      rfl

theorem FreshOperands.above {l : Layer} {types : List ValueType} (starts : FreshOperands s t l types) :
    t.stack.floor ≤ t.stack.height := by
  rw [starts.floor, starts.tops.height]
  exact Nat.le_add_right _ _

theorem Shift.framed (framed : Framed s) (shift : Shift s i t) (isOpen : t.layers ≠ []) :
    Framed t := by
  cases shift with
  | stays quiet _ => exact framed.quiet quiet
  | opens l layers starts inside _ regions region =>
      obtain ⟨parent, around, before⟩ := framed.nested.cons
      have nested : Nested t.layers := by
        rw [layers, before]
        exact .inside (before ▸ framed.nested) (inside parent around before)
      have split : t.frames = l.frame :: s.frames := by
        rw [Framed.frames_cons layers, s.map_frame_layers]
      refine ⟨nested, ?_, ?_, ?_, starts.above⟩
      · have iff := (layers ▸ nested).region_iff
        rw [regions, split, List.countP_cons, List.length_append, framed.count]
        cases region : l.region <;> simp_all [Nat.add_comm]
      · intro r member
        rw [regions] at member
        rcases List.mem_append.mp member with new | old
        · exact (region r (by simpa using new)).2.1
        · exact framed.settled r old
      · intro m outer same
        rw [layers] at same
        rw [← (List.cons.inj same).1]
        exact starts.floor
  | turns l m outer before layers condition params isIf isElse starts _ regions _ =>
      have later : l.Later m := by
        rw [isElse]
        exact ⟨rfl, .inr ⟨⟨condition, params, isIf⟩, rfl⟩, rel_refl .refl _⟩
      have split := Framed.frames_cons before
      have split' := Framed.frames_cons layers
      refine ⟨?_, ?_, by rw [regions]; exact framed.settled, ?_, starts.above⟩
      · rw [layers]
        exact (before ▸ framed.nested).later (.cons later (forall₂_refl Layer.Later.refl _))
      · rw [regions, framed.count, split, split', List.countP_cons, List.countP_cons, isElse, isIf]
        rfl
      · intro n around same
        rw [layers] at same
        rw [← (List.cons.inj same).1, isElse]
        exact starts.floor
  | goesOn l m outer before layers r q region frame later settled regions _ _ _ _ starts _ =>
      have grown : l.Later m := by
        rw [frame]
        exact ⟨rfl, .inl rfl, by rw [region]; exact .some later⟩
      have split := Framed.frames_cons before
      have split' := Framed.frames_cons layers
      rw [frame] at split'
      refine ⟨?_, ?_, ?_, ?_, starts.above⟩
      · rw [layers]
        exact (before ▸ framed.nested).later (.cons grown (forall₂_refl Layer.Later.refl _))
      · have count := framed.count
        rw [regions.1, split] at count
        rw [regions.2, split']
        exact count
      · intro p member
        rw [regions.2] at member
        rcases List.mem_cons.mp member with rfl | old
        · exact settled
        · exact framed.settled p (List.mem_of_mem_tail old)
      · intro n around same
        rw [layers] at same
        rw [← (List.cons.inj same).1, frame]
        exact starts.floor
  | closes l parent outer before layers regions tops floor _ _ _ =>
      obtain ⟨_, _, around, inside, nested⟩ := (before ▸ framed.nested).inner (by
        cases before ▸ framed.nested with
        | inside _ inside => exact inside.inner)
      obtain ⟨rfl, rfl⟩ := List.cons.inj around
      have split := Framed.frames_cons before
      refine ⟨layers ▸ nested, ?_, ?_, ?_, ?_⟩
      -- one region fewer is open just when the layer that is left is one of a region
      · have count := framed.count
        have iff := (before ▸ framed.nested).region_iff
        have head : l.region.toList.length = if l.frame.construct = .region then 1 else 0 := by
          cases region : l.region <;> simp [iff, region]
        rw [framed.region_cons before, split, List.countP_cons, List.length_append, head] at count
        rw [regions, ← t.map_frame_layers, layers, head]
        simp only [decide_eq_true_eq] at count
        omega
      · intro r member
        rw [regions] at member
        exact framed.settled r (List.mem_of_mem_drop member)
      · intro m around same
        rw [layers] at same
        rw [floor, inside.floor, (List.cons.inj same).1]
      · rw [floor, tops.height, inside.floor]
        exact Nat.le_add_right_of_le inside.height
  | ends l _ control _ _ =>
      have empty : t.layers = [] := by simp [State.layers, State.frames, control, layersOf]
      exact absurd empty isOpen

theorem Shift.length (shift : Shift s i t) :
    t.layers.length ≤ s.layers.length + 1 ∧ s.layers.length ≤ t.layers.length + 1 := by
  cases shift with
  | stays quiet _ =>
      have := quiet.layers.length_eq
      omega
  | opens l layers =>
      rw [layers, List.length_cons]
      omega
  | turns l m outer before layers =>
      rw [before, layers, List.length_cons, List.length_cons]
      omega
  | goesOn l m outer before layers =>
      rw [before, layers, List.length_cons, List.length_cons]
      omega
  | closes l parent outer before layers =>
      rw [before, layers, List.length_cons (a := l)]
      omega
  | ends l before control =>
      have empty : t.layers = [] := by simp [State.layers, State.frames, control, layersOf]
      rw [before, empty]
      simp

/-- A layer that is there before and behind a step is the same one. -/
theorem Shift.stable {n : Nat} (shift : Shift s i t) (before : n ≤ s.layers.length)
    (behind : n ≤ t.layers.length) :
    List.Forall₂ Layer.Later (lowest n s.layers) (lowest n t.layers) := by
  cases shift with
  | stays quiet _ => exact forall₂_lowest n (quiet.layers.imp fun _ _ same => same.later)
  | opens l layers =>
      rw [layers, lowest_cons before]
      exact forall₂_refl Layer.Later.refl _
  | turns l m outer layers layers' condition params isIf isElse =>
      have later : l.Later m := by
        rw [isElse]
        exact ⟨rfl, .inr ⟨⟨condition, params, isIf⟩, rfl⟩, rel_refl .refl _⟩
      rw [layers, layers']
      exact forall₂_lowest n (.cons later (forall₂_refl Layer.Later.refl _))
  | goesOn l m outer layers layers' r q region frame later =>
      have grown : l.Later m := by
        rw [frame]
        exact ⟨rfl, .inl rfl, by rw [region]; exact .some later⟩
      rw [layers, layers']
      exact forall₂_lowest n (.cons grown (forall₂_refl Layer.Later.refl _))
  | closes l parent outer layers layers' =>
      rw [layers'] at behind ⊢
      rw [layers, lowest_cons behind]
      exact forall₂_refl Layer.Later.refl _
  | ends l layers control =>
      have empty : t.layers = [] := by simp [State.layers, State.frames, control, layersOf]
      rw [empty] at behind
      obtain rfl : n = 0 := by simpa using behind
      simp [lowest]

theorem Nested.heights {l m : Layer} {outer : List Layer} (nested : Nested (l :: outer))
    (member : m ∈ l :: outer) : m.frame.mark.height ≤ l.frame.mark.height := by
  generalize whole : l :: outer = layers at nested
  induction nested generalizing l outer with
  | function =>
      obtain ⟨rfl, rfl⟩ := List.cons.inj whole
      exact Nat.le_of_eq (by rw [List.mem_singleton.mp member])
  | inside nested inside ih =>
      obtain ⟨rfl, rfl⟩ := List.cons.inj whole
      rcases List.mem_cons.mp member with rfl | deeper
      · exact Nat.le_refl _
      · exact Nat.le_trans (ih deeper rfl) inside.height

/-- The operands below a layer that is there before and behind a step are the same. -/
theorem Shift.operands {n : Nat} {l : Layer} {around : List Layer} (framed : Framed s)
    (shift : Shift s i t) (before : n ≤ s.layers.length) (behind : n ≤ t.layers.length)
    (found : lowest n s.layers = l :: around) :
    t.stack.operands.toList.take l.frame.mark.height =
      s.stack.operands.toList.take l.frame.mark.height := by
  have member : l ∈ s.layers := by
    have inside : l ∈ lowest n s.layers := by simp [found]
    exact List.mem_of_mem_drop inside
  obtain ⟨top, outer, layers⟩ := framed.nested.cons
  have below : l.frame.mark.height ≤ top.frame.mark.height :=
    (layers ▸ framed.nested).heights (layers ▸ member)
  have floor := framed.floor top outer layers
  cases shift with
  | stays quiet _ => exact TypedStack.take_of_take (floor ▸ below) quiet.stack.below
  | opens m layers' starts inside =>
      have reach := (inside top outer layers).height
      exact TypedStack.take_of_take (Nat.le_trans below reach) (starts.tops.take)
  | turns m m' around' layers' _ _ _ _ _ starts =>
      rw [layers] at layers'
      obtain ⟨rfl, _⟩ := List.cons.inj layers'
      exact TypedStack.take_of_take below (starts.tops.take)
  | goesOn m m' around' layers' _ _ _ _ _ _ _ _ _ _ _ _ starts =>
      rw [layers] at layers'
      obtain ⟨rfl, _⟩ := List.cons.inj layers'
      exact TypedStack.take_of_take below (starts.tops.take)
  | closes m parent around' layers' layers'' _ tops =>
      rw [layers] at layers'
      obtain ⟨rfl, _⟩ := List.cons.inj layers'
      exact TypedStack.take_of_take below (tops.take)
  | ends m layers' control =>
      have empty : t.layers = [] := by simp [State.layers, State.frames, control, layersOf]
      rw [empty] at behind
      obtain rfl : n = 0 := by simpa using behind
      simp [lowest] at found

def State.fetched (s : State) (c : Cursor) : State :=
  { s with start := s.cursor.offset, cursor := c, decoded := s.decoded + 1 }

def scopeOf (setting : Setting) (s : State) : Scope :=
  ⟨setting, s.builder.locals, s.control.size, s.regions.head?.map OpenRegion.graph⟩

theorem fetch_ok {setting : Setting} {u : State} (ok : fetch setting s = .ok i u) :
    ∃ c, u = { s with start := s.cursor.offset, cursor := c } ∧
      Decode.instruction (scopeOf setting s) s.cursor = .ok i c := by
  simp only [fetch, scope, bind_ok, modify_ok, get_ok, require_ok, pure_ok, onCursor_ok] at ok
  obtain ⟨_, _, rfl, _, _, ⟨rfl, rfl⟩, _, _, ⟨_, rfl⟩, _, _, ⟨_, _, ⟨rfl, rfl⟩, rfl, rfl⟩, c,
    decoded, rfl⟩ := ok
  exact ⟨c, rfl, decoded⟩

theorem Framed.fetched (framed : Framed s) (c : Cursor) : Framed (s.fetched c) :=
  ⟨framed.nested, framed.count, framed.settled, framed.floor, framed.above⟩

structure Taken (setting : Setting) (s : State) (line : Located) (t : State) (c : Cursor) : Prop where
  offset : line.offset = s.cursor.offset
  onward : s.cursor.offset < c.offset
  knows : Decode.Knows (scopeOf setting s) line.instruction
  executed : execute setting line.instruction (s.fetched c) = .ok () t
  moves : Moves (s.fetched c) line.instruction t

theorem Passes.taken {setting : Setting} {line : Located} (passes : Passes setting s line t)
    (framed : Framed s) : ∃ c, Taken setting s line t c := by
  obtain ⟨u, fetched, executed⟩ := passes.executed
  obtain ⟨c, rfl, decoded⟩ := fetch_ok fetched
  have further := ((Decode.instruction_consumes _ _).of_ok decoded).2
  exact ⟨c, passes.offset, further, Decode.instruction_knows decoded, executed,
    execute_moves (framed.fetched c) executed⟩

/-- The course of a validation from the point where the frame of the function is open. -/
structure Course (setting : Setting) (code : List Located) (states : Nat → State) : Prop
    extends Trace setting code states where
  start : Framed (states 0)
  nests : (states 0).nests = [.plain]
  clean : (states 0).regions = [] ∧ (states 0).closed = #[]

namespace Course

variable {setting : Setting} {code : List Located} {states : Nat → State}

theorem layers_ne_nil {setting : Setting} {line : Located} (passes : Passes setting s line t) :
    s.layers ≠ [] := by
  intro empty
  have size := s.layers_length
  rw [empty] at size
  have isOpen := passes.isOpen
  rw [Array.isEmpty_eq_false_iff] at isOpen
  exact isOpen (Array.eq_empty_of_size_eq_zero size.symm)

theorem framed (course : Course setting code states) {k : Nat} (inside : k < code.length) :
    Framed (states k) := by
  induction k with
  | zero => exact course.start
  | succ k ih =>
      have before := ih (Nat.lt_of_succ_lt inside)
      obtain ⟨c, taken⟩ := (course.passes k (Nat.lt_of_succ_lt inside)).taken before
      exact taken.moves.shift.framed (before.fetched c) (layers_ne_nil (course.passes _ inside))

theorem taken (course : Course setting code states) {k : Nat} (inside : k < code.length) :
    ∃ c, Taken setting (states k) code[k] (states (k + 1)) c :=
  (course.passes k inside).taken (course.framed inside)

theorem last_layers (course : Course setting code states) : (states code.length).layers = [] := by
  have closed := course.closed
  rw [Array.isEmpty_iff] at closed
  simp [State.layers, State.frames, closed, layersOf]

theorem nests_at (course : Course setting code states) {k : Nat} (inside : k ≤ code.length) :
    (code.take k).foldl (fun nest line => Nest.advance nest line.instruction) [.plain] =
      (states k).nests := by
  induction k with
  | zero => exact course.nests.symm
  | succ k ih =>
      obtain ⟨c, taken⟩ := course.taken inside
      rw [List.take_add_one, List.getElem?_eq_getElem inside, Option.toList_some, List.foldl_append,
        ih (Nat.le_of_succ_le inside), List.foldl_cons, List.foldl_nil]
      exact taken.moves.nests.symm

theorem stable (course : Course setting code states) {j k n : Nat} (le : j ≤ k)
    (inside : k ≤ code.length) (above : ∀ m, j ≤ m → m ≤ k → n ≤ (states m).layers.length) :
    List.Forall₂ Layer.Later (lowest n (states j).layers) (lowest n (states k).layers) := by
  induction k, le using Nat.le_induction with
  | base => exact forall₂_refl Layer.Later.refl _
  | succ k le ih =>
      have first := ih (Nat.le_of_succ_le inside) fun m from_ upto => above m from_ (Nat.le_succ_of_le upto)
      obtain ⟨c, taken⟩ := course.taken inside
      exact forall₂_trans (fun _ _ _ => .trans) first
        (taken.moves.shift.stable (above k le (Nat.le_succ k)) (above (k + 1) (Nat.le_succ_of_le le)
          (Nat.le_refl _)))

/-- The operands below a layer stay as long as it is open. -/
theorem operands (course : Course setting code states) {j k n : Nat} (le : j ≤ k)
    (inside : k ≤ code.length) (above : ∀ m, j ≤ m → m ≤ k → n ≤ (states m).layers.length)
    {l : Layer} {around : List Layer} (found : lowest n (states j).layers = l :: around) :
    (states k).stack.operands.toList.take l.frame.mark.height =
      (states j).stack.operands.toList.take l.frame.mark.height := by
  induction k, le using Nat.le_induction with
  | base => rfl
  | succ k le ih =>
      have before (m : Nat) (from_ : j ≤ m) (upto : m ≤ k) := above m from_ (Nat.le_succ_of_le upto)
      have first := ih (Nat.le_of_succ_le inside) before
      have same := course.stable le (Nat.le_of_succ_le inside) before
      rw [found] at same
      generalize later : lowest n (states k).layers = layers at same
      cases same with
      | cons head _ =>
          obtain ⟨c, taken⟩ := course.taken inside
          have step := taken.moves.shift.operands ((course.framed inside).fetched c)
            (above k le (Nat.le_succ k)) (above (k + 1) (Nat.le_succ_of_le le) (Nat.le_refl _)) later
          have mark := congrArg (fun frame => frame.mark.height) head.frame
          dsimp only at mark
          rw [mark] at step
          exact step.trans first

theorem locals (course : Course setting code states) {k : Nat} (inside : k ≤ code.length) :
    (states k).builder.locals = (states 0).builder.locals := by
  induction k with
  | zero => rfl
  | succ k ih =>
      obtain ⟨c, taken⟩ := course.taken inside
      exact taken.moves.locals.trans (ih (Nat.le_of_succ_le inside))

theorem exit (course : Course setting code states) {k : Nat} (inside : k ≤ code.length) :
    (states k).exit = (states 0).exit := by
  induction k with
  | zero => rfl
  | succ k ih =>
      obtain ⟨c, taken⟩ := course.taken inside
      exact taken.moves.exit.trans (ih (Nat.le_of_succ_le inside))

/-- A layer that is open is closed later on, at the first point without it. -/
theorem exists_exit (course : Course setting code states) {k n : Nat} (inside : k ≤ code.length)
    (isOpen : n < (states k).layers.length) :
    ∃ q, k ≤ q ∧ q < code.length ∧ (states (q + 1)).layers.length = n ∧
      ∀ m, k ≤ m → m ≤ q → n < (states m).layers.length := by
  have some_ : ∃ d, (states (k + d)).layers.length ≤ n :=
    ⟨code.length - k, by
      rw [Nat.add_sub_cancel' inside, course.last_layers]
      exact Nat.zero_le _⟩
  obtain ⟨d, low, first⟩ : ∃ d, (states (k + d)).layers.length ≤ n ∧
      ∀ e < d, n < (states (k + e)).layers.length := by
    refine ⟨Nat.find some_, Nat.find_spec some_, fun e below => ?_⟩
    exact Nat.lt_of_not_le (Nat.find_min some_ below)
  cases d with
  | zero => exact absurd low (Nat.not_le.mpr isOpen)
  | succ d =>
      have within : k + d < code.length := by
        by_contra beyond
        have high := first (code.length - k) (by omega)
        rw [Nat.add_sub_cancel' inside, course.last_layers] at high
        exact Nat.not_lt_zero _ high
      refine ⟨k + d, by omega, within, ?_, fun m from_ upto => ?_⟩
      · obtain ⟨c, taken⟩ := course.taken within
        have high := first d (Nat.lt_succ_self d)
        have := taken.moves.shift.length.2
        change (states (k + d)).layers.length ≤ _ at this
        rw [← Nat.add_assoc] at low
        omega
      · have high := first (m - k) (by omega)
        rwa [Nat.add_sub_cancel' from_] at high

end Course

theorem openFunction_ok {context : Context} {bytes : List UInt8} {t : State}
    (ok : openFunction context (initial bytes) = .ok () t) :
    ∃ exit cursor, Decode.locals context.signature.params (.ofBytes bytes) =
        .ok t.builder.locals cursor ∧ t.stack = .empty ∧ t.regions = [] ∧ t.closed = #[] ∧
      t.control = #[⟨⟨[], context.signature.results⟩, ⟨0, 0, false⟩, exit, .function, false⟩] := by
  simp only [openFunction, bind_ok, onCursor_ok, modify_ok, newTarget_ok, pushFrame_ok] at ok
  obtain ⟨types, _, ⟨cursor, declared, rfl⟩, _, _, rfl, exit, _, ⟨b, made, rfl⟩, _, _, rfl, rfl⟩ := ok
  have locals : b.locals = types := (target_leaves _ _).of_ok made
  exact ⟨exit, cursor, locals ▸ declared, rfl, rfl, rfl, rfl⟩

theorem layers_of_openFunction {s : State} {frame : Frame} (control : s.control = #[frame])
    (construct : frame.construct = .function) : s.layers = [⟨frame, none⟩] := by
  have frames : s.frames = [frame] := by rw [State.frames, control]; rfl
  exact s.layers_of_plain frames (by simp [construct])

theorem framed_of_openFunction {context : Context} {bytes : List UInt8}
    (opened : openFunction context (initial bytes) = .ok () t) : Framed t := by
  obtain ⟨exit, cursor, _, stack, regions, closed, control⟩ := openFunction_ok opened
  have layers := layers_of_openFunction control rfl
  constructor
  case nested =>
    rw [layers]
    exact .function rfl rfl rfl rfl
  case count =>
    rw [regions, State.frames, control]
    rfl
  case settled =>
    simp [regions]
  case floor =>
    intro l outer same
    rw [layers] at same
    rw [← (List.cons.inj same).1, stack]
    rfl
  case above =>
    rw [stack]
    exact Nat.le_refl _

theorem course_of_openFunction {context : Context} {bytes : List UInt8} {code : List Located}
    {states : Nat → State} (opened : openFunction context (initial bytes) = .ok () (states 0))
    (trace : Trace ⟨context, true⟩ code states) : Course ⟨context, true⟩ code states := by
  obtain ⟨exit, cursor, _, stack, regions, closed, control⟩ := openFunction_ok opened
  refine ⟨trace, framed_of_openFunction opened, ?_, regions, closed⟩
  rw [State.nests, layers_of_openFunction control rfl]
  rfl

end WasmFunclets.Validation
