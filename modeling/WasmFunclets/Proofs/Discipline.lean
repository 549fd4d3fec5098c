import WasmFunclets.Proofs.Guards

/-! The discipline of the frames: where their marks, the floor of the operand stack and the bases of the
open regions lie, which region a frame belongs to and which frames stand in unreachable code. -/

namespace WasmFunclets.Validation

variable {setting : Setting} {bytes : List UInt8} {s t : State} {i : Instruction}

/-- A region knows how many frames are around its own. A frame directly in a funclet was entered in
code that may be reached. -/
inductive Ordered : List Layer → Prop where
  | nil : Ordered []
  | cons {l : Layer} {outer : List Layer} (ordered : Ordered outer)
      (depth : ∀ r, l.region = some r → r.depth = outer.length)
      (finiteIn : ∀ parent ∈ outer.head?, parent.region.isSome → l.frame.mark.polymorphic = false) :
      Ordered (l :: outer)

theorem Ordered.drop {layers : List Layer} (ordered : Ordered layers) (d : Nat) :
    Ordered (layers.drop d) := by
  induction d generalizing layers with
  | zero => exact ordered
  | succ d ih =>
      cases ordered with
      | nil => exact .nil
      | cons ordered _ _ => exact ih ordered

theorem Layer.Later.isSome {l m : Layer} (later : l.Later m) : m.region.isSome = l.region.isSome := by
  have regions := later.region
  revert regions
  cases l.region <;> cases m.region <;> intro regions <;> cases regions <;> rfl

theorem Ordered.later {layers later : List Layer} (ordered : Ordered layers)
    (same : List.Forall₂ Layer.Later layers later) : Ordered later := by
  induction ordered generalizing later with
  | nil =>
      cases same
      exact .nil
  | @cons l outer _ depth finiteIn ih =>
      cases same with
      | @cons _ m _ around head tail =>
          have mark : m.frame.mark = l.frame.mark := by rw [head.frame]
          refine .cons (ih tail) (fun q region => ?_) fun parent first isRegion => ?_
          · obtain ⟨r, old, grown⟩ := rel_some (region ▸ head.region)
            rw [grown.same, ← tail.length_eq]
            exact depth r old
          · rw [mark]
            cases tail with
            | nil => cases first
            | cons next _ =>
                obtain rfl := Option.some.inj first
                exact finiteIn _ rfl (next.isSome ▸ isRegion)

structure FiniteInFunclet (s : State) : Prop where
  ordered : Ordered s.layers
  finite : ∀ l outer, s.layers = l :: outer → l.region.isSome → s.stack.polymorphic = false

theorem Shift.finiteInFunclet (framed : Framed s) (finiteIn : FiniteInFunclet s)
    (shift : Shift s i t) : FiniteInFunclet t := by
  cases shift with
  | stays quiet _ =>
      have steady := quiet.layers
      refine ⟨finiteIn.ordered.later (steady.imp fun _ _ same => same.later), fun m around layers isRegion => ?_⟩
      obtain ⟨l, outer, before⟩ := framed.nested.cons
      rw [before, layers] at steady
      obtain ⟨same, _⟩ := List.forall₂_cons.mp steady
      rw [same.later.isSome] at isRegion
      have finite := finiteIn.finite l outer before isRegion
      refine Bool.eq_false_iff.mpr fun polymorphic => ?_
      rcases quiet.finiteIn polymorphic with already | ⟨frame, innermost, inner⟩
      · rw [finite] at already
        cases already
      · rw [s.frame?_eq, Framed.frames_cons before] at innermost
        obtain rfl := Option.some.inj innermost
        exact inner ((before ▸ framed.nested).region_iff.mpr isRegion)
  | opens l layers starts inside closed regions region deep entered =>
      refine ⟨?_, fun _ _ _ _ => starts.finite⟩
      rw [layers]
      refine .cons finiteIn.ordered (fun r isRegion => ?_) fun parent first isRegion => ?_
      · rw [deep r isRegion, s.layers_length]
      · rw [entered]
        obtain ⟨around, before⟩ := List.head?_eq_some_iff.mp first
        exact finiteIn.finite parent around before isRegion
  | turns l m outer before layers condition params isIf isElse starts =>
      refine ⟨?_, fun _ _ _ _ => starts.finite⟩
      have later : l.Later m := by
        rw [isElse]
        exact ⟨rfl, .inr ⟨⟨condition, params, isIf⟩, rfl⟩, rel_refl .refl _⟩
      rw [layers]
      exact (before ▸ finiteIn.ordered).later (.cons later (forall₂_refl Layer.Later.refl _))
  | goesOn l m outer before layers r q region frame later _ _ _ _ _ _ starts =>
      refine ⟨?_, fun _ _ _ _ => starts.finite⟩
      have grown : l.Later m := by
        rw [frame]
        exact ⟨rfl, .inl rfl, by rw [region]; exact .some later⟩
      rw [layers]
      exact (before ▸ finiteIn.ordered).later (.cons grown (forall₂_refl Layer.Later.refl _))
  | closes l parent outer before layers _ _ _ polymorphic =>
      have ordered := finiteIn.ordered
      rw [before] at ordered
      cases ordered with
      | cons ordered _ calm =>
          refine ⟨by rwa [layers], fun m around same isRegion => ?_⟩
          rw [layers] at same
          obtain ⟨rfl, rfl⟩ := List.cons.inj same
          rw [polymorphic]
          exact calm _ rfl isRegion
  | ends l before control =>
      have empty : t.layers = [] := by simp [State.layers, State.frames, control, layersOf]
      refine ⟨by rw [empty]; exact .nil, fun m around same => ?_⟩
      rw [empty] at same
      cases same

theorem Reached.finiteInFunclet (reached : Reached setting bytes s) : FiniteInFunclet s := by
  induction reached with
  | opened ok =>
      obtain ⟨_, _, _, _, _, _, control⟩ := openFunction_ok ok
      have layers := layers_of_openFunction control rfl
      refine ⟨?_, fun l outer same => ?_⟩
      · rw [layers]
        exact .cons .nil nofun nofun
      · rw [layers] at same
        obtain ⟨rfl, rfl⟩ := List.cons.inj same
        exact nofun
  | step reached isOpen ok ih =>
      obtain ⟨i, c, _, executed⟩ := step_ok_iff.mp ok
      have framed := reached.loose.framed (frames_ne_nil isOpen)
      exact (execute_moves (framed.fetched c) executed).shift.finiteInFunclet (framed.fetched c)
        ⟨ih.ordered, ih.finite⟩

theorem layersOf_drop (frames : List Frame) (regions : List OpenRegion) (d : Nat) :
    (layersOf frames regions).drop d = layersOf (frames.drop d)
      (regions.drop ((frames.take d).countP fun frame => frame.construct = .region)) := by
  induction d generalizing frames regions with
  | zero => rfl
  | succ d ih =>
      cases frames with
      | nil => rfl
      | cons frame frames =>
          by_cases isRegion : frame.construct = .region
          · simp [layersOf, isRegion, ih]
          · simp [layersOf, isRegion, ih]

theorem filterMap_layersOf {frames : List Frame} {regions : List OpenRegion}
    (count : regions.length = frames.countP fun frame => frame.construct = .region) :
    (layersOf frames regions).filterMap Layer.region = regions := by
  induction frames generalizing regions with
  | nil => simpa [layersOf, eq_comm] using count
  | cons frame frames ih =>
      by_cases isRegion : frame.construct = .region
      · cases regions with
        | nil => simp [isRegion] at count
        | cons r rest =>
            rw [layersOf_region isRegion, List.filterMap_cons]
            exact congrArg _ (ih (by simpa [isRegion] using count))
      · rw [layersOf_plain isRegion, List.filterMap_cons]
        exact ih (by simpa [isRegion] using count)

def State.regionInForce (s : State) (d : Nat) : Option OpenRegion :=
  (s.regions.drop ((s.frames.take d).countP fun frame => frame.construct = .region)).head?

structure Belongs (s : State) (r : OpenRegion) (d : Nat) (frame : Frame) : Prop where
  isOpen : r ∈ s.regions
  found : s.frame? d = some frame
  isRegion : frame.construct = .region
  depth : r.depth + d + 1 = s.control.size
  base : r.base = frame.mark.height
  exit : r.exit = frame.target
  signature : r.signature = frame.signature

def State.PlainBetween (s : State) (d k : Nat) : Prop :=
  ∀ j, d ≤ j → j < k → ∀ frame, s.frame? j = some frame → frame.construct ≠ .region

theorem State.frame?_layers (s : State) (d : Nat) : s.frame? d = s.layers[d]?.map Layer.frame := by
  rw [s.frame?_eq, ← s.map_frame_layers, List.getElem?_map]

theorem layers_at {d : Nat} {frame : Frame} (found : s.frame? d = some frame) :
    ∃ region outer, s.layers.drop d = ⟨frame, region⟩ :: outer := by
  rw [s.frame?_layers, Option.map_eq_some_iff] at found
  obtain ⟨l, present, rfl⟩ := found
  obtain ⟨inside, rfl⟩ := List.getElem?_eq_some_iff.mp present
  exact ⟨_, _, List.drop_eq_getElem_cons inside⟩

theorem getElem?_layers {d : Nat} {l : Layer} {outer : List Layer}
    (layers : s.layers.drop d = l :: outer) : s.layers[d]? = some l := by
  rw [← Nat.add_zero d, ← List.getElem?_drop, layers]
  rfl

theorem Framed.region_iff (framed : Framed s) {d : Nat} {l : Layer} (present : s.layers[d]? = some l) :
    l.frame.construct = .region ↔ l.region.isSome := by
  obtain ⟨inside, rfl⟩ := List.getElem?_eq_some_iff.mp present
  exact (framed.nested.drop (List.drop_eq_getElem_cons inside)).region_iff

theorem Framed.plainBetween_iff (framed : Framed s) {d n : Nat} :
    s.PlainBetween d (d + n) ↔ ∀ l ∈ (s.layers.drop d).take n, l.region = none := by
  constructor
  · intro plain l member
    obtain ⟨j, inside, rfl⟩ := List.getElem_of_mem member
    rw [List.getElem_take, List.getElem_drop]
    rw [List.length_take, List.length_drop] at inside
    have present : s.layers[d + j]? = some s.layers[d + j] := List.getElem?_eq_getElem _
    rw [← Option.not_isSome_iff_eq_none, ← framed.region_iff present]
    exact plain (d + j) (by omega) (by omega) _ (by rw [s.frame?_layers, present]; rfl)
  · intro plain j from_ below frame found
    rw [s.frame?_layers, Option.map_eq_some_iff] at found
    obtain ⟨l, present, rfl⟩ := found
    rw [Ne, framed.region_iff present, Option.not_isSome_iff_eq_none]
    refine plain l (List.mem_of_getElem? (i := j - d) ?_)
    rw [List.getElem?_take_of_lt (by omega), List.getElem?_drop, Nat.add_sub_cancel' from_, present]

theorem Framed.regionInForce_eq (framed : Framed s) (d : Nat) :
    s.regionInForce d = (s.layers.drop d).findSome? Layer.region := by
  have split := congrArg (List.countP fun frame : Frame => decide (frame.construct = .region))
    (List.take_append_drop d s.frames)
  rw [List.countP_append] at split
  rw [State.regionInForce, ← List.head?_filterMap, State.layers, layersOf_drop, filterMap_layersOf]
  rw [List.length_drop, framed.count]
  omega

theorem Framed.mem_regions (framed : Framed s) {r : OpenRegion} (isOpen : r ∈ s.regions) :
    ∃ d frame outer, s.layers.drop d = ⟨frame, some r⟩ :: outer := by
  rw [← filterMap_layersOf framed.count] at isOpen
  obtain ⟨⟨frame, _⟩, present, rfl⟩ := List.mem_filterMap.mp isOpen
  obtain ⟨d, inside, same⟩ := List.getElem_of_mem present
  exact ⟨d, frame, _, same ▸ List.drop_eq_getElem_cons inside⟩

theorem FiniteInFunclet.depth (finiteIn : FiniteInFunclet s) {r : OpenRegion} {d : Nat} {l : Layer} {outer : List Layer}
    (layers : s.layers.drop d = l :: outer) (region : l.region = some r) :
    r.depth + d + 1 = s.control.size := by
  have ordered := finiteIn.ordered.drop d
  have length := congrArg List.length layers
  rw [List.length_drop, s.layers_length, List.length_cons] at length
  rw [layers] at ordered
  cases ordered with
  | cons _ depth _ =>
      rw [depth r region]
      omega

theorem FiniteInFunclet.belongs_iff (framed : Framed s) (finiteIn : FiniteInFunclet s) {r : OpenRegion} {d : Nat}
    {frame : Frame} :
    Belongs s r d frame ↔ ∃ outer, s.layers.drop d = ⟨frame, some r⟩ :: outer := by
  constructor
  · intro belongs
    obtain ⟨region, outer, layers⟩ := layers_at belongs.found
    have isRegion := (framed.nested.drop layers).region_iff.mp belongs.isRegion
    obtain ⟨q, rfl⟩ := Option.isSome_iff_exists.mp isRegion
    -- The region is that of some layer, which its depth shows to be this one.
    obtain ⟨k, frame', outer', layers'⟩ := framed.mem_regions belongs.isOpen
    have depth := finiteIn.depth layers' rfl
    obtain rfl : k = d := by
      have := belongs.depth
      omega
    rw [layers] at layers'
    have own : some q = some r := congrArg Layer.region (List.cons.inj layers').1
    exact ⟨outer, own ▸ layers⟩
  · rintro ⟨outer, layers⟩
    have nested := framed.nested.drop layers
    have isRegion : frame.construct = .region := nested.region_iff.mpr rfl
    obtain ⟨parent, around, rfl, inside, _⟩ := nested.inner (by simp [isRegion])
    obtain ⟨_, _, signature, exit, base, _⟩ := inside.region r rfl
    have present := getElem?_layers layers
    refine ⟨mem_regions_of_layersOf (List.mem_of_getElem? present) rfl, ?_, isRegion,
      finiteIn.depth layers rfl, base, exit, signature⟩
    rw [s.frame?_layers, present]
    rfl

theorem FiniteInFunclet.regionInForce_iff (framed : Framed s) (finiteIn : FiniteInFunclet s)
    {r : OpenRegion} {d : Nat} :
    s.regionInForce d = some r ↔ ∃ k frame, d ≤ k ∧ Belongs s r k frame ∧ s.PlainBetween d k := by
  rw [framed.regionInForce_eq]
  constructor
  · intro found
    obtain ⟨inner, l, outer, layers, region, plain⟩ := List.findSome?_eq_some_iff.mp found
    have place : s.layers.drop (d + inner.length) = l :: outer := by
      rw [← List.drop_drop, layers, List.drop_left]
    refine ⟨d + inner.length, l.frame, Nat.le_add_right _ _,
      (finiteIn.belongs_iff framed).mpr ⟨outer, by rw [place, ← region]⟩, framed.plainBetween_iff.mpr ?_⟩
    rwa [layers, List.take_left]
  · rintro ⟨k, frame, le, belongs, plain⟩
    obtain ⟨outer, layers⟩ := (finiteIn.belongs_iff framed).mp belongs
    obtain ⟨n, rfl⟩ := Nat.exists_eq_add_of_le le
    refine List.findSome?_eq_some_iff.mpr
      ⟨(s.layers.drop d).take n, ⟨frame, some r⟩, outer, ?_, rfl, framed.plainBetween_iff.mp plain⟩
    rw [← layers, ← List.drop_drop, List.take_append_drop]

theorem any_takeWhile {α : Type} {p q : α → Bool} {items : List α} :
    (items.takeWhile p).any q = true ↔
      ∃ (n : Nat) (x : α), items[n]? = some x ∧ q x = true ∧ ∀ y ∈ items.take (n + 1), p y = true := by
  induction items with
  | nil => simp
  | cons head rest ih =>
      constructor
      · intro some_
        rw [List.takeWhile_cons] at some_
        split at some_
        · rename_i first
          rw [List.any_cons, Bool.or_eq_true] at some_
          rcases some_ with here | behind
          · exact ⟨0, head, rfl, here, by simpa using first⟩
          · obtain ⟨n, x, present, holds, all⟩ := ih.mp behind
            exact ⟨n + 1, x, present, holds, by simpa using ⟨first, all⟩⟩
        · cases some_
      · rintro ⟨n, x, present, holds, all⟩
        rw [List.take_succ_cons, List.forall_mem_cons] at all
        rw [List.takeWhile_cons, if_pos all.1, List.any_cons, Bool.or_eq_true]
        cases n with
        | zero =>
            obtain rfl := Option.some.inj present
            exact .inl holds
        | succ n => exact .inr (ih.mpr ⟨n, x, present, holds, all.2⟩)

theorem Nested.outerUnreachable_eq {l : Layer} {outer : List Layer} (nested : Nested (l :: outer)) :
    l.frame.outerUnreachable = ((l :: outer).takeWhile fun m => m.region.isNone).any
      fun m => m.frame.mark.polymorphic := by
  generalize whole : l :: outer = layers at nested
  induction nested generalizing l outer with
  | function construct mark reachable region =>
      obtain ⟨rfl, rfl⟩ := List.cons.inj whole
      simp [region, reachable, mark]
  | inside nested inside ih =>
      obtain ⟨rfl, rfl⟩ := List.cons.inj whole
      cases region : l.region with
      | none => simp [region, (inside.plain region).2, ← ih rfl, Bool.or_comm]
      | some r => simp [region, (inside.region r region).2.1]

/-- The frame with k frames around it was entered by the instruction at one state and is open ever since. -/
inductive Since (setting : Setting) (bytes : List UInt8) (k : Nat) (entry : State) : State → Prop where
  | entered {t : State} (reached : Reached setting bytes entry) (around : entry.control.size = k)
      (isOpen : entry.control ≠ #[]) (ok : Validation.step setting entry = .ok () t)
      (entered : t.control.size = k + 1) : Since setting bytes k entry t
  | kept {s t : State} (since : Since setting bytes k entry s) (ok : Validation.step setting s = .ok () t)
      (isOpen : k < t.control.size) : Since setting bytes k entry t

theorem Reached.shift (reached : Reached setting bytes s) (isOpen : s.control ≠ #[])
    (ok : Validation.step setting s = .ok () t) : ∃ i c, Shift (s.fetched c) i t := by
  obtain ⟨i, c, _, executed⟩ := step_ok_iff.mp ok
  exact ⟨i, c, (execute_moves ((reached.loose.framed (frames_ne_nil isOpen)).fetched c) executed).shift⟩

theorem Reached.size_le (reached : Reached setting bytes s) (isOpen : s.control ≠ #[])
    (ok : Validation.step setting s = .ok () t) : t.control.size ≤ s.control.size + 1 := by
  obtain ⟨i, c, shift⟩ := reached.shift isOpen ok
  rw [← t.layers_length, ← s.layers_length]
  exact shift.length.1

theorem ne_empty_of_lt {k : Nat} (below : k < s.control.size) : s.control ≠ #[] := by
  rintro empty
  rw [empty] at below
  exact Nat.not_lt_zero k below

theorem Since.reached {k : Nat} {entry : State} (since : Since setting bytes k entry s) :
    Reached setting bytes s ∧ k < s.control.size := by
  induction since with
  | entered reached _ isOpen ok entered => exact ⟨.step reached isOpen ok, by omega⟩
  | kept _ ok isOpen ih => exact ⟨.step ih.1 (ne_empty_of_lt ih.2) ok, isOpen⟩

theorem Reached.exists_since (reached : Reached setting bytes s) {k : Nat} (inner : 0 < k)
    (below : k < s.control.size) : ∃ entry, Since setting bytes k entry s := by
  induction reached with
  | opened ok =>
      obtain ⟨_, _, _, _, _, _, control⟩ := openFunction_ok ok
      rw [control, List.size_toArray, List.length_singleton] at below
      omega
  | @step s t reached isOpen ok ih =>
      by_cases already : k < s.control.size
      · obtain ⟨entry, since⟩ := ih already
        exact ⟨entry, since.kept ok below⟩
      · have size := reached.size_le isOpen ok
        exact ⟨s, .entered reached (by omega) isOpen ok (by omega)⟩

theorem lowest_layers (s : State) {k : Nat} (below : k < s.control.size) :
    ∃ l outer, lowest (k + 1) s.layers = l :: outer ∧ s.control[k]? = some l.frame := by
  have depth : s.frame? (s.control.size - 1 - k) = s.control[k]? := by
    rw [State.frame?, if_pos (by omega)]
    congr 1
    omega
  have found := Array.getElem?_eq_getElem below
  obtain ⟨region, outer, layers⟩ := layers_at (depth.trans found)
  refine ⟨⟨_, region⟩, outer, ?_, found⟩
  rw [← layers, lowest, s.layers_length]
  congr 1
  omega

/-- A frame keeps in its mark whether the stack was polymorphic where it was entered. -/
theorem Since.mark {k : Nat} {entry : State} (since : Since setting bytes k entry s) :
    ∃ frame, s.control[k]? = some frame ∧ frame.mark.polymorphic = entry.stack.polymorphic := by
  induction since with
  | @entered t reached around isOpen ok entered =>
      obtain ⟨i, c, shift⟩ := reached.shift isOpen ok
      have size : t.layers.length = k + 1 := t.layers_length.trans entered
      have before : entry.layers.length = k := entry.layers_length.trans around
      obtain ⟨l, layers, _, _, mark⟩ := shift.grows (size.trans (congrArg (· + 1) before.symm))
      obtain ⟨m, outer, layers', found⟩ := lowest_layers t (k := k) (by omega)
      rw [← size, lowest_length, layers] at layers'
      rw [← (List.cons.inj layers').1] at found
      exact ⟨l.frame, found, mark⟩
  | @kept s t since ok isOpen ih =>
      obtain ⟨frame, found, mark⟩ := ih
      have below := since.reached.2
      obtain ⟨i, c, shift⟩ := since.reached.1.shift (ne_empty_of_lt below) ok
      obtain ⟨l, outer, layers, foundL⟩ := lowest_layers s below
      obtain ⟨m, around, layers', foundM⟩ := lowest_layers t isOpen
      have stable := shift.stable (n := k + 1) (Nat.lt_of_lt_of_eq below s.layers_length.symm)
        (Nat.lt_of_lt_of_eq isOpen t.layers_length.symm)
      change List.Forall₂ _ (lowest (k + 1) s.layers) _ at stable
      rw [layers, layers'] at stable
      obtain ⟨later, _⟩ := List.forall₂_cons.mp stable
      obtain rfl : frame = l.frame := Option.some.inj (found.symm.trans foundL)
      refine ⟨m.frame, foundM, ?_⟩
      rw [later.frame]
      exact mark

/-- The stack was polymorphic where the frame with k frames around it was entered. -/
def EnteredUnreachable (setting : Setting) (bytes : List UInt8) (s : State) (k : Nat) : Prop :=
  ∃ entry, Since setting bytes k entry s ∧ entry.stack.polymorphic = true

theorem Reached.enteredUnreachable_iff (reached : Reached setting bytes s) (isOpen : s.control ≠ #[])
    {d : Nat} {frame : Frame} (found : s.frame? d = some frame) :
    EnteredUnreachable setting bytes s (s.control.size - 1 - d) ↔ frame.mark.polymorphic = true := by
  have below : d < s.control.size := by
    by_contra above
    simp [State.frame?, above] at found
  have place : s.control[s.control.size - 1 - d]? = some frame := by
    rwa [State.frame?, if_pos below] at found
  constructor
  · rintro ⟨entry, since, polymorphic⟩
    obtain ⟨_, found', mark⟩ := since.mark
    obtain rfl := Option.some.inj (found'.symm.trans place)
    rw [mark, polymorphic]
  · intro polymorphic
    by_cases inner : d + 1 < s.control.size
    · obtain ⟨entry, since⟩ := reached.exists_since (k := s.control.size - 1 - d) (by omega) (by omega)
      obtain ⟨_, found', mark⟩ := since.mark
      obtain rfl := Option.some.inj (found'.symm.trans place)
      exact ⟨entry, since, mark ▸ polymorphic⟩
    · -- The frame of the function is not entered on a polymorphic stack.
      obtain ⟨region, outer, layers⟩ := layers_at found
      have nested := (reached.loose.framed (frames_ne_nil isOpen)).nested.drop layers
      have length := congrArg List.length layers
      rw [List.length_drop, s.layers_length, List.length_cons] at length
      cases nested with
      | function _ mark =>
          change frame.mark = _ at mark
          rw [mark] at polymorphic
          cases polymorphic
      | inside =>
          rw [List.length_cons] at length
          omega

/-- Inside a region a frame is marked as one of unreachable code if it, or one between it and the frame
of the region, was entered on a polymorphic stack. -/
theorem Reached.outerUnreachable_iff (reached : Reached setting bytes s) (isOpen : s.control ≠ #[])
    {d : Nat} {frame : Frame} (found : s.frame? d = some frame) :
    frame.outerUnreachable = true ↔ ∃ k, d ≤ k ∧ k < s.control.size ∧
      EnteredUnreachable setting bytes s (s.control.size - 1 - k) ∧ s.PlainBetween d (k + 1) := by
  have framed := reached.loose.framed (frames_ne_nil isOpen)
  obtain ⟨region, outer, layers⟩ := layers_at found
  have plain (n : Nat) : s.PlainBetween d (d + n + 1) ↔
      ∀ l ∈ (s.layers.drop d).take (n + 1), l.region.isNone = true := by
    simp only [Nat.add_assoc, framed.plainBetween_iff, Option.isNone_iff_eq_none]
  rw [(framed.nested.drop layers).outerUnreachable_eq (l := ⟨frame, region⟩), ← layers, any_takeWhile]
  constructor
  · rintro ⟨n, l, present, polymorphic, all⟩
    rw [List.getElem?_drop] at present
    have found' : s.frame? (d + n) = some l.frame := by rw [s.frame?_layers, present]; rfl
    have inside := (List.getElem?_eq_some_iff.mp present).1
    rw [s.layers_length] at inside
    exact ⟨d + n, Nat.le_add_right _ _, inside,
      (reached.enteredUnreachable_iff isOpen found').mpr polymorphic, (plain n).mpr all⟩
  · rintro ⟨k, le, inside, entered, all⟩
    obtain ⟨n, rfl⟩ := Nat.exists_eq_add_of_le le
    obtain ⟨l, present⟩ : ∃ l, s.layers[d + n]? = some l :=
      ⟨_, List.getElem?_eq_getElem (s.layers_length.symm ▸ inside)⟩
    have found' : s.frame? (d + n) = some l.frame := by rw [s.frame?_layers, present]; rfl
    exact ⟨n, l, by rw [List.getElem?_drop, present],
      (reached.enteredUnreachable_iff isOpen found').mp entered, (plain n).mp all⟩

/-- How the frames, the operand stack and the open regions fit together. -/
structure Disciplined (setting : Setting) (bytes : List UInt8) (s : State) : Prop where
  floor : ∃ frame, s.frame? 0 = some frame ∧ s.stack.floor = frame.mark.height
  above : s.stack.floor ≤ s.stack.height
  marks : ∀ d inner outer, s.frame? d = some inner → s.frame? (d + 1) = some outer →
    inner.mark.floor = outer.mark.height ∧ outer.mark.height ≤ inner.mark.height
  bases : ∀ r ∈ s.regions, ∃ d frame operands, Belongs s r d frame ∧
    s.stack.operandsFrom r.base = some operands
  finiteIn : ∀ frame, s.frame? 0 = some frame → frame.construct = .region → s.stack.polymorphic = false
  home : ∀ d, d < s.control.size → ∀ r, s.regionInForce d = some r ↔
    ∃ k frame, d ≤ k ∧ Belongs s r k frame ∧ s.PlainBetween d k
  unreachable : ∀ d frame, s.frame? d = some frame → (frame.outerUnreachable = true ↔
    ∃ k, d ≤ k ∧ k < s.control.size ∧
      EnteredUnreachable setting bytes s (s.control.size - 1 - k) ∧ s.PlainBetween d (k + 1))

theorem Nested.marks {l parent : Layer} {outer : List Layer} (nested : Nested (l :: parent :: outer)) :
    l.frame.mark.floor = parent.frame.mark.height ∧
      parent.frame.mark.height ≤ l.frame.mark.height := by
  cases nested with
  | inside _ inside => exact ⟨inside.floor, inside.height⟩

/-- A region of one funclet, with a block in dead code of another block. -/
def deadBlocks : List UInt8 :=
  [0x00, 0x16, 0x40, 0x01, 0x02, 0x40, 0x00, 0x02, 0x40, 0x0b, 0x0b, 0x0b, 0x0b]

end WasmFunclets.Validation
