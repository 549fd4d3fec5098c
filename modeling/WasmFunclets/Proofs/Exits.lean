import WasmFunclets.Proofs.Course

/-! Where constructs end: the state behind a layer, and what is recorded of a region. -/

namespace WasmFunclets

/-- The parameters of a funclet of a closed region, which is known by its offset. -/
def paramsIn (regions : Array Region) (offset index : Nat) : Option (List ValueType) := do
  let region ← regions.find? fun region => region.offset = offset
  let funclet ← region.funclets[index]?
  return funclet.params

namespace Validation

open Attempt

namespace Course

variable {setting : Setting} {code : List Located} {states : Nat → State} {k n q : Nat}

theorem closes (course : Course setting code states) (inside : q < code.length)
    (high : (states q).layers.length = n + 1) (low : (states (q + 1)).layers.length = n)
    (inner : 0 < n) :
    ∃ l parent outer, (states q).layers = l :: parent :: outer ∧
      (states (q + 1)).layers = parent :: outer ∧
      TypedStack.Tops (states q).stack (states (q + 1)).stack l.frame.mark.height
        l.frame.signature.results ∧
      (states (q + 1)).stack.floor = l.frame.mark.floor ∧
      (states (q + 1)).stack.polymorphic = l.frame.mark.polymorphic ∧
      (∀ condition params, l.frame.construct = .ifThen condition params →
        l.frame.signature.params = l.frame.signature.results) ∧
      (l.frame.construct ≠ .loop → Heads (states q) (states (q + 1)) l.frame.target
        l.frame.mark.height l.frame.signature.results) ∧
      match l.region with
      | none => (states (q + 1)).closed = (states q).closed ∧ code[q].instruction = .close
      | some r => r.graph.current + 1 = r.graph.size := by
  obtain ⟨c, taken⟩ := course.taken inside
  have shift := taken.moves.shift
  have same : ((states q).fetched c).layers = (states q).layers := rfl
  cases shift with
  | stays quiet _ =>
      have := quiet.layers.length_eq
      rw [same] at this
      omega
  | opens l layers =>
      rw [layers, same, List.length_cons] at low
      omega
  | turns l m outer before layers =>
      rw [layers, List.length_cons] at low
      rw [← same, before, List.length_cons] at high
      omega
  | goesOn l m outer before layers =>
      rw [layers, List.length_cons] at low
      rw [← same, before, List.length_cons] at high
      omega
  | closes l parent outer before layers _ tops floor polymorphic whole record heads =>
      refine ⟨l, parent, outer, before, layers, tops, floor, polymorphic, whole,
        fun inner => (heads inner).of_take rfl, ?_⟩
      revert record
      cases l.region with
      | none => exact id
      | some r =>
          rintro ⟨_, _, _, _, last, _⟩
          exact last
  | ends l before control =>
      rw [← same, before] at high
      have : n = 0 := by simpa using high.symm
      omega

/-- The state behind a layer that is open at some point: its results lie on what was below it. -/
theorem behind (course : Course setting code states) (le : k ≤ q) (inside : q < code.length)
    (low : (states (q + 1)).layers.length = n) (inner : 0 < n)
    (above : ∀ m, k ≤ m → m ≤ q → n < (states m).layers.length) {l : Layer} {outer : List Layer}
    (found : lowest (n + 1) (states k).layers = l :: outer) :
    ∃ l', (states q).layers = l' :: (states (q + 1)).layers ∧ l.Later l' ∧
      List.Forall₂ Layer.Later outer (states (q + 1)).layers ∧
      (∃ tops, (states (q + 1)).stack.operands.toList =
          (states k).stack.operands.toList.take l.frame.mark.height ++ tops ∧
        tops.map Operand.type = l.frame.signature.results) ∧
      (states (q + 1)).stack.floor = l.frame.mark.floor ∧
      (states (q + 1)).stack.polymorphic = l.frame.mark.polymorphic ∧
      (l.frame.construct ≠ .loop → Heads (states k) (states (q + 1)) l.frame.target
        l.frame.mark.height l.frame.signature.results) := by
  have high : (states q).layers.length = n + 1 := by
    obtain ⟨c, taken⟩ := course.taken inside
    have up := taken.moves.shift.length.2
    change (states q).layers.length ≤ _ at up
    have := above q le (Nat.le_refl q)
    omega
  obtain ⟨l', parent, around, layers, layers', tops, floor, polymorphic, _, heads, _⟩ :=
    course.closes inside high low inner
  have same := course.stable le (Nat.le_of_lt inside) (n := n + 1) above
  rw [found, ← high, lowest_length, layers] at same
  cases same with
  | cons head tail =>
      have operands := course.operands le (Nat.le_of_lt inside) (n := n + 1) above found
      have mark : l'.frame.mark = l.frame.mark := by rw [head.frame]
      have signature : l'.frame.signature = l.frame.signature := by rw [head.frame]
      obtain ⟨results, stack, types⟩ := tops.operands
      rw [mark] at stack floor polymorphic
      rw [signature] at types
      refine ⟨l', by rw [layers, layers'], head, layers' ▸ tail,
        ⟨results, by rw [stack, operands], types⟩, floor, polymorphic, fun inner => ?_⟩
      have target : l'.frame.target = l.frame.target := by rw [head.frame]
      have heads := heads fun isLoop => inner (head.loop.mp isLoop)
      rw [mark, signature, target] at heads
      exact heads.of_take operands

/-- The offsets of the regions that are closed and then of those that are open. -/
def offsets (s : State) : List Nat :=
  s.closed.toList.map Region.offset ++ s.regions.map OpenRegion.offset

theorem offsets_of_callsAdded {regions later : List OpenRegion}
    (steady : List.Forall₂ CallsAdded regions later) :
    later.map OpenRegion.offset = regions.map OpenRegion.offset := by
  induction steady with
  | nil => rfl
  | cons head _ ih => rw [List.map_cons, List.map_cons, ih, head.same]

theorem offsets_step {s t : State} {i : Instruction} (framed : Framed s) (shift : Shift s i t)
    (closed : t.layers ≠ []) :
    offsets t = offsets s ∨ offsets t =
      s.closed.toList.map Region.offset ++ s.start :: s.regions.map OpenRegion.offset := by
  cases shift with
  | stays quiet _ =>
      exact .inl (by rw [offsets, quiet.closed, offsets_of_callsAdded quiet.regions, offsets])
  | opens l layers _ _ same regions region =>
      rw [offsets, same, regions]
      cases opened : l.region with
      | none => exact .inl rfl
      | some r => exact .inr (by rw [← (region r opened).1]; rfl)
  | turns l m outer before layers _ _ _ _ _ same regions =>
      exact .inl (by rw [offsets, same, regions, offsets])
  | goesOn l m outer before layers r p region frame later _ regions _ _ _ _ _ same =>
      rw [offsets, offsets, same, regions.1, regions.2, List.map_cons, List.map_cons, later.same]
      exact .inl rfl
  | closes l parent outer before layers regions _ _ _ _ record =>
      have split := framed.region_cons before
      rw [offsets, regions]
      cases opened : l.region with
      | none =>
          rw [opened] at record
          exact .inl (by rw [record.1]; rfl)
      | some r =>
          rw [opened] at record split
          obtain ⟨p, later, _, _, _, entry, yields, same⟩ := record
          have offset : entry.offset = r.offset := by rw [yields.offset, later.same]
          refine .inl ?_
          rw [offsets, same, split, Array.toList_push, List.map_append, List.map_cons, offset,
            List.append_assoc]
          rfl
  | ends l _ control =>
      have empty : t.layers = [] := by simp [State.layers, State.frames, control, layersOf]
      exact absurd empty closed

theorem closed_step {s t : State} {i : Instruction} (shift : Shift s i t) :
    s.closed.toList <+: t.closed.toList := by
  have stays (same : t.closed = s.closed) : s.closed.toList <+: t.closed.toList := by simp [same]
  cases shift with
  | stays quiet _ => exact stays quiet.closed
  | opens _ _ _ _ closed => exact stays closed
  | turns _ _ _ _ _ _ _ _ _ _ closed => exact stays closed
  | goesOn _ _ _ _ _ _ _ _ _ _ _ _ _ _ _ _ _ closed => exact stays closed
  | closes l _ _ _ _ _ _ _ _ _ record =>
      cases opened : l.region with
      | none =>
          rw [opened] at record
          exact stays record.1
      | some r =>
          rw [opened] at record
          obtain ⟨p, _, _, _, _, entry, _, same⟩ := record
          rw [same, Array.toList_push]
          exact List.prefix_append _ _
  | ends _ _ _ closed => exact stays closed

theorem closed_prefix (course : Course setting code states) {j : Nat} (le : j ≤ k)
    (inside : k ≤ code.length) : (states j).closed.toList <+: (states k).closed.toList := by
  induction k, le using Nat.le_induction with
  | base => exact List.prefix_rfl
  | succ k le ih =>
      obtain ⟨c, taken⟩ := course.taken inside
      have step := closed_step taken.moves.shift
      exact (ih (Nat.le_of_succ_le inside)).trans step

theorem offsets_nodup (course : Course setting code states) (inside : k < code.length) :
    (offsets (states k)).Nodup ∧ ∀ o ∈ offsets (states k), o < (states k).cursor.offset := by
  induction k with
  | zero => simp [offsets, course.clean]
  | succ k ih =>
      have before := Nat.lt_of_succ_lt inside
      obtain ⟨nodup, below⟩ := ih before
      obtain ⟨c, taken⟩ := course.taken before
      have onward : (states k).cursor.offset < (states (k + 1)).cursor.offset :=
        Nat.lt_of_lt_of_le taken.onward taken.moves.cursor.onward
      have open_ := layers_ne_nil (course.passes _ inside)
      -- a region that is opened starts at the offset of this step, behind all earlier ones
      rcases offsets_step ((course.framed before).fetched c) taken.moves.shift open_ with same | more
      · rw [same]
        exact ⟨nodup, fun o member => Nat.lt_trans (below o member) onward⟩
      · have perm : (offsets (states (k + 1))).Perm
            ((states k).cursor.offset :: offsets (states k)) := by
          rw [more]
          exact List.perm_middle
        refine ⟨perm.nodup_iff.mpr (List.nodup_cons.mpr ⟨fun member => ?_, nodup⟩),
          fun o member => ?_⟩
        · exact Nat.lt_irrefl _ (below _ member)
        · rcases List.mem_cons.mp (perm.mem_iff.mp member) with rfl | old
          · exact onward
          · exact Nat.lt_trans (below o old) onward

theorem closed_nodup (course : Course setting code states) :
    ((states code.length).closed.toList.map Region.offset).Nodup := by
  cases size : code.length with
  | zero => simp [course.clean]
  | succ k =>
      have inside : k < code.length := by omega
      obtain ⟨c, taken⟩ := course.taken inside
      have last : (states (k + 1)).closed = (states k).closed := by
        have empty := course.last_layers
        rw [size] at empty
        cases taken.moves.shift with
        | ends _ _ _ closed => exact closed
        | stays quiet _ =>
            have length := quiet.layers.length_eq
            rw [empty, List.length_nil] at length
            exact absurd (List.eq_nil_of_length_eq_zero length.symm.symm)
              (layers_ne_nil (s := states k) (course.passes k inside))
        | opens _ layers | turns _ _ _ _ layers | goesOn _ _ _ _ layers | closes _ _ _ _ layers =>
            rw [empty] at layers
            cases layers
      rw [last]
      have nodup := (course.offsets_nodup inside).1
      rw [offsets, List.nodup_append] at nodup
      exact nodup.1

theorem find_of_nodup {α β : Type} [DecidableEq β] {f : α → β} {items : List α} {a : α}
    (nodup : (items.map f).Nodup) (member : a ∈ items) :
    items.find? (fun b => f b = f a) = some a := by
  induction items with
  | nil => cases member
  | cons item items ih =>
      rw [List.map_cons, List.nodup_cons] at nodup
      rcases List.mem_cons.mp member with rfl | later
      · simp
      · have other : f item ≠ f a := fun same =>
          nodup.1 (same ▸ List.mem_map_of_mem later)
        rw [List.find?_cons_of_neg (by simpa using other), ih nodup.2 later]

theorem paramsIn_record {regions : Array Region} {p : OpenRegion} {entry : Region} {i : Nat}
    {node : FuncletNode} {params : List ValueType}
    (nodup : (regions.toList.map Region.offset).Nodup) (yields : OpenRegion.RecordedAs p entry)
    (member : entry ∈ regions.toList) (present : p.graph.nodes[i]? = some node)
    (known : node.params = some params) : paramsIn regions p.offset i = some params := by
  have found : (regions.find? fun region => region.offset = p.offset) = some entry := by
    rw [← Array.find?_toList, ← yields.offset]
    exact find_of_nodup nodup member
  obtain ⟨funclet, listed, same⟩ := yields.exists_funclet present known
  simp [paramsIn, found, listed, same]

/-- What is recorded of a region that is open in a state on the way to another point of the course:
its calls agree with the parameters. -/
theorem recorded (course : Course setting code states) {j m : Nat} {s : State} {i : Instruction}
    (framed : Framed s) (shift : Shift s i (states j)) (inside : j ≤ code.length)
    (isOpen : m < s.layers.length) {l : Layer} {outer : List Layer} {r : OpenRegion}
    (found : lowest (m + 1) s.layers = l :: outer) (isRegion : l.region = some r) :
    ∃ g, FuncletCalls.KeepsCalls r.graph g ∧ FinishedCalls g ∧
      ∀ (i : Nat) (node : FuncletNode) (params : List ValueType), g.nodes[i]? = some node →
        node.params = some params →
        paramsIn (states code.length).closed r.offset i = some params := by
  by_cases still : m < (states j).layers.length
  -- The region stays open, so it is recorded by the rest of the course.
  · have within : j < code.length := by
      by_contra beyond
      obtain rfl : j = code.length := by omega
      rw [course.last_layers] at still
      exact Nat.not_lt_zero _ still
    have same := shift.stable (n := m + 1) isOpen still
    rw [found] at same
    generalize later : lowest (m + 1) (states j).layers = layers at same
    cases same with
    | @cons _ later' _ around head _ =>
        have regions := head.region
        rw [isRegion] at regions
        cases opened : later'.region with
        | none => rw [opened] at regions; cases regions
        | some q =>
            rw [opened] at regions
            cases regions with
            | some grown =>
                obtain ⟨c, taken⟩ := course.taken within
                obtain ⟨g, keeps, finished, params⟩ := course.recorded
                  ((course.framed within).fetched c) taken.moves.shift within still later opened
                refine ⟨g, grown.keeps.trans keeps, finished, ?_⟩
                rw [grown.same] at params
                exact params
  · -- The region is closed in this step.
    obtain ⟨top, rest, layers⟩ := framed.nested.cons
    have length := shift.length.2
    have size : s.layers.length = m + 1 := by omega
    rw [← size, lowest_length, layers] at found
    obtain ⟨rfl, rfl⟩ := List.cons.inj found
    have nested := layers ▸ framed.nested
    cases shift with
    | stays quiet _ =>
        have := quiet.layers.length_eq
        omega
    | opens _ layers' =>
        rw [layers', List.length_cons] at still
        omega
    | turns _ _ _ before layers' =>
        rw [before, List.length_cons] at size
        rw [layers', List.length_cons] at still
        omega
    | goesOn _ _ _ before layers' =>
        rw [before, List.length_cons] at size
        rw [layers', List.length_cons] at still
        omega
    | closes closing parent around before layers' _ _ _ _ _ record =>
        rw [layers] at before
        obtain ⟨rfl, rfl⟩ := List.cons.inj before
        rw [isRegion] at record
        obtain ⟨p, grown, finished, _, _, entry, yields, closed⟩ := record
        have member : entry ∈ (states code.length).closed.toList := by
          refine (course.closed_prefix inside (Nat.le_refl _)).subset ?_
          rw [closed, Array.toList_push]
          simp
        refine ⟨p.graph, grown.keeps, finished, fun i node params present known => ?_⟩
        have offset : p.offset = r.offset := by rw [grown.same]
        rw [← offset]
        exact paramsIn_record course.closed_nodup yields member present known
    | ends closing before control =>
        rw [layers] at before
        obtain ⟨rfl, rfl⟩ := List.cons.inj before
        cases nested with
        | function _ _ _ region => simp [region] at isRegion
termination_by code.length - j

/-- The layer at a level that is open at a point starts at another point before it. -/
structure OpenSince (states : Nat → State) (start n k : Nat) : Prop where
  pos : 0 < start
  le : start ≤ k
  outside : (states (start - 1)).layers.length ≤ n
  above : ∀ m, start ≤ m → m ≤ k → n < (states m).layers.length

theorem OpenSince.here (size : (states (k + 1)).layers.length = (states k).layers.length + 1) :
    OpenSince states (k + 1) (states k).layers.length (k + 1) := by
  refine ⟨Nat.succ_pos _, Nat.le_refl _, Nat.le_refl _, fun m from_ upto => ?_⟩
  obtain rfl : m = k + 1 := by omega
  omega

theorem OpenSince.move {start j : Nat} (opened : OpenSince states start n k)
    (above : ∀ m, min j k ≤ m → m ≤ max j k → n < (states m).layers.length) :
    OpenSince states start n j where
  pos := opened.pos
  le := by
    by_contra before
    have high := above (start - 1) (by have := opened.le; omega) (by have := opened.le; omega)
    have := opened.outside
    omega
  outside := opened.outside
  above m from_ upto := by
    by_cases early : m ≤ k
    · exact opened.above m from_ early
    · exact above m (by omega) (by omega)

/-- A construct starts with its parameters on what is below it. -/
theorem started (course : Course setting code states) {start : Nat}
    (opened : OpenSince states start n k) (inside : k ≤ code.length) :
    ∃ l, (states start).layers = l :: (states (start - 1)).layers ∧
      (states (start - 1)).layers.length = n ∧
      TypedStack.Tops (states (start - 1)).stack (states start).stack l.frame.mark.height
        l.frame.signature.params ∧ (states start).stack.polymorphic = false ∧
      (∀ r, l.region = some r → r.graph.current = 0 ∧
        ∃ node, r.graph.nodes[0]? = some node ∧ node.params = some l.frame.signature.params) ∧
      (l.frame.construct = .loop → Heads (states (start - 1)) (states start) l.frame.target
        l.frame.mark.height l.frame.signature.params) ∧
      (∀ r, l.region = some r → r.blocks[0]? = some (states start).current ∧
        Heads (states (start - 1)) (states start) (states start).current l.frame.mark.height
          l.frame.signature.params) ∧
      (states (start - 1)).builder.blocks.size ≤ l.frame.target ∧
      ∀ r, l.region = some r → ∀ block ∈ r.blocks, (states (start - 1)).builder.blocks.size ≤ block := by
  obtain ⟨before, rfl⟩ : ∃ before, start = before + 1 := ⟨start - 1, by have := opened.pos; omega⟩
  have within : before < code.length := by have := opened.le; omega
  have low : (states before).layers.length ≤ n := opened.outside
  have high := opened.above _ (Nat.le_refl _) opened.le
  obtain ⟨c, taken⟩ := course.taken within
  have same : ((states before).fetched c).layers = (states before).layers := rfl
  have length := taken.moves.shift.length.1
  rw [same] at length
  cases taken.moves.shift with
  | stays quiet _ =>
      have := quiet.layers.length_eq
      rw [same] at this
      omega
  | opens l layers starts _ _ _ region _ _ loop first fresh =>
      refine ⟨l, layers, ?_, starts.tops, starts.finite, fun r opened => (region r opened).2.2,
        fun isLoop => (loop isLoop).of_take rfl,
        fun r opened => (first r opened).imp_right (·.of_take rfl), fresh⟩
      change (states before).layers.length = n
      omega
  | turns _ _ _ layers layers' =>
      have lengths := congrArg List.length layers
      rw [same, List.length_cons] at lengths
      rw [layers', List.length_cons] at high
      omega
  | goesOn _ _ _ layers layers' =>
      have lengths := congrArg List.length layers
      rw [same, List.length_cons] at lengths
      rw [layers', List.length_cons] at high
      omega
  | closes _ _ _ layers layers' =>
      have lengths := congrArg List.length layers
      rw [same] at lengths
      rw [layers'] at high
      simp only [List.length_cons] at lengths high
      omega
  | ends _ _ control =>
      have empty : (states (before + 1)).layers = [] := by
        simp [State.layers, State.frames, control, layersOf]
      rw [empty] at high
      exact absurd high (Nat.not_lt_zero _)

structure AtFunclet (s : State) (n index : Nat) (params : List ValueType) : Prop where
  layers : ∃ frame r outer, s.layers = ⟨frame, some r⟩ :: outer ∧ outer.length = n ∧
    r.graph.current = index ∧
    (∃ node, r.graph.nodes[index]? = some node ∧ node.params = some params) ∧
    (s.stack.operands.toList.drop frame.mark.height).map Operand.type = params ∧
    frame.mark.height ≤ s.stack.height
  finite : s.stack.polymorphic = false
  heads : ∀ l outer r, s.layers = l :: outer → l.region = some r →
    ∃ block, r.blocks[index]? = some block ∧ Heads s s block l.frame.mark.height params

theorem tops_drop {s t : TypedStack} {h : Nat} {types : List ValueType}
    (tops : TypedStack.Tops s t h types) :
    (t.operands.toList.drop h).map Operand.type = types := by
  obtain ⟨operands, same, types⟩ := tops.operands
  have length : (s.operands.toList.take h).length = h := by
    rw [List.length_take, ← TypedStack.height_eq, Nat.min_eq_left tops.reach]
  rw [same, List.drop_left' length, types]

/-- The funclet at hand is the same one behind a step, or the next one has been entered. -/
theorem current_step {s t : State} {i : Instruction} (shift : Shift s i t)
    (isOpen : n < s.layers.length) (still : n < t.layers.length) {l m : Layer}
    {outer around : List Layer} {r p : OpenRegion}
    (before : lowest (n + 1) s.layers = l :: outer) (isRegion : l.region = some r)
    (behind : lowest (n + 1) t.layers = m :: around) (later : m.region = some p) :
    p.graph.current = r.graph.current ∨
      p.graph.current = r.graph.current + 1 ∧ ∃ params, AtFunclet t n p.graph.current params := by
  have equal (same : lowest (n + 1) s.layers = lowest (n + 1) t.layers) :
      p.graph.current = r.graph.current := by
    rw [before, behind] at same
    obtain ⟨rfl, _⟩ := List.cons.inj same
    rw [isRegion] at later
    rw [Option.some.inj later]
  -- Only `goesOn` enters another funclet, and of this region only when it is the innermost layer.
  cases shift with
  | stays quiet _ =>
      have same := forall₂_lowest (n + 1) quiet.layers
      rw [before, behind] at same
      cases same with
      | cons head _ =>
          have regions := head.region
          rw [isRegion, later] at regions
          cases regions with
          | some steady => exact .inl steady.current
  | opens l' layers =>
      rw [layers, lowest_cons isOpen] at behind
      rw [before] at behind
      obtain ⟨rfl, _⟩ := List.cons.inj behind
      rw [isRegion] at later
      exact .inl (by rw [Option.some.inj later])
  | turns l' m' rest layers layers' condition params isIf isElse =>
      rw [layers] at before
      rw [layers'] at behind
      by_cases deeper : n < rest.length
      · exact .inl (equal (by rw [layers, layers', lowest_cons deeper, lowest_cons deeper]))
      · have size : (l' :: rest).length = n + 1 := by
          rw [layers] at isOpen
          simp only [List.length_cons] at isOpen ⊢
          omega
        have size' : (m' :: rest).length = n + 1 := size
        rw [← size, lowest_length] at before
        rw [← size', lowest_length] at behind
        obtain ⟨rfl, _⟩ := List.cons.inj before
        obtain ⟨rfl, _⟩ := List.cons.inj behind
        rw [isElse, isRegion] at later
        exact .inl (by rw [← Option.some.inj later])
  | goesOn l' m' rest layers layers' r' p' region frame grown _ _ current _ params known starts _ block
      place heads =>
      rw [layers] at before
      rw [layers'] at behind
      by_cases deeper : n < rest.length
      · exact .inl (equal (by rw [layers, layers', lowest_cons deeper, lowest_cons deeper]))
      · have size : (l' :: rest).length = n + 1 := by
          rw [layers] at isOpen
          simp only [List.length_cons] at isOpen ⊢
          omega
        have size' : (m' :: rest).length = n + 1 := size
        rw [← size, lowest_length] at before
        rw [← size', lowest_length] at behind
        obtain ⟨rfl, _⟩ := List.cons.inj before
        obtain ⟨rfl, _⟩ := List.cons.inj behind
        rw [region] at isRegion
        obtain rfl := Option.some.inj isRegion
        rw [frame] at later
        obtain rfl := Option.some.inj later
        have height : l'.frame.mark.height ≤ t.stack.height := by
          rw [starts.tops.height]
          exact Nat.le_add_right _ _
        refine .inr ⟨current, params, ⟨l'.frame, p', rest, ?_, ?_, rfl, known,
          tops_drop starts.tops, height⟩, starts.finite, fun l outer r top opened => ?_⟩
        · rw [layers', frame]
        · simpa using size
        · rw [layers', frame] at top
          obtain ⟨rfl, _⟩ := List.cons.inj top
          obtain rfl := Option.some.inj opened
          exact ⟨block, by rw [grown.same]; exact place, heads.self starts.tops⟩
  | closes l' parent rest layers layers' =>
      rw [layers'] at still
      exact .inl (equal (by rw [layers, layers', lowest_cons still]))
  | ends _ _ control =>
      have empty : t.layers = [] := by simp [State.layers, State.frames, control, layersOf]
      rw [empty] at still
      exact absurd still (Nat.not_lt_zero _)

def regionAtLevel (s : State) (n : Nat) : Option OpenRegion :=
  (lowest (n + 1) s.layers).head?.bind Layer.region

theorem regionAtLevel_eq_some {s : State} {r : OpenRegion} (isRegion : regionAtLevel s n = some r) :
    ∃ l outer, lowest (n + 1) s.layers = l :: outer ∧ l.region = some r := by
  unfold regionAtLevel at isRegion
  cases found : lowest (n + 1) s.layers with
  | nil => simp [found] at isRegion
  | cons l outer => exact ⟨l, outer, rfl, by simpa [found] using isRegion⟩

theorem regionAtLevel_step (course : Course setting code states) (inside : k < code.length)
    (isOpen : n < (states k).layers.length) (still : n < (states (k + 1)).layers.length)
    {r : OpenRegion} (isRegion : regionAtLevel (states (k + 1)) n = some r) :
    ∃ p, regionAtLevel (states k) n = some p ∧ (r.graph.current = p.graph.current ∨
      r.graph.current = p.graph.current + 1 ∧
        ∃ params, AtFunclet (states (k + 1)) n r.graph.current params) := by
  obtain ⟨m, around, behind, later⟩ := regionAtLevel_eq_some isRegion
  obtain ⟨c, taken⟩ := course.taken inside
  have same := taken.moves.shift.stable (n := n + 1) isOpen still
  rw [behind] at same
  generalize found : lowest (n + 1) ((states k).fetched c).layers = layers at same
  cases same with
  | @cons l _ outer _ head tail =>
      have regions := head.region
      rw [later] at regions
      obtain ⟨p, opened, grown⟩ := rel_some regions
      refine ⟨p, ?_, current_step taken.moves.shift isOpen still found opened behind later⟩
      change (lowest (n + 1) ((states k).fetched c).layers).head?.bind _ = _
      rw [found]
      exact opened

theorem current_mono (course : Course setting code states) {j : Nat} (le : j ≤ k)
    (inside : k ≤ code.length) (above : ∀ m, j ≤ m → m ≤ k → n < (states m).layers.length)
    {p r : OpenRegion} (first : regionAtLevel (states j) n = some p)
    (last : regionAtLevel (states k) n = some r) : p.graph.current ≤ r.graph.current := by
  induction k, le using Nat.le_induction generalizing r with
  | base =>
      rw [first] at last
      rw [Option.some.inj last]
  | succ k le ih =>
      obtain ⟨q, here, next⟩ := course.regionAtLevel_step inside (above k le (Nat.le_succ k))
        (above (k + 1) (Nat.le_succ_of_le le) (Nat.le_refl _)) last
      have before := ih (Nat.le_of_succ_le inside)
        (fun m from_ upto => above m from_ (Nat.le_succ_of_le upto)) here
      rcases next with same | ⟨more, _⟩ <;> omega

/-- Up to a point, every funclet of a region up to the one at hand was entered, at one place. -/
theorem entered (course : Course setting code states) {start : Nat}
    (opened : OpenSince states start n k) (inside : k ≤ code.length) {r : OpenRegion}
    (isRegion : regionAtLevel (states k) n = some r) {index : Nat} (small : index ≤ r.graph.current) :
    ∃ j params, start ≤ j ∧ j ≤ k ∧ AtFunclet (states j) n index params ∧
      ∀ m, start ≤ m → m < j → ∀ p, regionAtLevel (states m) n = some p → p.graph.current < index := by
  have le := opened.le
  have above := opened.above
  -- A step keeps the funclet at hand or enters the next one, which is at its start then.
  induction k, le using Nat.le_induction generalizing r with
  | base =>
      obtain ⟨l, layers, size, tops, finite, region, _, first, _⟩ := course.started opened inside
      have length : (l :: (states (start - 1)).layers).length = n + 1 := by
        rw [List.length_cons, size]
      have opened' : l.region = some r := by
        rw [regionAtLevel, layers, ← length, lowest_length] at isRegion
        exact isRegion
      obtain ⟨current, known⟩ := region r opened'
      obtain rfl : index = 0 := by omega
      have height : l.frame.mark.height ≤ (states start).stack.height := by
        rw [tops.height]
        exact Nat.le_add_right _ _
      refine ⟨start, l.frame.signature.params, Nat.le_refl _, Nat.le_refl _,
        ⟨⟨l.frame, r, _, ?_, size, current, known, tops_drop tops, height⟩, finite, ?_⟩,
        fun m from_ before => absurd before (Nat.not_lt.mpr from_)⟩
      · rw [layers, ← opened']
      · intro m outer q top isRegion'
        obtain ⟨rfl, _⟩ := List.cons.inj (layers.symm.trans top)
        obtain ⟨place, heads⟩ := first q isRegion'
        exact ⟨_, place, heads.self tops⟩
  | succ k le ih =>
      have isOpen := above k le (Nat.le_succ k)
      have still := above (k + 1) (Nat.le_succ_of_le le) (Nat.le_refl _)
      have earlier : OpenSince states start n k :=
        ⟨opened.pos, le, opened.outside, fun m from_ upto => above m from_ (Nat.le_succ_of_le upto)⟩
      obtain ⟨p, here, next⟩ := course.regionAtLevel_step inside isOpen still isRegion
      by_cases old : index ≤ p.graph.current
      · obtain ⟨j, params, from_, upto, at_, first⟩ :=
          ih earlier (Nat.le_of_succ_le inside) here old earlier.above
        exact ⟨j, params, from_, Nat.le_succ_of_le upto, at_, first⟩
      · rcases next with same | ⟨next, params, atStart⟩
        · omega
        · obtain rfl : index = r.graph.current := by omega
          refine ⟨k + 1, params, Nat.le_succ_of_le le, Nat.le_refl _, atStart,
            fun m from_ before q region => ?_⟩
          have := course.current_mono (Nat.le_of_lt_succ before) (Nat.le_of_succ_le inside)
            (fun j after upto => earlier.above j (Nat.le_trans from_ after) upto) region here
          omega

end Course

end Validation

end WasmFunclets
