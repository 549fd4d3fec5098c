import WasmFunclets.Proofs.Live

/-! Where the jumps of the machine lead to: behind a construct, back to a loop and to a funclet. -/

namespace WasmFunclets.Machine

open Validation Attempt

variable {V : Type} {p : Program V} {setting : Setting} {states : Nat → State} {c d : Config V}
variable {l : Layer} {outer : List Layer} {e : Nat}

theorem Mid.framed (described : Described p setting states) (mid : Mid p states c) :
    Framed (states c.pc) := described.course.framed mid.inside

theorem Mid.height_le (described : Described p setting states) (mid : Mid p states c)
    (found : (states c.pc).layers.drop e = l :: outer) : l.frame.mark.height ≤ c.floor := by
  have framed := mid.framed described
  obtain ⟨top, around, layers⟩ := framed.nested.cons
  have member : l ∈ (states c.pc).layers := by
    refine List.mem_of_mem_drop (i := e) ?_
    rw [found]
    exact List.mem_cons_self
  rw [mid.floor, framed.floor top around layers]
  exact (layers ▸ framed.nested).heights (layers ▸ member)

theorem lowest_of_drop (found : (states c.pc).layers.drop e = l :: outer) :
    lowest (outer.length + 1) (states c.pc).layers = l :: outer := by
  have length := congrArg List.length found
  rw [List.length_drop, List.length_cons] at length
  rw [lowest, ← found]
  congr 1
  omega

theorem length_of_drop (found : (states c.pc).layers.drop e = l :: outer) :
    (states c.pc).layers.length = outer.length + 1 + e := by
  have length := congrArg List.length found
  rw [List.length_drop, List.length_cons] at length
  omega

theorem Mid.types_append (described : Described p setting states) (mid : Mid p states c)
    (found : (states c.pc).layers.drop e = l :: outer) {args : List (Typed V)}
    {operands tops : List Operand}
    (split : operands = (states c.pc).stack.operands.toList.take l.frame.mark.height ++ tops)
    (typed : args.map Typed.type = tops.map Operand.type) :
    (c.stack.take l.frame.mark.height ++ args).map Typed.type = operands.map Operand.type := by
  rw [split, List.map_append, List.map_append, typed,
    mid.types_take (mid.height_le described found)]

theorem Mid.known_append (mid : Mid p states c) {h : Nat} {args : List (Typed V)}
    (known : ∀ x ∈ args, x.type ≠ .any) : ∀ x ∈ c.stack.take h ++ args, x.type ≠ .any := by
  intro x member
  rcases List.mem_append.mp member with old | new
  · exact mid.known x (List.mem_of_mem_take old)
  · exact known x new

theorem Described.behind_eq (described : Described p setting states) {k q n : Nat} (le : k ≤ q)
    (inside : q < p.code.length) (low : (states (q + 1)).layers.length = n)
    (above : ∀ m, k ≤ m → m ≤ q → n < (states m).layers.length) : p.behind k n = q + 1 := by
  refine p.seek_eq (Nat.succ_le_succ le) inside (fun m from_ before => ?_) fun _ => ?_
  · rw [decide_eq_false_iff_not, described.length_nestAt (by omega), Nat.not_le]
    exact above m (by omega) (by omega)
  · rw [decide_eq_true_iff, described.length_nestAt inside, low]

/-- Behind a construct its results lie on what was below it. -/
theorem Mid.goBehind (described : Described p setting states) (mid : Mid p states c)
    (found : (states c.pc).layers.drop e = l :: outer) (inner : outer ≠ [])
    {args : List (Typed V)} (typed : args.map Typed.type = l.frame.signature.results)
    (known : ∀ x ∈ args, x.type ≠ .any) :
    Live p states
      { c with
        pc := p.behind c.pc outer.length
        stack := c.stack.take l.frame.mark.height ++ args
        labels := c.labels.drop (e + 1) } := by
  have length := length_of_drop found
  have some_ : 0 < outer.length := List.length_pos_of_ne_nil inner
  obtain ⟨q, le, inside, low, above⟩ :=
    described.course.exists_exit (n := outer.length) (Nat.le_of_lt mid.inside) (by omega)
  obtain ⟨_, _, _, _, ⟨tops, operands, types⟩, _, polymorphic, _⟩ :=
    described.course.behind le inside low some_ above (lowest_of_drop found)
  rw [described.behind_eq le inside low above]
  have isOpen : (states (q + 1)).layers ≠ [] := by
    intro empty
    rw [empty, List.length_nil] at low
    omega
  have marks : l.frame.mark.polymorphic = false := by
    refine mid.marks l (List.mem_of_mem_drop (i := e) ?_)
    rw [found]
    exact List.mem_cons_self
  refine mid.arrive (e := e + 1) described inside isOpen rfl ?_ ?_ mid.locals ?_
    (mid.known_append known) (polymorphic.trans marks)
  · dsimp only
    omega
  · intro m from_ upto
    dsimp only at from_ upto ⊢
    rw [low]
    by_cases last : m = q + 1
    · exact Nat.le_of_eq (by rw [last, low])
    · exact Nat.le_of_lt (above m (by omega) (by omega))
  · exact mid.types_append described found operands (by rw [typed, types])

/-- At its start a construct has its parameters on what was below it. -/
theorem Mid.goBack (described : Described p setting states) (mid : Mid p states c)
    (found : (states c.pc).layers.drop e = l :: outer) {start : Nat}
    (opened : Course.OpenSince states start outer.length c.pc) {args : List (Typed V)}
    (typed : args.map Typed.type = l.frame.signature.params) (known : ∀ x ∈ args, x.type ≠ .any) :
    Live p states
      { c with
        pc := start
        stack := c.stack.take l.frame.mark.height ++ args
        labels := c.labels.drop e } := by
  have length := length_of_drop found
  have inside := Nat.le_of_lt mid.inside
  obtain ⟨first, layers, size, tops, finite, _⟩ := described.course.started opened inside
  have sizes : (states start).layers.length = outer.length + 1 := by
    rw [layers, List.length_cons, size]
  have open_ (m : Nat) (from_ : start ≤ m) (upto : m ≤ c.pc) :
      outer.length + 1 ≤ (states m).layers.length := opened.above m from_ upto
  have alike := alike_between described.course (Nat.le_trans opened.le inside) inside
    (n := outer.length + 1) fun m from_ upto =>
      open_ m (by have := opened.le; omega) (by have := opened.le; omega)
  rw [lowest_of_drop found, ← sizes, lowest_length, layers] at alike
  cases alike with
  | cons same _ =>
      have operands := described.course.operands opened.le inside open_
        (by rw [← sizes, lowest_length, layers])
      obtain ⟨fresh, stack, types⟩ := tops.operands
      rw [← tops.take, ← operands, same.mark] at stack
      rw [same.signature] at types
      refine mid.arrive (e := e) described (Nat.le_trans opened.le inside) ?_ rfl ?_ ?_ mid.locals ?_
        (mid.known_append known) finite
      · dsimp only
        rw [layers]
        exact List.cons_ne_nil _ _
      · dsimp only
        omega
      · intro m from_ upto
        dsimp only at from_ upto ⊢
        rw [sizes]
        exact open_ m (by have := opened.le; omega) (by have := opened.le; omega)
      · exact mid.types_append described found stack (by rw [typed, types])

theorem layer_of_frame {s : State} {depth : Nat} {frame : Frame}
    (found : s.frame? depth = some frame) :
    ∃ l outer, s.layers.drop depth = l :: outer ∧ l.frame = frame := by
  rw [s.frame?_eq, ← s.map_frame_layers, List.getElem?_map] at found
  obtain ⟨l, present, same⟩ := Option.map_eq_some_iff.mp found
  obtain ⟨inside, rfl⟩ := List.getElem?_eq_some_iff.mp present
  exact ⟨_, _, List.drop_eq_getElem_cons inside, same⟩

theorem Labelled.label {k : Nat} {labels : List Label} {layers : List Layer}
    (labelled : Labelled states k labels layers) (found : layers.drop e = l :: outer) :
    ∃ label, labels.drop e = label :: labels.drop (e + 1) ∧
      Labels states k outer.length label l := by
  have tail := labelled.drop e
  rw [found] at tail
  generalize split : labels.drop e = dropped at tail
  cases tail with
  | @cons label others _ _ head _ =>
      refine ⟨label, ?_, head⟩
      rw [← List.drop_drop, split, List.drop_one, List.tail_cons]

theorem Labels.isRegion {k n start offset : Nat} {label : Label} (labels : Labels states k n label l)
    (nested : Nested (l :: outer)) (shape : label.target = .funclets start offset) :
    l.frame.construct = .region := by
  have target := labels.target
  rw [shape] at target
  rw [nested.region_iff]
  cases region : l.region with
  | none => simp [region] at target
  | some r => rfl

theorem Labels.types {k n : Nat} {label : Label} (labels : Labels states k n label l)
    (nested : Nested (l :: outer)) : label.types = l.frame.labelTypes := by
  have target := labels.target
  cases shape : label.target with
  | behind =>
      rw [shape] at target
      simp [Label.types, shape, Frame.labelTypes, target.1, labels.signature]
  | again start =>
      rw [shape] at target
      simp [Label.types, shape, Frame.labelTypes, target.1, labels.signature]
  | funclets start offset =>
      rw [shape] at target
      have isRegion := labels.isRegion nested shape
      simp [Label.types, shape, Frame.labelTypes, isRegion, labels.signature]

/-- A branch whose arguments a validation finds does not fail. -/
theorem Mid.branch (described : Described p setting states) (mid : Mid p states c) {depth : Nat}
    {frame : Frame} (found : (states c.pc).frame? depth = some frame) {v : TypedStack}
    (agrees : Agrees c v) (accepted : v.accepts frame.labelTypes = true) :
    LiveOrEnded p states (p.branch depth c) := by
  obtain ⟨l, outer, layers, rfl⟩ := layer_of_frame found
  obtain ⟨label, labels, head⟩ := mid.labelled.label layers
  have present : c.labels[depth]? = some label := by
    rw [← List.head?_drop, labels, List.head?_cons]
  have nested := Nested.drop (mid.framed described).nested layers
  have types := head.types nested
  obtain ⟨args, taking, typed, split, rest⟩ := agrees.take accepted
  have known : ∀ x ∈ args, x.type ≠ .any := by
    intro x member
    refine agrees.known x ?_
    rw [split]
    exact List.mem_append_right _ member
  -- What is below the label's height is not among the arguments.
  have low : l.frame.mark.height ≤ (c.without l.frame.labelTypes.length).stack.length := by
    have reach := mid.height_le described layers
    rw [rest.length]
    exact Nat.le_trans reach (rest.floor ▸ rest.above)
  have stack : (c.without l.frame.labelTypes.length).stack.take l.frame.mark.height =
      c.stack.take l.frame.mark.height := by
    conv_rhs => rw [split, List.take_append_of_le_length low]
  have size : outer.length = (c.labels.drop (depth + 1)).length := by
    have lengths := (mid.labelled.drop depth).length
    rw [layers, labels, List.length_cons, List.length_cons] at lengths
    omega
  rw [Program.branch, present]
  dsimp only
  rw [types, taking]
  change LiveOrEnded p states (if c.labels.drop (depth + 1) = [] then _ else _)
  split
  · trivial
  rename_i some_
  have inner : outer ≠ [] := by
    intro empty
    rw [empty, List.length_nil] at size
    exact some_ (List.eq_nil_of_length_eq_zero size.symm)
  have behind (isBehind : l.frame.construct ≠ .loop) :
      LiveOrEnded p states (.ok (.running
        { c with
          pc := p.behind c.pc (c.labels.drop (depth + 1)).length
          stack := (c.without l.frame.labelTypes.length).stack.take label.height ++ args
          labels := c.labels.drop (depth + 1) })) := by
    rw [← size, head.height, stack]
    refine mid.goBehind described layers inner ?_ known
    simp [typed, Frame.labelTypes, isBehind]
  have target := head.target
  cases shape : label.target with
  | behind =>
      rw [shape] at target
      exact behind target.1
  | again start =>
      rw [shape] at target
      have live := mid.goBack described layers target.2
        (by simp [typed, Frame.labelTypes, target.1] :
          args.map Typed.type = l.frame.signature.params) known
      rw [labels] at live
      change Live p states _
      rw [head.height, stack]
      exact live
  | funclets start offset =>
      rw [shape] at target
      refine behind fun isLoop => ?_
      cases isLoop.symm.trans (head.isRegion nested shape)

theorem Mid.floor_eq (mid : Mid p states c) (layers : (states c.pc).layers = l :: outer) :
    c.floor = l.frame.mark.height := by
  obtain ⟨label, labels, head⟩ := mid.labelled.label (e := 0) layers
  rw [List.drop_zero] at labels
  rw [Config.floor, labels, List.head?_cons, Option.map_some, Option.getD_some, head.height]

/-- A construct with its results above its floor, and nothing else, is left with these. -/
theorem Mid.leave_eq (mid : Mid p states c) (layers : (states c.pc).layers = l :: outer)
    (typed : (c.stack.drop c.floor).map Typed.type = l.frame.signature.results) (pc : Nat) :
    Program.leave c pc = .ok (if outer = [] then .returned (c.stack.drop c.floor) c.history
      else .running { c with pc, labels := c.labels.drop 1 }) := by
  obtain ⟨label, labels, head⟩ := mid.labelled.label (e := 0) layers
  rw [List.drop_zero, Nat.zero_add] at labels
  have size : (c.labels.drop 1).length = outer.length := by
    have lengths := mid.labelled.length
    rw [layers, labels, List.length_cons, List.length_cons] at lengths
    omega
  have last : c.labels.drop 1 = [] ↔ outer = [] := by
    rw [← List.length_eq_zero_iff, size, List.length_eq_zero_iff]
  have taking : c.takeAll label.signature.results =
      .ok (c.stack.drop c.floor, { c with stack := c.stack.take c.floor }) := by
    rw [head.signature, Config.takeAll, if_pos ⟨mid.above, typed⟩]
  rw [Program.leave, labels]
  dsimp only
  rw [taking]
  change (if c.labels.drop 1 = [] then _ else _) = _
  by_cases alone : outer = []
  · rw [if_pos (last.mpr alone), if_pos alone]
    rfl
  · rw [if_neg (mt last.mp alone), if_neg alone]
    rfl

theorem Mid.leave (described : Described p setting states) (mid : Mid p states c)
    (layers : (states c.pc).layers = l :: outer)
    (typed : (c.stack.drop c.floor).map Typed.type = l.frame.signature.results) :
    LiveOrEnded p states (Program.leave c (p.behind c.pc outer.length)) := by
  rw [mid.leave_eq layers typed]
  split
  · trivial
  rename_i inner
  have live := mid.goBehind (e := 0) described layers inner typed fun x member =>
    mid.known x (List.mem_of_mem_drop member)
  rw [Nat.zero_add, ← mid.floor_eq layers, List.take_append_drop] at live
  exact live

/-- The machine looks for the innermost region where the validation has it. -/
theorem Labelled.transferWithin {k : Nat} (index : Nat) {labels : List Label} {inner : List Layer}
    {r : OpenRegion} (labelled : Labelled states k labels (inner ++ l :: outer))
    (plain : ∀ m ∈ inner, m.region = none) (region : l.region = some r)
    (isRegion : l.frame.construct = .region) :
    ∃ label start, labels.drop inner.length = label :: labels.drop (inner.length + 1) ∧
      label.height = l.frame.mark.height ∧ label.target = .funclets start r.offset ∧
      Course.OpenSince states start outer.length k ∧
      p.transferWithin index c labels =
        p.transferWithin index c (labels.drop inner.length) := by
  induction inner generalizing labels with
  | nil =>
      obtain ⟨label, split, head⟩ := labelled.label (e := 0) rfl
      have target := head.target
      cases shape : label.target with
      | behind =>
          rw [shape, region] at target
          simp at target
      | again start =>
          rw [shape, isRegion] at target
          simp at target
      | funclets start offset =>
          rw [shape, region] at target
          obtain rfl : r.offset = offset := Option.some.inj target.1
          exact ⟨label, start, split, head.height, shape, target.2, rfl⟩
  | cons m inner ih =>
      cases labelled with
      | @cons first others _ _ head tail =>
          obtain ⟨label, start, split, height, target, opened, same⟩ :=
            ih tail fun m member => plain m (List.mem_cons_of_mem _ member)
          refine ⟨label, start, split, height, target, opened, ?_⟩
          have shape := head.target
          rw [Program.transferWithin, List.length_cons, List.drop_succ_cons, ← same]
          rw [plain m List.mem_cons_self] at shape
          cases target : first.target with
          | behind | again => rfl
          | funclets start offset =>
              rw [target] at shape
              simp at shape

theorem regionAtLevel_of_layers {s : State} {r : OpenRegion} (layers : s.layers = l :: outer)
    (region : l.region = some r) : Course.regionAtLevel s outer.length = some r := by
  have size : outer.length + 1 = s.layers.length := by rw [layers, List.length_cons]
  rw [Course.regionAtLevel, size, lowest_length, layers, List.head?_cons, Option.bind_some, region]

/-- The start of a funclet is where the validation enters it first. -/
theorem Described.funcletStart_eq (described : Described p setting states)
    {start j n index : Nat} {params : List ValueType} (from_ : start ≤ j)
    (inside : j ≤ p.code.length) (at_ : Course.AtFunclet (states j) n index params)
    (first : ∀ m, start ≤ m → m < j → ∀ r, Course.regionAtLevel (states m) n = some r →
      r.graph.current < index) : p.funcletStart start n index = j := by
  refine p.seek_eq from_ inside (fun m after before => ?_) fun _ => ?_
  · rw [described.nestAt (by omega), State.nests]
    cases layers : (states m).layers with
    | nil => rfl
    | cons top around =>
        cases region : top.region with
        | none => simp [Layer.nest, region]
        | some r =>
            have earlier : around.length = n → r.graph.current < index := fun size =>
              first m after before r (size ▸ regionAtLevel_of_layers layers region)
            simp only [List.map_cons, Layer.nest, region, List.length_map]
            rw [decide_eq_false_iff_not]
            rintro ⟨current, size⟩
            exact absurd (earlier size) (by omega)
  · obtain ⟨frame, r, outer, layers, size, current, _⟩ := at_.layers
    rw [described.nestAt inside, State.nests, layers]
    simp [Layer.nest, current, size]

/-- Of an open region: where its last funclet ends, and which one that is. -/
theorem Described.last_funclet (described : Described p setting states) {k : Nat}
    {r : OpenRegion} (inside : k ≤ p.code.length)
    (found : lowest (outer.length + 1) (states k).layers = l :: outer) (inner : outer ≠ [])
    (isOpen : outer.length < (states k).layers.length) (region : l.region = some r) :
    ∃ q p', k ≤ q ∧ q < p.code.length ∧
      (∀ m, k ≤ m → m ≤ q → outer.length < (states m).layers.length) ∧
      Course.regionAtLevel (states q) outer.length = some p' ∧ p'.graph.current + 1 = r.graph.size := by
  have some_ : 0 < outer.length := List.length_pos_of_ne_nil inner
  obtain ⟨q, le, within, low, above⟩ := described.course.exists_exit inside isOpen
  obtain ⟨l', layers, later, rest, _⟩ := described.course.behind le within low some_ above found
  have high : (states q).layers.length = outer.length + 1 := by
    rw [layers, List.length_cons, low]
  obtain ⟨l'', _, _, layers', _, _, _, _, _, _, last⟩ :=
    described.course.closes within high low some_
  rw [layers] at layers'
  obtain ⟨rfl, _⟩ := List.cons.inj layers'
  have regions := later.region
  rw [region] at regions
  generalize opened : l'.region = region' at regions last
  cases regions with
  | @some _ r' grown =>
      refine ⟨q, r', le, within, above, ?_, ?_⟩
      · rw [← low]
        exact regionAtLevel_of_layers layers opened
      · rw [last, grown.keeps.size_eq]

/-- The start of a funclet of an open region, seen from a place inside the region: what the machine looks
for, and what the validation has there. -/
structure FuncletPlace (p : Program V) (states : Nat → State) (k : Nat) (l : Layer) (r : OpenRegion)
    (n index start j : Nat) (params : List ValueType) : Prop where
  from_ : start ≤ j
  inside : j < p.code.length
  found : p.funcletStart start n index = j
  known : p.params r.offset index = some params
  size : (states j).layers.length = n + 1
  above : ∀ m, min j k ≤ m → m ≤ max j k → n + 1 ≤ (states m).layers.length
  at_ : Course.AtFunclet (states j) n index params
  first : ∀ m, start ≤ m → m < j → ∀ q, Course.regionAtLevel (states m) n = some q → q.graph.current < index
  alike : ∀ m around, (states j).layers = m :: around → Alike l m
  below : (states j).stack.operands.toList.take l.frame.mark.height =
    (states k).stack.operands.toList.take l.frame.mark.height

theorem Described.funcletPlace (described : Described p setting states) {k start index : Nat}
    {r : OpenRegion} (inside : k ≤ p.code.length)
    (found : lowest (outer.length + 1) (states k).layers = l :: outer) (around : outer ≠ [])
    (isOpen : outer.length < (states k).layers.length) (region : l.region = some r)
    (opened : Course.OpenSince states start outer.length k) (within : index < r.graph.size) :
    ∃ j params, FuncletPlace p states k l r outer.length index start j params := by
  obtain ⟨q, r', le, bound, above, last, current⟩ :=
    described.last_funclet inside found around isOpen region
  have opened' : Course.OpenSince states start outer.length q :=
    opened.move fun m from_ upto => above m (by omega) (by omega)
  obtain ⟨j, params, from_, upto, at_, first⟩ :=
    described.course.entered opened' (Nat.le_of_lt bound) last
      (by omega : index ≤ r'.graph.current)
  obtain ⟨frame, r'', outer', layers', size, _, ⟨node, present, parameters⟩, types, reach⟩ :=
    at_.layers
  have sizes : (states j).layers.length = outer.length + 1 := by
    rw [layers', List.length_cons, size]
  have high (m : Nat) (after : min j k ≤ m) (before : m ≤ max j k) :
      outer.length + 1 ≤ (states m).layers.length :=
    opened'.above m (by have := opened.le; omega) (by omega)
  have alike := alike_between described.course (j := j) (k := k) (by omega) inside high
  rw [found, ← sizes, lowest_length, layers'] at alike
  cases alike with
  | cons head _ =>
      have offset : r''.offset = r.offset := by
        have offsets := head.region
        rw [region] at offsets
        exact Option.some.inj offsets
      have insideJ : j < p.code.length := by omega
      refine ⟨j, params, from_, insideJ, ?_, ?_, sizes, high, at_, first, ?_, ?_⟩
      · exact described.funcletStart_eq from_ (Nat.le_of_lt insideJ) at_ first
      · -- The parameters at the start are the recorded ones.
        obtain ⟨t, taken⟩ := described.course.taken insideJ
        obtain ⟨g, keeps, _, all⟩ := described.course.recorded
          ((described.course.framed insideJ).fetched t) taken.moves.shift insideJ
          (m := outer.length) (by
            change outer.length < (states j).layers.length
            omega) (by
            change lowest (outer.length + 1) (states j).layers = _
            rw [← sizes, lowest_length, layers']) rfl
        obtain ⟨later, present', parameters'⟩ := keeps.params present parameters
        rw [described.params, ← offset]
        exact all index later params present' parameters'
      · intro m around layers
        rw [layers'] at layers
        obtain ⟨rfl, _⟩ := List.cons.inj layers
        exact head
      · rcases Nat.le_total j k with before | after
        · have kept := described.course.operands before inside
            (fun m after upto => high m (by omega) (by omega))
            (by rw [← sizes, lowest_length, layers'])
          rw [show frame.mark.height = l.frame.mark.height from congrArg Mark.height head.mark] at kept
          exact kept.symm
        · exact described.course.operands after (Nat.le_of_lt insideJ)
            (fun m from_ before => high m (by omega) (by omega)) found

/-- A call whose arguments are the parameters that the region records does not fail. -/
theorem Mid.transfer (described : Described p setting states) (mid : Mid p states c)
    {inner : List Layer} {r : OpenRegion} {index : Nat} {params : List ValueType}
    (layers : (states c.pc).layers = inner ++ l :: outer) (plain : ∀ m ∈ inner, m.region = none)
    (region : l.region = some r) (known : p.params r.offset index = some params)
    (typed : (c.stack.drop l.frame.mark.height).map Typed.type = params)
    (within : index < r.graph.size) : LiveOrEnded p states (p.transfer index c) := by
  have found : (states c.pc).layers.drop inner.length = l :: outer := by
    rw [layers, List.drop_left]
  have nested := Nested.drop (mid.framed described).nested found
  have isRegion : l.frame.construct = .region := by rw [nested.region_iff, region, Option.isSome]
  have around : outer ≠ [] := by
    rintro rfl
    cases nested with
    | function _ _ _ plain => simp [plain] at region
  have length := length_of_drop found
  obtain ⟨label, start, labels, height, target, opened, same⟩ :=
    Labelled.transferWithin (p := p) (c := c) index (layers ▸ mid.labelled) plain region isRegion
  obtain ⟨j, params', entrance⟩ := described.funcletPlace (Nat.le_of_lt mid.inside) (lowest_of_drop found)
    around (by omega) region opened within
  have recorded : params' = params := Option.some.inj (entrance.known.symm.trans known)
  obtain ⟨frame, _, _, layers', _, _, _, types, _⟩ := entrance.at_.layers
  have mark : frame.mark.height = l.frame.mark.height := congrArg Mark.height (entrance.alike _ _ layers').mark
  rw [Program.transfer, same, labels, Program.transferWithin, target]
  dsimp only
  rw [if_pos (by rw [known, height, typed])]
  have others : (c.labels.drop (inner.length + 1)).length = outer.length := by
    have total := mid.labelled.length
    rw [List.length_drop]
    omega
  rw [others, entrance.found]
  refine mid.arrive (e := inner.length) described (Nat.le_of_lt entrance.inside) ?_ labels.symm ?_ ?_
    mid.locals ?_ mid.known entrance.at_.finite
  · rw [layers']
    exact List.cons_ne_nil _ _
  · change (states j).layers.length + inner.length = _
    have := entrance.size
    omega
  · intro m after before
    rw [entrance.size]
    exact entrance.above m after before
  · have operands := List.take_append_drop l.frame.mark.height c.stack
    have operands' := List.take_append_drop l.frame.mark.height (states j).stack.operands.toList
    rw [mark] at types
    change c.stack.map Typed.type = (states j).stack.operands.toList.map Operand.type
    rw [← operands, ← operands', List.map_append, List.map_append, typed, types, entrance.below,
      mid.types_take (mid.height_le described found), recorded]

end WasmFunclets.Machine
