import WasmFunclets.Proofs.Jumps

/-! The `else` of an `if`, or its end where it has none, and how the machine gets there. -/

namespace WasmFunclets

namespace Validation

variable {n : Nat}

def constructAt (s : State) (n : Nat) : Option Construct :=
  (lowest (n + 1) s.layers).head?.map fun l => l.frame.construct

theorem Shift.construct {s t : State} {i : Instruction} (shift : Shift s i t)
    (isOpen : n < s.layers.length) (still : n < t.layers.length) :
    constructAt t n = constructAt s n ∨ i = .elseThen ∧ s.layers.length = n + 1 := by
  cases shift with
  | stays quiet _ =>
      refine .inl ?_
      have same := forall₂_lowest (n + 1) quiet.layers
      unfold constructAt
      generalize lowest (n + 1) s.layers = before, lowest (n + 1) t.layers = later at same
      cases same with
      | nil => rfl
      | cons head _ => simp [head.frame]
  | opens l layers =>
      refine .inl ?_
      rw [constructAt, constructAt, layers, lowest_cons isOpen]
  | turns l m outer before layers condition params isIf isElse starts closed regions turn =>
      by_cases deeper : n < outer.length
      · refine .inl ?_
        rw [constructAt, constructAt, layers, before, lowest_cons deeper, lowest_cons deeper]
      · rw [before] at isOpen ⊢
        simp only [List.length_cons] at isOpen ⊢
        exact .inr ⟨turn, by omega⟩
  | goesOn l m outer before layers r q region frame =>
      refine .inl ?_
      by_cases deeper : n < outer.length
      · rw [constructAt, constructAt, layers, before, lowest_cons deeper, lowest_cons deeper]
      · rw [before, List.length_cons] at isOpen
        have size : n = outer.length := by omega
        have whole (top : Layer) : lowest (n + 1) (top :: outer) = top :: outer := by
          rw [size, ← List.length_cons (a := top), lowest_length]
        rw [constructAt, constructAt, layers, before, whole, whole, frame]
        rfl
  | closes l parent outer before layers =>
      refine .inl ?_
      rw [layers] at still
      rw [constructAt, constructAt, layers, before, lowest_cons still]
  | ends _ _ control =>
      have empty : t.layers = [] := by simp [State.layers, State.frames, control, layersOf]
      rw [empty] at still
      exact absurd still (Nat.not_lt_zero _)

theorem Shift.freshOperands_of_else {s t : State} (shift : Shift s .elseThen t) {l : Layer}
    {outer : List Layer} (layers : s.layers = l :: outer) (plain : l.region = none)
    (size : t.layers.length = s.layers.length) : FreshOperands s t l l.frame.signature.params := by
  cases shift with
  | stays _ other => exact absurd rfl other
  | opens _ later =>
      rw [later, List.length_cons] at size
      omega
  | turns l' m rest before _ _ _ _ _ starts =>
      rw [layers] at before
      obtain ⟨rfl, rfl⟩ := List.cons.inj before
      exact starts
  | goesOn l' _ _ before _ r _ region =>
      rw [layers] at before
      obtain ⟨rfl, _⟩ := List.cons.inj before
      simp [region] at plain
  | closes l' parent rest before _ _ _ _ _ _ record =>
      rw [layers] at before
      obtain ⟨rfl, _⟩ := List.cons.inj before
      simp [plain] at record
  | ends l' _ _ _ isClose => cases isClose

namespace Course

variable {setting : Setting} {code : List Located} {states : Nat → State} {k : Nat}

/-- Whether a point directly inside a construct is its `else` or its end. -/
def Divides (code : List Located) (states : Nat → State) (n m : Nat) : Prop :=
  (states m).layers.length = n + 1 ∧
    ∃ line, code[m]? = some line ∧ (line.instruction = .elseThen ∨ line.instruction = .close)

theorem constructAt_eq (course : Course setting code states) {a : Nat} (le : k ≤ a)
    (inside : a ≤ code.length) (above : ∀ m, k ≤ m → m ≤ a → n < (states m).layers.length)
    (none_ : ∀ m, k ≤ m → m < a → ¬ Divides code states n m) :
    constructAt (states a) n = constructAt (states k) n := by
  induction a, le using Nat.le_induction with
  | base => rfl
  | succ a le ih =>
      have before := ih (Nat.le_of_succ_le inside)
        (fun m from_ upto => above m from_ (Nat.le_succ_of_le upto))
        fun m from_ before => none_ m from_ (Nat.lt_succ_of_lt before)
      obtain ⟨c, taken⟩ := course.taken inside
      rcases taken.moves.shift.construct (above a le (Nat.le_succ a))
        (above (a + 1) (Nat.le_succ_of_le le) (Nat.le_refl _)) with same | ⟨isElse, size⟩
      · exact same.trans before
      · exact absurd ⟨size, _, List.getElem?_eq_getElem inside, .inl isElse⟩
          (none_ a le (Nat.lt_succ_self a))

/-- Some point directly inside a construct without funclets divides it, at the latest its end. -/
theorem exists_division (course : Course setting code states) {l : Layer} {outer : List Layer}
    (inside : k ≤ code.length) (layers : (states k).layers = l :: outer)
    (plain : l.region = none) (inner : outer ≠ []) :
    ∃ a, k ≤ a ∧ a < code.length ∧
      (∀ m, k ≤ m → m ≤ a → outer.length < (states m).layers.length) ∧
      Divides code states outer.length a ∧
      ∀ m, k ≤ m → m < a → ¬ Divides code states outer.length m := by
  classical
  have some_ : 0 < outer.length := List.length_pos_of_ne_nil inner
  have size : (states k).layers.length = outer.length + 1 := by rw [layers, List.length_cons]
  obtain ⟨q, le, within, low, above⟩ := course.exists_exit (n := outer.length) inside (by omega)
  have atEnd : Divides code states outer.length q := by
    obtain ⟨l', split, later, _⟩ :=
      course.behind le within low some_ above (by rw [← size, lowest_length, layers])
    have high : (states q).layers.length = outer.length + 1 := by rw [split, List.length_cons, low]
    obtain ⟨l'', _, _, split', _, _, _, _, _, last⟩ := course.closes within high low some_
    rw [split] at split'
    obtain ⟨rfl, _⟩ := List.cons.inj split'
    have region := later.region
    rw [plain] at region
    rw [(rel_none region).mpr rfl] at last
    exact ⟨high, _, List.getElem?_eq_getElem within, .inr last.2.2⟩
  have exists_ : ∃ d, Divides code states outer.length (k + d) :=
    ⟨q - k, by rwa [Nat.add_sub_cancel' le]⟩
  have upto : k + Nat.find exists_ ≤ q := by
    have := Nat.find_min' exists_ (m := q - k) (by rwa [Nat.add_sub_cancel' le])
    omega
  refine ⟨k + Nat.find exists_, Nat.le_add_right _ _, by omega, fun m from_ before => ?_,
    Nat.find_spec exists_, fun m from_ before => ?_⟩
  · exact above m from_ (by omega)
  · have := Nat.find_min exists_ (m := m - k) (by omega)
    rwa [Nat.add_sub_cancel' from_] at this

/-- An `if` has an `else` or an end, and without an `else` its parameters are its results. -/
theorem alternative (course : Course setting code states) {l : Layer} {outer : List Layer}
    {condition : BlockId} {params : List ValueId} (inside : k ≤ code.length)
    (layers : (states k).layers = l :: outer) (isIf : l.frame.construct = .ifThen condition params)
    (plain : l.region = none) (inner : outer ≠ []) :
    ∃ a, k ≤ a ∧ a < code.length ∧
      (∀ m, k ≤ m → m ≤ a → outer.length < (states m).layers.length) ∧
      Divides code states outer.length a ∧
      (∀ m, k ≤ m → m < a → ¬ Divides code states outer.length m) ∧
      (∃ m around, (states a).layers = m :: around ∧ m.frame = l.frame) ∧
      ((code[a]?.map Located.instruction = some .elseThen ∧
          (states (a + 1)).layers.length = outer.length + 1 ∧
          (states (a + 1)).stack.polymorphic = false ∧
          ∃ tops, (states (a + 1)).stack.operands.toList =
            (states k).stack.operands.toList.take l.frame.mark.height ++ tops ∧
            tops.map Operand.type = l.frame.signature.params) ∨
        code[a]?.map Located.instruction = some .close ∧
          (states (a + 1)).layers.length = outer.length ∧
          l.frame.signature.params = l.frame.signature.results) := by
  obtain ⟨a, from_, insideA, above, divides, first⟩ :=
    course.exists_division inside layers plain inner
  refine ⟨a, from_, insideA, above, divides, first, ?_⟩
  obtain ⟨high, line, present, instruction⟩ := divides
  obtain rfl : code[a] = line := by
    rw [List.getElem?_eq_getElem insideA] at present
    exact Option.some.inj present
  rw [present, Option.map_some]
  have found : lowest (outer.length + 1) (states k).layers = l :: outer := by
    rw [layers, ← List.length_cons (a := l), lowest_length]
  -- Up to this point the layer is that of the `if`.
  have kept := course.constructAt_eq from_ (Nat.le_of_lt insideA) above first
  have same := course.stable from_ (Nat.le_of_lt insideA) (n := outer.length + 1) above
  rw [constructAt, constructAt, found, List.head?_cons, Option.map_some, isIf] at kept
  rw [found] at same
  generalize split : lowest (outer.length + 1) (states a).layers = around at kept same
  cases same with
  | @cons _ l' _ others later _ =>
      rw [← high, lowest_length] at split
      have region : l'.region = none := (rel_none later.region).mpr plain
      have construct : l'.frame.construct = .ifThen condition params := Option.some.inj kept
      have signature : l'.frame.signature = l.frame.signature := by rw [later.frame]
      have mark : l'.frame.mark = l.frame.mark := by rw [later.frame]
      have whole : l'.frame = l.frame := by
        rw [later.frame, construct, ← isIf]
      obtain ⟨c, taken⟩ := course.taken insideA
      have nests := congrArg List.length taken.moves.nests
      change _ = (Nest.advance ((states a).layers.map Layer.nest) _).length at nests
      have top : l'.nest = .plain := by rw [Layer.nest, region]
      rw [State.nests, List.length_map, split, List.map_cons, top] at nests
      have length : others.length = outer.length := by
        rw [split, List.length_cons] at high
        omega
      rcases instruction with isElse | isClose
      · have shift := taken.moves.shift
        rw [isElse] at nests shift ⊢
        have after : (states (a + 1)).layers.length = outer.length + 1 := by
          rw [nests, ← length]
          simp [Nest.advance]
        have starts := shift.freshOperands_of_else (l := l') split region (after.trans high.symm)
        obtain ⟨tops, stack, types⟩ := starts.tops.operands
        change _ = (states a).stack.operands.toList.take _ ++ _ at stack
        rw [mark, course.operands from_ (Nat.le_of_lt insideA) (n := outer.length + 1) above found]
          at stack
        exact ⟨⟨l', others, split, whole⟩, .inl ⟨rfl, after, starts.finite, tops, stack,
          types.trans (by rw [signature])⟩⟩
      · rw [isClose] at nests ⊢
        have after : (states (a + 1)).layers.length = outer.length := by
          rw [nests, ← length]
          simp [Nest.advance]
        obtain ⟨l'', _, _, split', _, _, _, _, fits, _⟩ :=
          course.closes insideA high after (List.length_pos_of_ne_nil inner)
        rw [split] at split'
        obtain ⟨rfl, _⟩ := List.cons.inj split'
        refine ⟨⟨l', others, split, whole⟩, .inr ⟨rfl, after, ?_⟩⟩
        rw [← signature]
        exact fits condition params construct

end Course

end Validation

namespace Machine

open Validation

variable {V : Type} {p : Program V} {setting : Setting} {states : Nat → State} {c : Config V}

theorem Described.alternative_eq (described : Described p setting states) {k a n : Nat}
    (inside : k ≤ p.code.length) (size : (states k).layers.length = n) (from_ : k + 1 ≤ a)
    (upto : a ≤ p.code.length) (divides : Course.Divides p.code states n a)
    (first : ∀ m, k + 1 ≤ m → m < a → ¬ Course.Divides p.code states n m) :
    p.alternative k = a := by
  have iff (m : Nat) (le : m ≤ p.code.length) :
      ((p.nestAt m).length = (p.nestAt k).length + 1 ∧
        (p.instructionAt m = some .elseThen ∨ p.instructionAt m = some .close)) ↔
      Course.Divides p.code states n m := by
    rw [described.length_nestAt le, described.length_nestAt inside, size, Course.Divides]
    simp only [Program.instructionAt, Option.map_eq_some_iff]
    grind
  refine p.seek_eq from_ upto (fun m after before => ?_) fun _ => ?_
  · rw [decide_eq_false_iff_not, iff m (by omega)]
    exact first m after before
  · rw [decide_eq_true_iff, iff a upto]
    exact divides

/-- An `if` whose condition fails goes on at its `else` or is left at its end. -/
theorem Live.skip (described : Described p setting states) (live : Live p states c) {k : Nat}
    {l : Layer} {outer : List Layer} {condition : BlockId} {params : List ValueId}
    (pc : c.pc = k + 1) (layers : (states c.pc).layers = l :: outer)
    (isIf : l.frame.construct = .ifThen condition params) (plain : l.region = none)
    (inner : outer ≠ []) (size : (states k).layers.length = outer.length)
    (typed : (c.stack.drop c.floor).map Typed.type = l.frame.signature.params) :
    LiveOrEnded p states
      (if p.instructionAt (p.alternative k) = some .elseThen then
        .ok (.running { c with pc := p.alternative k + 1 })
      else Program.leave c (p.alternative k + 1)) := by
  have inside := Nat.le_of_lt live.inside
  have mid := live.mid
  obtain ⟨a, from_, insideA, above, divides, first, _, ends⟩ :=
    described.course.alternative inside layers isIf plain inner
  rw [described.alternative_eq (by omega) size (pc ▸ from_) (Nat.le_of_lt insideA) divides
    (pc ▸ first)]
  have found : (states c.pc).layers.drop 0 = l :: outer := layers
  have floor : c.floor = l.frame.mark.height := by
    rw [mid.floor, (mid.framed described).floor l outer layers]
  rcases ends with ⟨isElse, after, finite, tops, operands, types⟩ | ⟨isClose, after, same⟩
  · rw [if_pos (show p.instructionAt a = some .elseThen from isElse)]
    refine mid.arrive (e := 0) described insideA ?_ rfl ?_ ?_ mid.locals ?_ mid.known finite
    · intro empty
      rw [empty] at after
      simp at after
    · change (states (a + 1)).layers.length + 0 = _
      rw [after, layers, List.length_cons, Nat.add_zero]
    · intro m from_ upto
      dsimp only at from_ upto ⊢
      rw [after]
      by_cases last : m = a + 1
      · exact Nat.le_of_eq (by rw [last, after])
      · exact above m (by omega) (by omega)
    · have split := mid.types_append described found operands (typed.trans types.symm)
      rw [← floor, List.take_append_drop] at split
      exact split
  · have other : p.instructionAt a ≠ some .elseThen := by
      rw [Program.instructionAt, isClose]
      simp
    rw [if_neg other, ← described.behind_eq from_ insideA after above]
    exact mid.leave described layers (typed.trans same)

end Machine

end WasmFunclets
