import WasmFunclets.Machine
import WasmFunclets.Proofs.Encoding.Unique

/-! How the constructs of a body nest, read off its lines: which regions there are, and in which order
they end. -/

namespace WasmFunclets

/-- A region: the offset of its opcode, how many frames are open there, how many funclets it has and
the offsets of the regions around it. -/
structure Sketch where
  offset : Nat
  depth : Nat
  funclets : Nat
  around : List Nat
  deriving DecidableEq, Repr

inductive Level where
  | plain
  | region (sketch : Sketch) (funclet : Nat)
  deriving DecidableEq, Repr

namespace Level

def nest : Level → Nest
  | plain => .plain
  | region sketch funclet => .region funclet sketch.funclets

def sketch? : Level → Option Sketch
  | plain => none
  | region sketch _ => some sketch

end Level

/-- The open frames, the innermost first, all regions in the order of their opcodes, and those that
are closed in the order of their ends. -/
structure Outline where
  levels : List Level
  opened : List Sketch
  closed : List Sketch
  deriving DecidableEq, Repr

namespace Outline

open Encoding (Piece)

def start : Outline := ⟨[.plain], [], []⟩

def nests (o : Outline) : List Nest := o.levels.map Level.nest

def inside (o : Outline) : List Sketch := o.levels.filterMap Level.sketch?

def enter (o : Outline) : Outline := { o with levels := .plain :: o.levels }

def enterRegion (o : Outline) (offset funclets : Nat) : Outline :=
  let sketch : Sketch := ⟨offset, o.levels.length, funclets, o.inside.map Sketch.offset⟩
  { o with levels := .region sketch 0 :: o.levels, opened := o.opened ++ [sketch] }

def endFunclet (o : Outline) : Outline :=
  match o.levels with
  | .region sketch funclet :: outer =>
      if funclet + 1 < sketch.funclets then
        { o with levels := .region sketch (funclet + 1) :: outer }
      else { o with levels := outer, closed := o.closed ++ [sketch] }
  | _ => o

def leave (o : Outline) : Outline :=
  match o.levels with
  | .plain :: outer => { o with levels := outer }
  | _ => o.endFunclet

def read (o : Outline) (offset : Nat) (line : Line) : Outline :=
  match line.opcode.form, line.immediate with
  | .block, _ | .loop, _ | .ifThen, _ => o.enter
  | .funcletRegion, .region _ funclets => o.enterRegion offset funclets
  | .close, _ => o.leave
  | .unreachable, _ | .br, _ | .brTable, _ | .ret, _ | .funcletCall, _ | .funcletCallTable, _ =>
      o.endFunclet
  | _, _ => o

def readAll (o : Outline) (offset : Nat) : List Piece → Outline
  | [] => o
  | p :: pieces => (o.read offset p.line).readAll (offset + p.bytes.length) pieces

def declares (line : Line) : Option Nat :=
  match line.opcode.form, line.immediate with
  | .funcletRegion, .region _ funclets => some funclets
  | _, _ => none

/-- The lines that open regions: their offsets and how many funclets they declare. -/
def declared (offset : Nat) : List Piece → List (Nat × Nat)
  | [] => []
  | p :: pieces =>
      ((declares p.line).map fun funclets => (offset, funclets)).toList ++
        declared (offset + p.bytes.length) pieces

/-- What a line does to the outline. -/
inductive Turn (o : Outline) (offset : Nat) : Outline → Prop where
  | stays : Turn o offset o
  | enters : Turn o offset o.enter
  | opens (funclets : Nat) : Turn o offset (o.enterRegion offset funclets)
  | goesOn {sketch : Sketch} {funclet : Nat} {outer : List Level}
      (levels : o.levels = .region sketch funclet :: outer) :
      Turn o offset { o with levels := .region sketch (funclet + 1) :: outer }
  | leaves {outer : List Level} (levels : o.levels = .plain :: outer) :
      Turn o offset { o with levels := outer }
  | closes {sketch : Sketch} {funclet : Nat} {outer : List Level}
      (levels : o.levels = .region sketch funclet :: outer) :
      Turn o offset { o with levels := outer, closed := o.closed ++ [sketch] }

variable {o : Outline} {offset : Nat} {line : Line}

theorem endFunclet_turn : Turn o offset o.endFunclet := by
  unfold endFunclet
  split
  · split
    · exact .goesOn ‹_›
    · exact .closes ‹_›
  · exact .stays

theorem leave_turn : Turn o offset o.leave := by
  unfold leave
  split
  · exact .leaves ‹_›
  · exact endFunclet_turn

theorem read_turn (o : Outline) (offset : Nat) (line : Line) : Turn o offset (o.read offset line) := by
  unfold read
  split
  · exact .enters
  · exact .enters
  · exact .enters
  · exact .opens _
  · exact leave_turn
  all_goals first
    | exact endFunclet_turn
    | exact .stays

theorem nests_endFunclet (o : Outline) : o.endFunclet.nests =
    match o.nests with
    | .region funclet funclets :: outer => Nest.nextFunclet funclet funclets outer
    | nest => nest := by
  obtain ⟨levels, opened, closed⟩ := o
  match levels with
  | [] => rfl
  | .plain :: outer => rfl
  | .region sketch funclet :: outer =>
      simp only [endFunclet, nests, List.map_cons, Level.nest, Nest.nextFunclet]
      split <;> rfl

theorem nests_leave (o : Outline) : o.leave.nests = Nest.advance o.nests .close := by
  obtain ⟨levels, opened, closed⟩ := o
  match levels with
  | [] => rfl
  | .plain :: outer => rfl
  | .region sketch funclet :: outer => exact nests_endFunclet _

theorem nests_stop {i : Instruction} (none_ : Nest.advance [] i = [])
    (plain : ∀ outer, Nest.advance (.plain :: outer) i = .plain :: outer)
    (region : ∀ funclet funclets outer, Nest.advance (.region funclet funclets :: outer) i =
      Nest.nextFunclet funclet funclets outer) : o.endFunclet.nests = Nest.advance o.nests i := by
  rw [nests_endFunclet]
  rcases o.nests with _ | ⟨_ | _, _⟩
  · exact none_.symm
  · exact (plain _).symm
  · exact (region _ _ _).symm

theorem nests_read {scope : Scope} {i : Instruction} (found : Decode.resolve scope line = some i) :
    (o.read offset line).nests = Nest.advance o.nests i := by
  have stop {i : Instruction} (none_ : Nest.advance [] i = [])
      (plain : ∀ outer, Nest.advance (.plain :: outer) i = .plain :: outer)
      (region : ∀ funclet funclets outer, Nest.advance (.region funclet funclets :: outer) i =
        Nest.nextFunclet funclet funclets outer) : o.endFunclet.nests = Nest.advance o.nests i :=
    nests_stop none_ plain region
  obtain ⟨⟨byte, name, form⟩, immediate⟩ := line
  unfold Decode.resolve at found
  dsimp only at found
  split at found
  all_goals try simp only [Option.map_eq_some_iff, Option.bind_eq_some_iff, Option.bind_eq_bind,
    Option.pure_def, Option.ite_none_right_eq_some, Option.ite_none_left_eq_some] at found
  -- The constructs depend on no more than the form of the opcode.
  all_goals first
    | (obtain ⟨_, ⟨⟩⟩ := found; first | rfl | exact stop rfl (fun _ => rfl) fun _ _ _ => rfl)
    | (obtain ⟨_, _, rfl⟩ := found; first | rfl | exact stop rfl (fun _ => rfl) fun _ _ _ => rfl)
    | (obtain ⟨_, _, _, rfl⟩ := found; rfl)
    | (obtain ⟨_, _, _, _, _, _, ⟨⟩⟩ := found; exact stop rfl (fun _ => rfl) fun _ _ _ => rfl)
    | (cases found <;> first | rfl | exact nests_leave o)

theorem read_header (header : line.opcode = Decode.funcletSig) : o.read offset line = o := by
  unfold read
  rw [header]
  rfl

theorem Turn.of_same {next : Outline} (turn : Turn o offset next) (same : next.nests = o.nests) :
    next = o := by
  cases turn with
  | stays => rfl
  | enters | opens => simp [nests, enter, enterRegion] at same
  | goesOn levels | leaves levels | closes levels =>
      simp [nests, levels, Level.nest] at same

theorem Turn.of_cons {next : Outline} {n : Nest} (turn : Turn o offset next)
    (more : next.nests = n :: o.nests) :
    (n = .plain ∧ next = o.enter) ∨
      ∃ funclets, n = .region 0 funclets ∧ next = o.enterRegion offset funclets := by
  cases turn with
  | stays => simp [nests] at more
  | enters => exact .inl ⟨(List.cons.inj more).1.symm, rfl⟩
  | opens funclets => exact .inr ⟨funclets, (List.cons.inj more).1.symm, rfl⟩
  | goesOn levels | leaves levels | closes levels =>
      have lengths := congrArg List.length more
      simp only [nests, levels, List.map_cons, List.length_cons, List.length_map] at lengths
      omega

theorem Turn.of_next {next : Outline} {sketch : Sketch} {funclet : Nat} {outer : List Level}
    (turn : Turn o offset next) (levels : o.levels = .region sketch funclet :: outer)
    (onward : next.nests = .region (funclet + 1) sketch.funclets :: outer.map Level.nest) :
    next = { o with levels := .region sketch (funclet + 1) :: outer } := by
  cases turn with
  | stays => simp [nests, levels, Level.nest] at onward
  | enters | opens =>
      have lengths := congrArg List.length onward
      simp only [nests, enter, enterRegion, levels, List.map_cons, List.length_cons,
        List.length_map] at lengths
      omega
  | goesOn levels' =>
      obtain ⟨same, rfl⟩ := List.cons.inj (levels'.symm.trans levels)
      cases same
      rfl
  | leaves levels' => cases levels'.symm.trans levels
  | closes levels' =>
      obtain ⟨_, rfl⟩ := List.cons.inj (levels'.symm.trans levels)
      simp [nests] at onward

theorem Turn.of_tail {next : Outline} {level : Level} {outer : List Level}
    (turn : Turn o offset next) (levels : o.levels = level :: outer)
    (fewer : next.nests = outer.map Level.nest) :
    next = { o with levels := outer, closed := o.closed ++ level.sketch?.toList } := by
  cases turn with
  | stays => simp [nests, levels] at fewer
  | enters | opens =>
      have lengths := congrArg List.length fewer
      simp only [nests, enter, enterRegion, levels, List.map_cons, List.length_cons,
        List.length_map] at lengths
      omega
  | goesOn levels' =>
      obtain ⟨_, rfl⟩ := List.cons.inj (levels'.symm.trans levels)
      simp [nests] at fewer
  | leaves levels' =>
      obtain ⟨rfl, rfl⟩ := List.cons.inj (levels'.symm.trans levels)
      simp [Level.sketch?]
  | closes levels' =>
      obtain ⟨rfl, rfl⟩ := List.cons.inj (levels'.symm.trans levels)
      rfl

def TellsAround : List Sketch → Prop
  | [] => True
  | sketch :: outer => sketch.around = outer.map Sketch.offset ∧ TellsAround outer

structure WellNested (o : Outline) (place : Nat) : Prop where
  rising : o.opened.Pairwise fun a b => a.offset < b.offset
  before : ∀ sketch ∈ o.opened, sketch.offset < place
  once : o.opened.Perm (o.closed ++ o.inside)
  around : TellsAround o.inside
  order : o.closed.Pairwise fun a b => a.offset ∉ b.around

theorem wellNested_start (place : Nat) : start.WellNested place :=
  ⟨.nil, nofun, .nil, trivial, .nil⟩

variable {place later : Nat}

theorem WellNested.onward (sound : o.WellNested place) (le : place ≤ later) : o.WellNested later :=
  { sound with before := fun sketch member => Nat.lt_of_lt_of_le (sound.before sketch member) le }

theorem WellNested.distinct (sound : o.WellNested place) :
    ((o.closed ++ o.inside).map Sketch.offset).Nodup := by
  refine (sound.once.map Sketch.offset).nodup_iff.mp ?_
  exact List.pairwise_map.mpr (sound.rising.imp fun less => Nat.ne_of_lt less)

theorem WellNested.enterRegion (sound : o.WellNested place) (funclets : Nat) (lt : place < later) :
    (o.enterRegion place funclets).WellNested later where
  rising := List.pairwise_append.mpr ⟨sound.rising, List.pairwise_singleton _ _,
    fun a member b new => by
      rw [List.mem_singleton.mp new]
      exact sound.before a member⟩
  before sketch member := by
    rcases List.mem_append.mp member with old | new
    · exact Nat.lt_trans (sound.before sketch old) lt
    · rw [List.mem_singleton.mp new]
      exact lt
  once := (List.perm_append_singleton _ _).trans ((sound.once.cons _).trans List.perm_middle.symm)
  around := ⟨rfl, sound.around⟩
  order := sound.order

theorem WellNested.close {sketch : Sketch} {funclet : Nat} {outer : List Level} (sound : o.WellNested place)
    (levels : o.levels = .region sketch funclet :: outer) :
    WellNested { o with levels := outer, closed := o.closed ++ [sketch] } place := by
  have inside : o.inside = sketch :: outer.filterMap Level.sketch? := by
    rw [Outline.inside, levels]
    rfl
  have around := sound.around
  have distinct := sound.distinct
  rw [inside] at around distinct
  refine ⟨sound.rising, sound.before, ?_, around.2, ?_⟩
  · have once := sound.once
    rw [inside, ← List.singleton_append, ← List.append_assoc] at once
    exact once
  · refine List.pairwise_append.mpr ⟨sound.order, List.pairwise_singleton _ _, fun a old b new => ?_⟩
    rw [List.mem_singleton.mp new, around.1]
    rw [List.map_append] at distinct
    exact fun enclosing => (List.nodup_append.mp distinct).2.2 _ (List.mem_map_of_mem old) _
      (List.mem_cons_of_mem _ enclosing) rfl

theorem WellNested.read (sound : o.WellNested place) (line : Line) (lt : place < later) :
    (o.read place line).WellNested later := by
  have still := sound.onward (Nat.le_of_lt lt)
  have same {levels : List Level} (inside : levels.filterMap Level.sketch? = o.inside) :
      WellNested { o with levels } later :=
    ⟨still.rising, still.before, by rw [Outline.inside, inside]; exact still.once,
      by rw [Outline.inside, inside]; exact still.around, still.order⟩
  have turn := read_turn o place line
  generalize o.read place line = next at turn
  cases turn with
  | stays => exact still
  | enters => exact same rfl
  | opens funclets => exact sound.enterRegion funclets lt
  | goesOn levels | leaves levels =>
      refine same ?_
      rw [Outline.inside, levels]
      rfl
  | closes levels => exact still.close levels

theorem WellNested.readAll (sound : o.WellNested place) (pieces : List Piece) :
    (o.readAll place pieces).WellNested (place + (Encoding.join pieces).length) := by
  induction pieces generalizing o place with
  | nil => exact sound
  | cons p pieces ih =>
      have further : place < place + p.bytes.length :=
        Nat.lt_add_of_pos_right (List.length_pos_iff.mpr p.bytes_ne_nil)
      have sound := ih (sound.read p.line further)
      rwa [Nat.add_assoc, ← List.length_append] at sound

theorem opened_endFunclet (o : Outline) : o.endFunclet.opened = o.opened := by
  unfold endFunclet
  split
  · split <;> rfl
  · rfl

theorem opened_leave (o : Outline) : o.leave.opened = o.opened := by
  unfold leave
  split
  · rfl
  · exact opened_endFunclet o

theorem opened_read (o : Outline) (place : Nat) (line : Line) :
    (o.read place line).opened.map (fun k => (k.offset, k.funclets)) =
      o.opened.map (fun k => (k.offset, k.funclets)) ++
        ((declares line).map fun funclets => (place, funclets)).toList := by
  unfold read
  split <;> simp_all [declares, enter, enterRegion, opened_leave, opened_endFunclet]

theorem opened_readAll (o : Outline) (place : Nat) (pieces : List Piece) :
    (o.readAll place pieces).opened.map (fun k => (k.offset, k.funclets)) =
      o.opened.map (fun k => (k.offset, k.funclets)) ++ declared place pieces := by
  induction pieces generalizing o place with
  | nil => exact (List.append_nil _).symm
  | cons p pieces ih =>
      rw [Outline.readAll, ih, opened_read, List.append_assoc]
      rfl

theorem readAll_append (o : Outline) (place : Nat) (pieces more : List Piece) :
    o.readAll place (pieces ++ more) =
      (o.readAll place pieces).readAll (place + (Encoding.join pieces).length) more := by
  induction pieces generalizing o place with
  | nil => rfl
  | cons p pieces ih =>
      rw [List.cons_append, Outline.readAll, ih, Outline.readAll, Nat.add_assoc,
        ← List.length_append]
      rfl

theorem readAll_headers (o : Outline) (place : Nat) {pieces : List Piece}
    (headers : ∀ p ∈ pieces, p.line.opcode = Decode.funcletSig) : o.readAll place pieces = o := by
  induction pieces generalizing place with
  | nil => rfl
  | cons p pieces ih =>
      rw [Outline.readAll, read_header (headers p List.mem_cons_self)]
      exact ih _ fun q member => headers q (List.mem_cons_of_mem _ member)

end Outline

end WasmFunclets
