import WasmFunclets.Proofs.Cutoff
import WasmFunclets.Proofs.Lasting

/-! Where the funclets of a body start, read off its lines, and what an iteration does that starts one. -/

namespace WasmFunclets

open Attempt
open Encoding (Piece join Split)

def Level.running? : Level → Option (Nat × Nat)
  | .plain => none
  | .region sketch funclet => some (sketch.offset, funclet)

namespace Outline

/-- The funclets at hand in the regions that are open, the innermost first. -/
def running (o : Outline) : List (Nat × Nat) := o.levels.filterMap Level.running?

/-- A line behind which a funclet runs that did not run in front of it. -/
structure Starts {bytes : List UInt8} (split : Split bytes) (front : List Piece) (p : Piece)
    (back : List Piece) (offset index : Nat) : Prop where
  whole : split.pieces = front ++ p :: back
  before : (offset, index) ∉ (Outline.start.readAll split.head.length front).running
  behind : (offset, index) ∈ (Outline.start.readAll split.head.length (front ++ [p])).running

variable {o : Outline} {place offset index : Nat} {line : Line} {sketch : Sketch}

theorem mem_running : (offset, index) ∈ o.running ↔
    ∃ sketch, sketch.offset = offset ∧ Level.region sketch index ∈ o.levels := by
  simp only [running, List.mem_filterMap]
  constructor
  · rintro ⟨level, member, same⟩
    cases level with
    | plain => cases same
    | region sketch funclet =>
        cases same
        exact ⟨sketch, rfl, member⟩
  · rintro ⟨sketch, rfl, member⟩
    exact ⟨_, member, rfl⟩

/-- A funclet at hand behind a line is the first one of its region, or was at hand in front of the line,
or the one before it was. -/
theorem levels_read {funclet : Nat}
    (member : Level.region sketch funclet ∈ (o.read place line).levels) :
    funclet = 0 ∨ ∃ i, Level.region sketch i ∈ o.levels ∧ funclet ≤ i + 1 := by
  have turn := read_turn o place line
  generalize o.read place line = next at member turn
  cases turn with
  | stays => exact .inr ⟨funclet, member, Nat.le_succ _⟩
  | enters =>
      rcases List.mem_cons.mp member with same | old
      · cases same
      · exact .inr ⟨funclet, old, Nat.le_succ _⟩
  | opens funclets =>
      rcases List.mem_cons.mp member with same | old
      · cases same
        exact .inl rfl
      · exact .inr ⟨funclet, old, Nat.le_succ _⟩
  | @goesOn sketch' before outer levels =>
      rcases List.mem_cons.mp member with same | old
      · cases same
        exact .inr ⟨before, levels ▸ List.mem_cons_self, Nat.le_refl _⟩
      · exact .inr ⟨funclet, levels ▸ List.mem_cons_of_mem _ old, Nat.le_succ _⟩
  | leaves levels | closes levels =>
      exact .inr ⟨funclet, levels ▸ List.mem_cons_of_mem _ member, Nat.le_succ _⟩

theorem closed_endFunclet (member : sketch ∈ o.endFunclet.closed) : sketch ∈ o.closed ∨
    ∃ funclet, Level.region sketch funclet ∈ o.levels ∧ sketch.funclets ≤ funclet + 1 := by
  unfold endFunclet at member
  split at member
  · rename_i sketch' funclet outer levels
    split at member
    · exact .inl member
    · rename_i last
      rcases List.mem_append.mp member with old | new
      · exact .inl old
      · obtain rfl := List.mem_singleton.mp new
        exact .inr ⟨funclet, levels ▸ List.mem_cons_self, Nat.le_of_not_lt last⟩
  · exact .inl member

theorem closed_read (member : sketch ∈ (o.read place line).closed) : sketch ∈ o.closed ∨
    ∃ funclet, Level.region sketch funclet ∈ o.levels ∧ sketch.funclets ≤ funclet + 1 := by
  unfold read at member
  split at member
  all_goals first
    | exact closed_endFunclet member
    | exact .inl member
    | skip
  unfold leave at member
  split at member
  · exact .inl member
  · exact closed_endFunclet member

theorem readAll_snoc (o : Outline) (place : Nat) (pieces : List Piece) (p : Piece) :
    o.readAll place (pieces ++ [p]) =
      (o.readAll place pieces).read (place + (join pieces).length) p.line :=
  readAll_append o place pieces [p]

def HasRun (place : Nat) (pieces : List Piece) (offset index : Nat) : Prop :=
  ∃ front, front <+: pieces ∧ (offset, index) ∈ (Outline.start.readAll place front).running

theorem HasRun.onward {pieces : List Piece} (ran : HasRun place pieces offset index)
    (more : List Piece) : HasRun place (pieces ++ more) offset index := by
  obtain ⟨front, before, runs⟩ := ran
  exact ⟨front, before.trans (List.prefix_append _ _), runs⟩

/-- Funclets run one after the other: those of an open region up to the one at hand, and all of a closed
one. -/
theorem hasRun_readAll (place : Nat) (pieces : List Piece) :
    (∀ sketch funclet, Level.region sketch funclet ∈ (Outline.start.readAll place pieces).levels →
      ∀ i ≤ funclet, HasRun place pieces sketch.offset i) ∧
    ∀ sketch ∈ (Outline.start.readAll place pieces).closed, ∀ i < sketch.funclets,
      HasRun place pieces sketch.offset i := by
  induction pieces using List.reverseRecOn with
  | nil =>
      refine ⟨fun sketch funclet member => ?_, fun sketch member => ?_⟩
      · simp [readAll, Outline.start] at member
      · simp [readAll, Outline.start] at member
  | append_singleton pieces p ih =>
      obtain ⟨inside, closed⟩ := ih
      constructor
      · intro sketch funclet member i le
        rcases Nat.lt_or_eq_of_le le with less | rfl
        · rw [readAll_snoc] at member
          rcases levels_read member with rfl | ⟨j, old, near⟩
          · exact absurd less (Nat.not_lt_zero _)
          · exact (inside sketch j old i (by omega)).onward [p]
        · exact ⟨pieces ++ [p], List.prefix_rfl, mem_running.mpr ⟨sketch, rfl, member⟩⟩
      · intro sketch member i less
        rw [readAll_snoc] at member
        rcases closed_read member with old | ⟨funclet, old, last⟩
        · exact (closed sketch old i less).onward [p]
        · exact (inside sketch funclet old i (by omega)).onward [p]

theorem HasRun.starts {bytes : List UInt8} {split : Split bytes}
    (ran : HasRun split.head.length split.pieces offset index) :
    ∃ front p back, Starts split front p back offset index := by
  obtain ⟨front, ⟨rest, whole⟩, runs⟩ := ran
  induction front using List.reverseRecOn generalizing rest with
  | nil => simp [readAll, Outline.start, running, Level.running?] at runs
  | append_singleton front p ih =>
      rw [List.append_assoc] at whole
      by_cases before : (offset, index) ∈ (Outline.start.readAll split.head.length front).running
      · exact ih before _ whole
      · exact ⟨front, p, rest, whole.symm, before, runs⟩

theorem Starts.no_header {bytes : List UInt8} {split : Split bytes} {front back : List Piece} {p : Piece}
    (starts : Starts split front p back offset index) : p.line.opcode ≠ Decode.funcletSig := by
  intro isHeader
  have behind := starts.behind
  rw [readAll_snoc, read_header isHeader] at behind
  exact starts.before behind

end Outline

namespace Validation

variable {setting : Setting} {context : Context} {bytes : List UInt8} {valid : ValidBody}
variable {s t u v : State} {o : Outline} {split : Split bytes} {front back : List Piece} {p : Piece}
variable {offset index : Nat}

theorem exists_starts (listed : Listed split valid) {r : Region} (member : r ∈ valid.regions)
    {f : Funclet} (funclet : f ∈ r.funclets) :
    ∃ front p back, Outline.Starts split front p back r.offset f.index := by
  obtain ⟨sketch, closed, records⟩ :=
    exists_of_forall₂ (List.Forall₂.flip listed.records) r (Array.mem_toList_iff.mpr member)
  have below : f.index ∈ List.range sketch.funclets :=
    records.funclets ▸ List.mem_map_of_mem funclet
  rw [records.offset]
  exact ((Outline.hasRun_readAll _ _).2 sketch closed _ (List.mem_range.mp below)).starts

theorem running_levelsOf {frames : List Frame} {regions : List OpenRegion}
    (count : regions.length = frames.countP fun frame => frame.construct = .region) :
    (levelsOf (layersOf frames regions)).filterMap Level.running? =
      regions.map fun r => (r.offset, r.graph.current) := by
  induction frames generalizing regions with
  | nil =>
      obtain rfl := List.length_eq_zero_iff.mp count
      rfl
  | cons frame frames ih =>
      by_cases isRegion : frame.construct = .region
      · cases regions with
        | nil => simp [isRegion] at count
        | cons r regions =>
            rw [layersOf_region isRegion, levelsOf, List.map_cons, ← ih (by simpa [isRegion] using count)]
            rfl
      · rw [layersOf_plain isRegion, levelsOf]
        rw [List.countP_cons_of_neg (by simpa using isRegion)] at count
        exact ih count

def running (regions : List OpenRegion) : List (Nat × Nat) :=
  regions.map fun r => (r.offset, r.graph.current)

theorem Drawn.running (drawn : Drawn s o) (framed : Framed s) : o.running = running s.regions := by
  rw [Outline.running, ← drawn.levels]
  exact running_levelsOf framed.count

theorem Drawn.distinct {place : Nat} (drawn : Drawn s o) (same : o.running = Validation.running s.regions)
    (sound : o.WellNested place) :
    (s.closed.toList.map Region.offset ++ s.regions.map OpenRegion.offset).Nodup := by
  have distinct := sound.distinct
  have closed : s.closed.toList.map Region.offset = o.closed.map Sketch.offset := by
    have each := drawn.closed
    generalize s.closed.toList = records, o.closed = sketches at each
    induction each with
    | nil => rfl
    | cons head _ ih => rw [List.map_cons, List.map_cons, ih, head.offset]
  have inside : s.regions.map OpenRegion.offset = o.inside.map Sketch.offset := by
    have offsets := congrArg (List.map Prod.fst) same
    rw [Validation.running, List.map_map, Outline.running, List.map_filterMap] at offsets
    rw [Outline.inside, List.map_filterMap]
    refine (offsets.symm.trans (List.filterMap_congr fun level _ => ?_))
    cases level <;> rfl
  rwa [List.map_append, ← closed, ← inside] at distinct

theorem Walked.drawn (walked : Walked setting split valid s t) (before : LineWalk setting s front u) :
    Drawn u (Outline.start.readAll split.head.length front) := by
  obtain ⟨_, _, _, _, _, _, drawn⟩ := openFunction_drawn walked.opened
  have here := before.drawn (fun _ => framed_of_openFunction walked.opened) drawn
  rwa [walked.offset] at here

theorem Walked.running (walked : Walked setting split valid s t) (before : LineWalk setting s front u) :
    (Outline.start.readAll split.head.length front).running = Validation.running u.regions := by
  have loose := (before.reached (.opened walked.opened)).loose
  have drawn := walked.drawn before
  by_cases closed : u.frames = []
  · rw [Outline.running, ← drawn.levels, frames_eq_nil.mp closed, loose.bottom closed]
    rfl
  · exact drawn.running (loose.framed closed)

theorem Walked.distinct (walked : Walked setting split valid s t) (before : LineWalk setting s front u) :
    (u.closed.toList.map Region.offset ++ u.regions.map OpenRegion.offset).Nodup :=
  (walked.drawn before).distinct (walked.running before) ((Outline.wellNested_start _).readAll front)

/-- Without a start of a funclet, only funclets run that ran before. -/
theorem partsKeep_running (ran : List (Nat × Nat)) : PartsKeep True (fun _ => True) fun regions _ =>
    ∀ r ∈ regions, r.graph.visited ≠ 0 → (r.offset, r.graph.current) ∈ ran := by
  have grown {r : OpenRegion} {outer : List OpenRegion} {g : FuncletCalls}
      (holds : ∀ q ∈ r :: outer, q.graph.visited ≠ 0 → (q.offset, q.graph.current) ∈ ran)
      (visited : g.visited = r.graph.visited) (current : g.current = r.graph.current) :
      ∀ q ∈ { r with graph := g } :: outer, q.graph.visited ≠ 0 →
        (q.offset, q.graph.current) ∈ ran := by
    intro q member started
    rcases List.mem_cons.mp member with rfl | old
    · rw [current]
      exact holds r List.mem_cons_self (visited ▸ started)
    · exact holds q (List.mem_cons_of_mem _ old) started
  constructor
  · intro r outer closed offset target args polymorphic last g _ _ holds ok
    obtain ⟨_, _, _, rfl, _⟩ := FuncletCalls.call_ok.mp ok
    exact grown holds rfl rfl
  · intro r outer closed index g holds ok
    obtain ⟨_, _, ⟨_, rfl⟩ | ⟨_, _, rfl⟩⟩ := FuncletCalls.markComplete_ok.mp ok
    · exact holds
    · exact grown holds rfl rfl
  · intro r regions closed funclets _ holds sized q member started
    rcases List.mem_cons.mp member with rfl | old
    · exact absurd (FuncletCalls.coherent_of_size sized).2.2.2.1 started
    · exact holds q old started
  · intro r record outer closed holds _ _ q member
    exact holds q (List.mem_cons_of_mem _ member)

/-- The innermost region goes on to the funclet that starts. -/
theorem startFunclet_regions (ok : startFunclet setting index s = .ok () t) : ∃ r outer g,
    s.regions = r :: outer ∧ t.regions = { r with graph := g } :: outer ∧ g.current = index ∧
      SameCalls r.graph.edges g.edges := by
  obtain ⟨u, header, d, params, v, entered, _, settled, began⟩ := startFunclet_reads.mp ok
  obtain ⟨r, outer, g, regions, enters, rfl⟩ := onGraph_ok.mp entered
  obtain ⟨_, rfl⟩ := FuncletCalls.enter_ok.mp enters
  -- The parameters are settled in the same funclet.
  obtain ⟨h, regions', current, calls⟩ : ∃ h, v.regions = { r with graph := h } :: outer ∧
      h.current = index ∧ SameCalls r.graph.edges h.edges := by
    have declares {types : List ValueType} {declared : Nat} {explicit : Bool} {w x : State} {g : FuncletCalls}
        (here : w.regions = { r with graph := g } :: outer) (current : g.current = index)
        (ok : onGraph (FuncletCalls.declare index types declared explicit) w = .ok () x)
        (calls : g.edges = r.graph.edges) :
        ∃ h, x.regions = { r with graph := h } :: outer ∧ h.current = index ∧
          SameCalls r.graph.edges h.edges := by
      obtain ⟨_, _, h, same, changed, rfl⟩ := onGraph_ok.mp ok
      obtain ⟨rfl, rfl⟩ := List.cons.inj (here.symm.trans same)
      obtain ⟨_, _, awaits, rfl⟩ := FuncletCalls.declare_ok.mp changed
      exact ⟨_, rfl, current, calls ▸ awaits.same⟩
    cases header with
    | some header =>
        obtain ⟨_, _, declared, done⟩ := bind_ok.mp settled
        obtain ⟨_, rfl⟩ := pure_ok.mp done
        exact declares rfl rfl declared (by rfl)
    | none =>
        unfold settleFunclet at settled
        dsimp only at settled
        split at settled
        · obtain ⟨_, _, declared, done⟩ := bind_ok.mp settled
          obtain ⟨_, rfl⟩ := pure_ok.mp done
          exact declares rfl rfl declared (by rfl)
        · obtain ⟨_, _, h, same, changed, rfl⟩ := onGraph_ok.mp settled
          obtain ⟨rfl, rfl⟩ := List.cons.inj same
          obtain ⟨_, _, _, awaits, _, _, rfl⟩ := FuncletCalls.infer_ok.mp changed
          exact ⟨_, rfl, rfl, awaits.same⟩
  obtain ⟨-, -, same | ⟨q, rest, k, same, marked, last⟩⟩ := beginFunclet_regions began
  · exact ⟨r, outer, h, regions, same.trans regions', current, calls⟩
  · obtain ⟨rfl, rfl⟩ := List.cons.inj (same.symm.trans regions')
    refine ⟨r, _, k, regions, last, ?_⟩
    obtain ⟨_, _, ⟨_, rfl⟩ | ⟨_, _, rfl⟩⟩ := FuncletCalls.markComplete_ok.mp marked
    · exact ⟨current, calls⟩
    · exact ⟨current, calls⟩

/-- An iteration behind which a funclet runs that did not run before it starts the funclet, in the
innermost region; up to the start it keeps what instructions keep. -/
theorem starting_of_running (ok : step setting u = .ok () v)
    (settled : ∀ r ∈ v.regions, r.graph.visited ≠ 0)
    (before : (offset, index) ∉ running u.regions) (behind : (offset, index) ∈ running v.regions) :
    ∃ i c w r outer, Starting setting u i c index w ∧ w.regions = r :: outer ∧ r.offset = offset ∧
      ∀ place I, PartsKeep True place I → place u.cursor.offset → I u.regions u.closed →
        w.start = u.cursor.offset ∧ I w.regions w.closed := by
  obtain ⟨i, c, decoded, executed⟩ := step_ok_iff.mp ok
  obtain ⟨lead, made, allowed, same⟩ := execute_startsLast i
  have blind : Blind lead := made.of_all blind_parts
  rw [show execute setting i = _ from same setting] at executed
  obtain ⟨start, w, led, started⟩ := bind_ok.mp executed
  have keeps (place : Nat → Prop) (I : List OpenRegion → Array Region → Prop) (lasts : PartsKeep True place I)
      (here : place u.cursor.offset) (holds : I u.regions u.closed) :
      w.start = u.cursor.offset ∧ I w.regions w.closed :=
    made.of_all lasts.parts (u.fetched c) start w here holds led
  have old := (keeps _ _ (partsKeep_running (running u.regions)) trivial fun r member _ =>
    List.mem_map_of_mem member).2
  obtain ⟨r, member, same'⟩ := List.mem_map.mp behind
  cases same'
  cases start with
  | none =>
      obtain ⟨-, rfl⟩ := pure_ok.mp started
      exact absurd (old r member (settled r member)) before
  | some k =>
      obtain ⟨q, outer, g, regions, regions', current, _⟩ := startFunclet_regions started
      rw [regions'] at member
      rcases List.mem_cons.mp member with rfl | around
      · subst current
        refine ⟨i, c, w, q, outer, ⟨decoded, ?_, blind.cursor led, blind.decoded led, fun other d n => ?_⟩,
          regions, rfl, keeps⟩
        · simpa using allowed _ _ _ led
        · rw [show execute other i = _ from same other]
          simp only [bind, EStateM.bind, blind.of_ok led d n]
          rfl
      · refine absurd (old r (regions ▸ List.mem_cons_of_mem _ around) ?_) before
        exact settled r (regions' ▸ List.mem_cons_of_mem _ around)

/-- Behind a line that starts a funclet the header of the funclet is taken up, too, if there is one. -/
structure Passage (setting : Setting) (s : State) (front : List Piece) (p : Piece) (header : Option Piece)
    (rest : List Piece) (u v t : State) : Prop where
  before : LineWalk setting s front u
  isOpen : u.control ≠ #[]
  ok : step setting u = .ok () v
  isHeader : ∀ h ∈ header, h.line.opcode = Decode.funcletSig
  first : Consumes (p :: header.toList) u v
  behind : LineWalk setting v rest t

theorem LineWalk.passage (walk : LineWalk setting s (front ++ p :: back) t)
    (line : p.line.opcode ≠ Decode.funcletSig) : ∃ header rest u v, back = header.toList ++ rest ∧
      Passage setting s front p header rest u v t := by
  rcases walk.cut with ⟨u, before, behind⟩ | ⟨u, v, _, _, q, _, _, same, _, _, _, isHeader, _⟩
  · generalize whole : p :: back = lines at behind
    cases behind with
    | here => cases whole
    | @step _ v _ q header rest isOpen ok isHeader first later =>
        obtain ⟨rfl, rfl⟩ := List.cons.inj whole
        exact ⟨header, rest, u, v, rfl, before, isOpen, ok, isHeader, first, later⟩
  · obtain ⟨rfl, rfl⟩ := List.cons.inj same
    exact absurd isHeader line

namespace Passage

variable {header : Option Piece} {rest : List Piece}

theorem walk (passage : Passage setting s front p header rest u v t) :
    LineWalk setting s (front ++ p :: header.toList) v := by
  have one : LineWalk setting u (p :: header.toList ++ []) v :=
    .step passage.isOpen passage.ok passage.isHeader passage.first (.here v)
  rw [List.append_nil] at one
  exact passage.before.append one

theorem unread (passage : Passage setting s front p header rest u v t) (o : Outline) (place : Nat) :
    o.readAll place (front ++ p :: header.toList) = o.readAll place (front ++ [p]) := by
  rw [show front ++ p :: header.toList = (front ++ [p]) ++ header.toList by simp, Outline.readAll_append]
  exact Outline.readAll_headers _ _ (by simpa using passage.isHeader)

end Passage

/-- The line of a body that starts a funclet, and what the iteration does that takes it up. -/
theorem Walked.starting (walked : Walked setting split valid s t)
    (starts : Outline.Starts split front p back offset index) :
    ∃ header rest u v i c w r outer, back = header.toList ++ rest ∧
      Passage setting s front p header rest u v t ∧ Starting setting u i c index w ∧
        w.regions = r :: outer ∧ r.offset = offset ∧
          ∀ place I, PartsKeep True place I → place u.cursor.offset → I u.regions u.closed →
            w.start = u.cursor.offset ∧ I w.regions w.closed := by
  have walk := walked.walk
  rw [starts.whole] at walk
  obtain ⟨header, rest, u, v, whole, passage⟩ := walk.passage starts.no_header
  have before := starts.before
  have behind := starts.behind
  rw [walked.running passage.before] at before
  rw [← passage.unread, walked.running passage.walk] at behind
  have loose := (passage.walk.reached (.opened walked.opened)).loose
  have isOpen : v.frames ≠ [] := by
    intro closed
    rw [loose.bottom closed] at behind
    cases behind
  have settled : ∀ r ∈ v.regions, r.graph.visited ≠ 0 := fun r member =>
    Nat.ne_of_gt ((loose.framed isOpen).settled r member).visited_pos
  obtain ⟨i, c, w, r, outer, starting, regions, place, keeps⟩ :=
    starting_of_running passage.ok settled before behind
  exact ⟨header, rest, u, v, i, c, w, r, outer, whole, passage, starting, regions, place, keeps⟩

end Validation

end WasmFunclets
