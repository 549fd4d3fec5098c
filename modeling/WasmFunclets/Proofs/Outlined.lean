import Mathlib.Algebra.Ring.Nat
import WasmFunclets.Proofs.Encoding.Outline
import WasmFunclets.Proofs.Onward

/-! A validation follows the outline of its body, and records the regions in the order in which they
end. -/

namespace WasmFunclets.Validation

open Attempt
open Encoding (Piece join Split)

variable {setting : Setting} {context : Context} {bytes : List UInt8} {s t : State} {o : Outline}
variable {i : Instruction} {place : Nat}

def Layer.level (l : Layer) (outer : List Level) : Level :=
  match l.region with
  | none => .plain
  | some r =>
      .region ⟨r.offset, r.depth, r.graph.size, (outer.filterMap Level.sketch?).map Sketch.offset⟩
        r.graph.current

def levelsOf : List Layer → List Level
  | [] => []
  | l :: outer => l.level (levelsOf outer) :: levelsOf outer

theorem nest_level (l : Layer) (outer : List Level) : (l.level outer).nest = l.nest := by
  unfold Layer.level Layer.nest
  cases l.region <;> rfl

theorem nests_levelsOf (layers : List Layer) :
    (levelsOf layers).map Level.nest = layers.map Layer.nest := by
  induction layers with
  | nil => rfl
  | cons l outer ih => rw [levelsOf, List.map_cons, List.map_cons, nest_level, ih]

theorem length_levelsOf (layers : List Layer) : (levelsOf layers).length = layers.length := by
  have lengths := congrArg List.length (nests_levelsOf layers)
  rwa [List.length_map, List.length_map] at lengths

theorem levelsOf_callsAdded {layers later : List Layer}
    (steady : List.Forall₂ Layer.CallsAdded layers later) : levelsOf later = levelsOf layers := by
  induction steady with
  | nil => rfl
  | @cons l m _ _ same _ ih =>
      have regions := same.region
      have head (outer : List Level) : m.level outer = l.level outer := by
        unfold Layer.level
        revert regions
        cases l.region <;> cases m.region <;> intro regions <;> cases regions
        · rfl
        · rename_i r q steady
          have keep := steady.keeps.size_eq
          have current := steady.current
          rw [steady.same]
          simp only [keep, current]
      rw [levelsOf, levelsOf, ih, head]

/-- The record of a region, with its funclets numbered from 0 on. -/
structure Records (r : Region) (sketch : Sketch) : Prop where
  offset : r.offset = sketch.offset
  depth : r.depth = sketch.depth
  funclets : r.funclets.map Funclet.index = List.range sketch.funclets

theorem records_of_later {r q : OpenRegion} {entry : Region} (later : r.Later q)
    (yields : OpenRegion.RecordedAs q entry) (around : List Nat) :
    Records entry ⟨r.offset, r.depth, r.graph.size, around⟩ := by
  have size : q.graph.size = r.graph.size := later.keeps.size_eq
  refine ⟨by rw [yields.offset, later.same], by rw [yields.depth, later.same], ?_⟩
  have each : List.Forall₂ (fun index funclet => index = funclet.index) (List.range r.graph.size)
      entry.funclets := by
    rw [← size]
    refine yields.funclets.imp ?_
    rintro index _ ⟨_, _, _, _, _, _, rfl⟩
    rfl
  have indices := List.forall₂_map_right_iff.mpr each
  rw [List.forall₂_eq_eq_eq] at indices
  exact indices.symm

structure Drawn (s : State) (o : Outline) : Prop where
  levels : levelsOf s.layers = o.levels
  closed : List.Forall₂ Records s.closed.toList o.closed

theorem Drawn.nests (drawn : Drawn s o) : o.nests = s.nests := by
  rw [Outline.nests, ← drawn.levels, nests_levelsOf, State.nests]

/-- An instruction does to the layers what its line does to the outline. -/
theorem Drawn.turn {next : Outline} (drawn : Drawn s o) (framed : Framed s) (shift : Shift s i t)
    (turn : o.Turn s.start next) (same : next.nests = t.nests) : Drawn t next := by
  have nests : next.nests = (levelsOf t.layers).map Level.nest :=
    same.trans (nests_levelsOf _).symm
  -- A step opens, changes or leaves the innermost layer, and the line does the same to the outline.
  cases shift with
  | stays quiet other =>
      have levels := levelsOf_callsAdded quiet.layers
      obtain rfl := turn.of_same (nests.trans (by rw [levels, drawn.levels]; rfl))
      exact ⟨levels.trans drawn.levels, quiet.closed ▸ drawn.closed⟩
  | opens l layers starts inside closed regions region deep =>
      rw [layers, levelsOf, List.map_cons, nest_level, drawn.levels] at nests
      have levels : levelsOf t.layers = l.level o.levels :: o.levels := by
        rw [layers, levelsOf, drawn.levels]
      have still := closed ▸ drawn.closed
      cases opened : l.region with
      | none =>
          rcases turn.of_cons nests with ⟨_, rfl⟩ | ⟨_, head, _⟩
          · exact ⟨levels.trans (by simp [Layer.level, opened, Outline.enter]), still⟩
          · simp [Layer.nest, opened] at head
      | some r =>
          obtain ⟨start, _, first, _⟩ := region r opened
          have depth : r.depth = o.levels.length := by
            rw [deep r opened, ← drawn.levels, length_levelsOf, s.layers_length]
          rcases turn.of_cons nests with ⟨head, _⟩ | ⟨funclets, head, rfl⟩
          · simp [Layer.nest, opened] at head
          · simp only [Layer.nest, opened, Nest.region.injEq] at head
            refine ⟨levels.trans ?_, still⟩
            simp only [Layer.level, opened, Outline.enterRegion, start, depth, head, Outline.inside]
  | turns l m outer before layers condition params isIf isElse starts closed =>
      have levels : levelsOf t.layers = levelsOf s.layers := by
        rw [layers, before, levelsOf, levelsOf, isElse]
        rfl
      obtain rfl := turn.of_same (nests.trans (by rw [levels, drawn.levels]; rfl))
      exact ⟨levels.trans drawn.levels, closed ▸ drawn.closed⟩
  | goesOn l m outer before layers r q region frame later settled _ current _ _ _ _ closed =>
      have levels := drawn.levels
      rw [before, levelsOf, Layer.level, region] at levels
      have after : levelsOf t.layers = .region ⟨r.offset, r.depth, r.graph.size,
          ((levelsOf outer).filterMap Level.sketch?).map Sketch.offset⟩ (r.graph.current + 1) ::
            levelsOf outer := by
        have size := later.keeps.size_eq
        rw [layers, levelsOf, frame, Layer.level]
        dsimp only
        rw [current, size, later.same]
      obtain rfl := turn.of_next levels.symm (nests.trans (congrArg _ after))
      exact ⟨after, closed ▸ drawn.closed⟩
  | closes l parent outer before layers _ _ _ _ _ record =>
      have levels := drawn.levels
      rw [before, levelsOf] at levels
      obtain rfl := turn.of_tail levels.symm (nests.trans (congrArg _ (congrArg _ layers)))
      refine ⟨congrArg _ layers, ?_⟩
      cases region : l.region with
      | none =>
          rw [region] at record
          rw [record.1]
          simpa [Layer.level, region, Level.sketch?] using drawn.closed
      | some r =>
          rw [region] at record
          obtain ⟨q, later, _, _, _, entry, yields, closed⟩ := record
          rw [closed, Array.toList_push]
          simp only [Layer.level, region, Level.sketch?, Option.toList_some]
          exact List.rel_append drawn.closed (.cons (records_of_later later yields _) .nil)
  | ends l before control closed plain =>
      have empty : t.layers = [] := by simp [State.layers, State.frames, control, layersOf]
      have levels := drawn.levels
      rw [before, levelsOf] at levels
      obtain rfl := turn.of_tail levels.symm (nests.trans (congrArg _ (congrArg _ empty)))
      have region : l.region = none := by
        have nested := before ▸ framed.nested
        cases nested with
        | function _ _ _ region => exact region
      refine ⟨congrArg _ empty, ?_⟩
      rw [closed]
      simpa [Layer.level, region, Level.sketch?] using drawn.closed

theorem step_drawn (framed : Framed s) (drawn : Drawn s o) (ok : step setting s = .ok () t) :
    ∃ pieces, Consumes pieces s t ∧ Drawn t (o.readAll s.cursor.offset pieces) := by
  obtain ⟨p, header, i, c, _, found, executed, _, isHeader, consumes⟩ := step_consumes ok
  have moves := execute_moves (framed.fetched c) executed
  refine ⟨p :: header.toList, consumes, ?_⟩
  rw [Outline.readAll, Outline.readAll_headers _ _ (by simpa using isHeader)]
  have before : Drawn (s.fetched c) o := ⟨drawn.levels, drawn.closed⟩
  refine before.turn (framed.fetched c) moves.shift (Outline.read_turn _ _ _) ?_
  rw [Outline.nests_read found, before.nests, moves.nests]

theorem run_drawn {fuel : Nat} (framed : s.control ≠ #[] → Framed s) (drawn : Drawn s o)
    (ok : run setting fuel s = .ok () t) :
    ∃ pieces, Consumes pieces s t ∧ Drawn t (o.readAll s.cursor.offset pieces) ∧
      t.control = #[] := by
  induction fuel generalizing s o with
  | zero => cases violate_ok.mp ok
  | succ fuel ih =>
      rw [run, get_bind_ok] at ok
      split at ok
      · rename_i closed
        obtain ⟨_, rfl⟩ := pure_ok.mp ok
        exact ⟨[], .of_eq rfl rfl, drawn, Array.isEmpty_iff.mp closed⟩
      · rename_i isOpen
        obtain ⟨_, u, stepped, ok⟩ := bind_ok.mp ok
        have here := framed fun closed => isOpen (Array.isEmpty_iff.mpr closed)
        obtain ⟨pieces, consumes, drawn⟩ := step_drawn here drawn stepped
        obtain ⟨more, consumes', drawn', closed⟩ := ih (here.step stepped) drawn ok
        refine ⟨pieces ++ more, consumes.trans consumes', ?_, closed⟩
        rwa [Outline.readAll_append, ← consumes.offset]

theorem openFunction_drawn (ok : openFunction context (initial bytes) = .ok () s) :
    ∃ runs head, Encoding.OfLocals runs head ∧ bytes = head ++ s.cursor.rest ∧
      s.cursor.offset = head.length ∧ s.decoded = 0 ∧ Drawn s .start := by
  obtain ⟨exit, cursor, _, _, regions, closed, control⟩ := openFunction_ok ok
  have drawn : Drawn s .start := by
    have layers := layers_of_openFunction control rfl
    refine ⟨by rw [layers]; rfl, ?_⟩
    rw [closed]
    exact .nil
  simp only [openFunction, bind_ok, onCursor_ok, modify_ok, newTarget_ok, pushFrame_ok] at ok
  obtain ⟨types, _, ⟨cursor, declared, rfl⟩, _, _, rfl, exit, _, ⟨b, made, rfl⟩, _, _, rfl, rfl⟩ := ok
  obtain ⟨head, ⟨runs, written, _⟩, split, offset⟩ :=
    (Decode.locals_parses _ _ _ _).mp declared
  exact ⟨runs, head, written, split, offset.trans (Nat.zero_add _), rfl, drawn⟩

theorem tally_eq (valid : ValidBody) (count : Region → Nat) :
    valid.tally count = (valid.regions.toList.map count).sum % 4294967296 := by
  have each (regions : List Region) (n : Nat) :
      regions.foldl (fun n r => (n + count r) % 4294967296) (n % 4294967296) =
        (n + (regions.map count).sum) % 4294967296 := by
    induction regions generalizing n with
    | nil => rfl
    | cons r regions ih =>
        rw [List.foldl_cons, Nat.mod_add_mod, ih, List.map_cons, List.sum_cons, Nat.add_assoc]
  rw [ValidBody.tally, ← Array.foldl_toList]
  simpa using each valid.regions.toList 0

/-- The statistics of a body are sums over its regions, in 32 bits. -/
structure Statistics (valid : ValidBody) : Prop where
  regions : valid.regionCount = valid.regions.size % 2 ^ 32
  funclets : valid.funcletCount =
    (valid.regions.toList.map fun r => r.funclets.length).sum % 2 ^ 32
  edges : valid.edgeCount = (valid.regions.toList.map fun r => r.edges.size).sum % 2 ^ 32

theorem statistics (valid : ValidBody) : Statistics valid := ⟨rfl, tally_eq valid _, tally_eq valid _⟩

def outlineOf (split : Split bytes) : Outline :=
  Outline.start.readAll split.head.length split.pieces

/-- What is recorded of a body agrees with its lines: the number of instructions, and one record for
each line that opens a region, those of inner regions in front of those around them. -/
structure Listed (split : Split bytes) (valid : ValidBody) : Prop where
  instructions : valid.instructions = split.pieces.length
  declared : (outlineOf split).opened.map (fun k => (k.offset, k.funclets)) =
    Outline.declared split.head.length split.pieces
  once : (outlineOf split).opened.Perm (outlineOf split).closed
  records : List.Forall₂ Records valid.regions.toList (outlineOf split).closed
  order : (outlineOf split).closed.Pairwise fun a b => a.offset ∉ b.around

theorem listed_of_valid {valid : ValidBody} (accepted : validateWith setting bytes = .ok valid) :
    ∃ split : Split bytes, Listed split valid := by
  obtain ⟨s, t, opened, ran, empty, rfl⟩ := validateWith_ok_iff.mp accepted
  obtain ⟨runs, head, written, whole, offset, decoded, drawn⟩ := openFunction_drawn opened
  obtain ⟨pieces, consumes, drawn, closed⟩ :=
    run_drawn (fun _ => framed_of_openFunction opened) drawn ran
  have nothing : t.cursor.rest = [] := List.isEmpty_iff.mp empty
  rw [consumes.rest, nothing, List.append_nil] at whole
  have sound := (Outline.wellNested_start head.length).readAll pieces
  rw [offset] at drawn
  refine ⟨⟨head, runs, pieces, written, whole⟩, ?_, ?_, ?_, drawn.closed, sound.order⟩
  · change t.decoded = pieces.length
    rw [consumes.decoded, decoded, Nat.zero_add]
  · exact (Outline.opened_readAll _ _ _).trans (List.nil_append _)
  · have levels : (Outline.start.readAll head.length pieces).levels = [] := by
      rw [← drawn.levels, State.layers, State.frames, closed]
      rfl
    have once := sound.once
    rwa [Outline.inside, levels, List.filterMap_nil, List.append_nil] at once

/-- A validation is a single pass: the iteration that begins behind n others is at most the last one
that the bytes allow, and no cursor leaves the body or turns back. -/
structure SinglePass (setting : Setting) (bytes : List UInt8) : Prop where
  few : ∀ n s, Iterates setting bytes n s → n < bytes.length
  stops : ∀ s, openFunction setting.context (initial bytes) = .ok () s → ∀ more,
    run setting (bytes.length + more) s = run setting bytes.length s ∧
      ∀ t, run setting bytes.length s ≠ .error (.broken .stepsExhausted) t
  opening : Ends (openFunction setting.context) (initial bytes)
    (fun _ s => WithinBody bytes s.cursor) fun _ s => WithinBody bytes s.cursor
  onward : ∀ n s, Iterates setting bytes n s → Ends (step setting) s
    (fun _ t => s.cursor.offset < t.cursor.offset ∧ WithinBody bytes t.cursor)
    fun _ t => s.cursor.offset ≤ t.cursor.offset ∧ WithinBody bytes t.cursor
  reads : ∀ c d byte, WithinBody bytes c → Cursor.next c = .ok byte d → bytes[c.offset]? = some byte

theorem singlePass (setting : Setting) (bytes : List UInt8) : SinglePass setting bytes where
  few _ _ iterates := iterates.few
  stops s ok more := (Iterates.opened ok).run (Nat.le_of_eq (Nat.zero_add _).symm)
  opening := (openFunction_onward setting.context bytes).mono (fun _ _ both => both.1) fun _ _ => id
  onward n s iterates := by
    have inside := iterates.withinBody.1
    exact (step_onward setting s).mono (fun _ t both => ⟨both.2, inside.behind both.1⟩)
      fun _ t behind => ⟨behind.onward, inside.behind behind⟩
  reads c d byte inside ok := inside.next ok

/-- Each body is read in a single pass, and one that is accepted is, in just one way, local
declarations and complete lines behind them, which the records agree with. -/
theorem reads_lines (context : Context) (bytes : List UInt8) :
    SinglePass ⟨context, true⟩ bytes ∧
      ∀ valid, validate context bytes = .ok valid → Statistics valid ∧
        ∃ split : Split bytes, (∀ other, other = split) ∧ Listed split valid := by
  refine ⟨singlePass _ bytes, fun valid accepted => ⟨statistics valid, ?_⟩⟩
  obtain ⟨split, listed⟩ := listed_of_valid accepted
  exact ⟨split, fun other => other.unique split, listed⟩

theorem reads_lines_twoFunclets : ∃ valid, validate unaryContext twoFunclets = .ok valid ∧
    ∃ split : Split twoFunclets, Listed split valid := by
  obtain ⟨valid, accepted⟩ := twoFunclets_valid
  obtain ⟨_, split, _, listed⟩ := (reads_lines unaryContext twoFunclets).2 valid accepted
  exact ⟨valid, accepted, split, listed⟩

end WasmFunclets.Validation
