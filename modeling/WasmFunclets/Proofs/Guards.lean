import WasmFunclets.Proofs.Aligned.Reached
import WasmFunclets.Proofs.Encoding.Readers
import WasmFunclets.Proofs.Parts

/-! The early checks of counts. They decide nothing, since what a count announces takes up at least a
byte each before the body ends, and they keep what is set up for a count within the bytes behind it. -/

namespace WasmFunclets.Validation

open Attempt

variable {σ τ setting : Setting} {context : Context} {bytes : List UInt8} {s t : State}

section SucceedsLike

variable {α β : Type}

def SucceedsLike (m n : Step α) : Prop := ∀ s a t, m s = .ok a t ↔ n s = .ok a t

theorem succeedsLike_refl (m : Step α) : SucceedsLike m m := fun _ _ _ => .rfl

theorem succeedsLike_bind {m n : Step α} {f g : α → Step β} (first : SucceedsLike m n)
    (rest : ∀ a, SucceedsLike (f a) (g a)) : SucceedsLike (m >>= f) (n >>= g) := by
  intro s b u
  simp only [bind_ok, first s, fun a t => rest a t b u]

theorem succeedsLike_onward {m : Step α} {f g : α → Step β} (rest : ∀ a, SucceedsLike (f a) (g a)) :
    SucceedsLike (m >>= f) (m >>= g) := succeedsLike_bind (succeedsLike_refl m) rest

end SucceedsLike

theorem funcletHeader_ok_iff {header : Option Decode.FuncletHeader} {c d : Cursor} :
    Decode.funcletHeader σ c = .ok header d ↔ Decode.funcletHeader τ c = .ok header d := by
  cases header with
  | none => rw [Decode.funcletHeader_none, Decode.funcletHeader_none]
  | some header => rw [Decode.funcletHeader_some, Decode.funcletHeader_some]

theorem funcletParams_succeedsLike (σ τ : Setting) (index : Nat) :
    SucceedsLike (funcletParams σ index) (funcletParams τ index) := by
  refine succeedsLike_bind (fun s header t => ?_) fun header => succeedsLike_refl _
  rw [onCursor_ok, onCursor_ok]
  exact exists_congr fun d => and_congr_left fun _ => funcletHeader_ok_iff

theorem startFunclet_succeedsLike (σ τ : Setting) (index : Nat) :
    SucceedsLike (startFunclet σ index) (startFunclet τ index) :=
  succeedsLike_onward fun _ => succeedsLike_onward fun _ =>
    succeedsLike_bind (funcletParams_succeedsLike σ τ index) fun _ => succeedsLike_refl _

theorem execute_succeedsLike (σ τ : Setting) (i : Instruction) : SucceedsLike (execute σ i) (execute τ i) := by
  obtain ⟨lead, _, _, same⟩ := execute_startsLast i
  rw [show execute σ i = _ from same σ, show execute τ i = _ from same τ]
  refine succeedsLike_onward fun start => ?_
  cases start with
  | none => exact succeedsLike_refl _
  | some index => exact startFunclet_succeedsLike σ τ index

def unfinished : List Nest → Nat
  | [] => 0
  | .plain :: outer => unfinished outer
  | .region funclet funclets :: outer => funclets - funclet + unfinished outer

theorem unfinished_nextFunclet (funclet funclets : Nat) (outer : List Nest) :
    unfinished (.region funclet funclets :: outer) ≤
      unfinished (Nest.nextFunclet funclet funclets outer) + 1 := by
  unfold Nest.nextFunclet
  split <;> simp only [unfinished] <;> omega

theorem unfinished_advance (nest : List Nest) (i : Instruction) :
    unfinished nest ≤ unfinished (Nest.advance nest i) + 1 := by
  unfold Nest.advance
  split <;> first
    | exact unfinished_nextFunclet _ _ _
    | exact Nat.le_succ _
    | simp only [unfinished]; omega

theorem nests_eq_nil (closed : s.control = #[]) : s.nests = [] := by
  simp [State.nests, State.layers, State.frames, closed, layersOf]

theorem control_eq_nil (empty : s.layers = []) : s.control = #[] := by
  have size := s.layers_length
  rw [empty] at size
  exact Array.eq_empty_of_size_eq_zero size.symm

theorem fetch_of_decoded {i : Instruction} {c : Cursor}
    (decoded : Decode.instruction (scopeOf setting s) s.cursor = .ok i c) :
    fetch setting s = .ok i { s with start := s.cursor.offset, cursor := c } := by
  have some_ : s.cursor.isEmpty = false := by
    obtain ⟨⟨e, written, split, _⟩, _⟩ := Decode.instruction_ok.mp decoded
    rw [Cursor.isEmpty, split]
    cases e with
    | nil => exact absurd written Decode.not_ofInstruction_nil
    | cons => rfl
  simp only [fetch, scope, bind_ok, modify_ok, get_ok, require_ok, onCursor_ok, pure_ok]
  exact ⟨(), _, rfl, _, _, ⟨rfl, rfl⟩, (), _, ⟨by simp [some_], rfl⟩, scopeOf setting s, _,
    ⟨_, _, ⟨rfl, rfl⟩, rfl, rfl⟩, c, decoded, rfl⟩

theorem step_ok_iff : step setting s = .ok () t ↔ ∃ i c,
    Decode.instruction (scopeOf setting s) s.cursor = .ok i c ∧
      execute setting i (s.fetched c) = .ok () t := by
  constructor
  · intro ok
    obtain ⟨i, u, fetched, executed⟩ := step_ok ok
    obtain ⟨c, rfl, decoded⟩ := fetch_ok fetched
    exact ⟨i, c, decoded, executed⟩
  · rintro ⟨i, c, decoded, executed⟩
    rw [step_eq]
    exact bind_ok.mpr ⟨i, _, fetch_of_decoded decoded, bind_ok.mpr ⟨(), _, modify_ok.mpr rfl, executed⟩⟩

theorem ends_step {Q : Unit → State → Prop} {E : Fault → State → Prop} {i : Instruction} {c : Cursor}
    (decoded : Decode.instruction (scopeOf setting s) s.cursor = .ok i c)
    (ends : Ends (execute setting i) (s.fetched c) Q E) : Ends (step setting) s Q E := by
  rw [step_eq]
  exact ends_bind_of_ok (fetch_of_decoded decoded) (ends_bind.mpr (ends_modify.mpr ends))

theorem instruction_lax {i : Instruction} {c d : Cursor} :
    Decode.instruction (scopeOf ⟨context, true⟩ s) c = .ok i d ↔
      Decode.instruction (scopeOf ⟨context, false⟩ s) c = .ok i d ∧
        ∀ signature n, i = .funcletRegion signature n → n ≤ d.rest.length := by
  rw [Decode.instruction_ok, Decode.instruction_ok]
  have free : Decode.FuncletsBounded (scopeOf ⟨context, false⟩ s).setting i d.rest := nofun
  have bound : Decode.FuncletsBounded (scopeOf ⟨context, true⟩ s).setting i d.rest ↔
      ∀ signature n, i = .funcletRegion signature n → n ≤ d.rest.length := forall_prop_of_true rfl
  rw [bound, and_iff_left free]
  rfl

theorem step_of_strict (ok : step ⟨context, true⟩ s = .ok () t) :
    step ⟨context, false⟩ s = .ok () t := by
  obtain ⟨i, c, decoded, executed⟩ := step_ok_iff.mp ok
  exact step_ok_iff.mpr
    ⟨i, c, (instruction_lax.mp decoded).1, (execute_succeedsLike _ _ i _ _ _).mp executed⟩

theorem unfinished_step (framed : Framed s) (ok : step setting s = .ok () t) :
    unfinished s.nests ≤ unfinished t.nests + 1 := by
  obtain ⟨i, c, _, executed⟩ := step_ok_iff.mp ok
  rw [(execute_moves (framed.fetched c) executed).nests]
  exact unfinished_advance s.nests i

theorem step_unfinished (framed : Framed s) (ok : step ⟨context, false⟩ s = .ok () t)
    (left : unfinished t.nests ≤ t.cursor.rest.length) :
    unfinished s.nests ≤ s.cursor.rest.length ∧ step ⟨context, true⟩ s = .ok () t := by
  obtain ⟨i, c, decoded, executed⟩ := step_ok_iff.mp ok
  have moves := execute_moves (framed.fetched c) executed
  obtain ⟨behind, further⟩ := (Decode.instruction_consumes _ _).of_ok decoded
  have nests : t.nests = Nest.advance s.nests i := moves.nests
  have rest := moves.cursor.total
  have onward := moves.cursor.onward
  have total := behind.total
  change c.offset ≤ t.cursor.offset at onward
  change t.cursor.offset + t.cursor.rest.length = c.offset + c.rest.length at rest
  have fewer := unfinished_advance s.nests i
  rw [nests] at left
  refine ⟨by omega, step_ok_iff.mpr ⟨i, c, instruction_lax.mpr ⟨decoded, ?_⟩,
    (execute_succeedsLike _ _ i _ _ _).mp executed⟩⟩
  rintro signature n rfl
  have ahead : unfinished (Nest.advance s.nests (.funcletRegion signature n)) =
      n + unfinished s.nests := by simp [Nest.advance, unfinished]
  omega

theorem run_of_strict {fuel : Nat} (ok : run ⟨context, true⟩ fuel s = .ok () t) :
    run ⟨context, false⟩ fuel s = .ok () t := by
  induction fuel generalizing s with
  | zero => cases violate_ok.mp ok
  | succ fuel ih =>
      rw [run, get_bind_ok] at ok ⊢
      split
      · rwa [if_pos ‹_›] at ok
      · rw [if_neg ‹_›] at ok
        obtain ⟨_, u, stepped, ok⟩ := bind_ok.mp ok
        exact bind_ok.mpr ⟨(), u, step_of_strict stepped, ih ok⟩

theorem Framed.step (framed : Framed s) (ok : step setting s = .ok () t) (isOpen : t.control ≠ #[]) :
    Framed t := by
  obtain ⟨i, c, _, executed⟩ := step_ok_iff.mp ok
  refine (execute_moves (framed.fetched c) executed).shift.framed (framed.fetched c) fun empty => ?_
  exact isOpen (control_eq_nil empty)

theorem run_strict {fuel : Nat} (framed : s.control ≠ #[] → Framed s)
    (ok : run ⟨context, false⟩ fuel s = .ok () t) :
    unfinished s.nests ≤ s.cursor.rest.length ∧ run ⟨context, true⟩ fuel s = .ok () t := by
  induction fuel generalizing s with
  | zero => cases violate_ok.mp ok
  | succ fuel ih =>
      rw [run, get_bind_ok] at ok ⊢
      split
      · rename_i closed
        rw [if_pos closed] at ok
        rw [nests_eq_nil (Array.isEmpty_iff.mp closed)]
        exact ⟨Nat.zero_le _, ok⟩
      · rename_i isOpen
        rw [if_neg isOpen] at ok
        obtain ⟨_, u, stepped, ok⟩ := bind_ok.mp ok
        have here := framed fun closed => isOpen (Array.isEmpty_iff.mpr closed)
        obtain ⟨left, rest⟩ := ih (here.step stepped) ok
        obtain ⟨left, stepped⟩ := step_unfinished here stepped left
        exact ⟨left, bind_ok.mpr ⟨(), u, stepped, rest⟩⟩

theorem validateWith_ok_iff {valid : ValidBody} : validateWith setting bytes = .ok valid ↔
    ∃ s t, openFunction setting.context (initial bytes) = .ok () s ∧
      run setting (bytes.length + 1) s = .ok () t ∧ t.cursor.isEmpty = true ∧
        valid = ⟨t.decoded, t.closed, t.builder, t.exit⟩ := by
  have split {t : State} : body setting bytes.length (initial bytes) = .ok () t ↔
      ∃ s u, openFunction setting.context (initial bytes) = .ok () s ∧
        run setting (bytes.length + 1) s = .ok () u ∧ u.cursor.isEmpty = true ∧
          { u with start := u.cursor.offset } = t := by
    simp only [body, bind_ok, modify_ok, get_ok, require_ok]
    constructor
    · rintro ⟨_, s, opened, _, u, ran, _, _, rfl, _, _, ⟨rfl, rfl⟩, empty, rfl⟩
      exact ⟨s, u, opened, ran, empty, rfl⟩
    · rintro ⟨s, u, opened, ran, empty, rfl⟩
      exact ⟨(), s, opened, (), u, ran, (), _, rfl, _, _, ⟨rfl, rfl⟩, empty, rfl⟩
  unfold validateWith
  constructor
  · intro accepted
    split at accepted <;> cases accepted
    rename_i ok
    obtain ⟨s, u, opened, ran, empty, rfl⟩ := split.mp ok
    exact ⟨s, u, opened, ran, empty, rfl⟩
  · rintro ⟨s, u, opened, ran, empty, rfl⟩
    rw [split.mpr ⟨s, u, opened, ran, empty, rfl⟩]

/-- A region is opened with as many blocks as it has funclets. -/
theorem blocks_of_region {signature : Signature} {n : Nat} (framed : Framed s)
    (ok : execute setting (.funcletRegion signature n) s = .ok () t) :
    ∃ r, t.regions = r :: s.regions ∧ r.blocks.size = n := by
  have moves := execute_moves framed ok
  have nests : t.nests = .region 0 n :: s.nests := moves.nests
  have longer : t.layers.length = s.layers.length + 1 := by
    simpa [State.nests] using congrArg List.length nests
  have framed' := moves.shift.framed framed fun empty => by simp [empty] at longer
  cases moves.shift with
  | opens l layers starts inside closed regions =>
      rw [State.nests, layers, List.map_cons] at nests
      have head := (List.cons.inj nests).1
      cases region : l.region with
      | none =>
          rw [Layer.nest, region] at head
          cases head
      | some r =>
          rw [Layer.nest, region] at head
          obtain ⟨_, size⟩ := Nest.region.inj head
          rw [region] at regions
          refine ⟨r, regions, ?_⟩
          rw [← size]
          obtain ⟨parent, around, before⟩ := framed.nested.cons
          exact ((inside parent around before).region r region).2.2.2.2.2
  | stays quiet => exact absurd quiet.layers.length_eq (by omega)
  | turns _ _ _ before layers => simp [before, layers] at longer
  | goesOn _ _ _ before layers => simp [before, layers] at longer
  | closes _ _ _ before layers =>
      rw [before, layers] at longer
      simp only [List.length_cons] at longer
      omega
  | ends _ _ control =>
      have empty : t.layers = [] := by simp [State.layers, State.frames, control, layersOf]
      simp [empty] at longer

/-- What is set up for a count has as many bytes behind the count: the entries of a table and its
default, the types of a funclet header, the blocks of a region. A count of more is refused before
anything is set up for it. -/
structure Spares (setting : Setting) (bytes : List UInt8) : Prop where
  count : ∀ extra cause c n d, Decode.count setting extra cause c = .ok n d →
    n + extra ≤ d.rest.length
  excess : ∀ extra cause c n d, Decode.index c = .ok n d → d.rest.length < n + extra →
    Decode.count setting extra cause c = .error (.invalid ⟨cause, none, none⟩) d
  table : ∀ entry c read d, Decode.table setting entry c = .ok read d →
    ∃ u, Decode.count setting 1 .lengthOutOfBounds c = .ok read.1.length u
  header : ∀ c header d, Decode.funcletHeader setting c = .ok (some header) d →
    ∃ u, Decode.count setting 0 .lengthOutOfBounds (c.advance 1) = .ok header.params.length u
  region : ∀ s, Reached setting bytes s → s.control ≠ #[] → ∀ signature n d,
    Decode.instruction (scopeOf setting s) s.cursor = .ok (.funcletRegion signature n) d →
      n ≤ d.rest.length ∧ ∀ t, execute setting (.funcletRegion signature n) (s.fetched d) = .ok () t →
        ∃ r, t.regions = r :: s.regions ∧ r.blocks.size = n

theorem entries_length {α : Type} {entry : Attempt Cursor α} {n : Nat} {done items : List α}
    {c d : Cursor} (ok : Decode.entries entry n done c = .ok items d) :
    items.length = done.length + n := by
  induction n generalizing done c with
  | zero =>
      rw [Decode.entries, pure_ok] at ok
      rw [← ok.1, List.length_reverse, Nat.add_zero]
  | succ n ih =>
      obtain ⟨a, u, _, ok⟩ := bind_ok.mp ok
      rw [ih ok, List.length_cons]
      omega

theorem spares (context : Context) (bytes : List UInt8) : Spares ⟨context, true⟩ bytes where
  count extra cause c n d ok := (Decode.count_ok.mp ok).2 rfl
  excess extra cause c n d read few := by
    have short : Cursor.hasLeft d (n + extra) = false := by
      rw [Bool.eq_false_iff, Ne, Cursor.hasLeft, Cursor.atLeast_iff]
      omega
    have refused : Cursor.boundedBy (n + extra) cause d =
        .error (.invalid ⟨cause, none, none⟩) d := by
      change require (Cursor.hasLeft d (n + extra) = true) cause d = _
      rw [require, if_neg (by simp [short])]
      rfl
    simp only [Decode.count, bind, EStateM.bind, read, if_true, refused]
  table entry c read d ok := by
    simp only [Decode.table, bind_ok, pure_ok] at ok
    obtain ⟨n, u, counted, listed, _, many, _, _, _, rfl, _⟩ := ok
    have size := entries_length many
    rw [List.length_nil, Nat.zero_add] at size
    exact ⟨u, size ▸ counted⟩
  header c header d ok := by
    unfold Decode.funcletHeader at ok
    rw [get_bind_ok] at ok
    split at ok
    · simp only [bind_ok, pure_ok] at ok
      obtain ⟨byte, u, first, n, v, counted, params, _, many, _, _, _, same, _⟩ := ok
      obtain rfl := Option.some.inj same
      have size := entries_length many
      rw [List.length_nil, Nat.zero_add] at size
      obtain ⟨_, rfl, split, offset⟩ := (next_parses c u byte).mp first
      obtain rfl : u = c.advance 1 := Cursor.eq_iff.mpr ⟨by simp [Cursor.advance, split], offset.symm⟩
      exact ⟨v, size ▸ counted⟩
    · simp at ok
  region s reached isOpen signature n d decoded :=
    ⟨(instruction_lax.mp decoded).2 signature n rfl, fun t executed =>
      blocks_of_region (s := s.fetched d)
        ((reached.loose.framed (frames_ne_nil isOpen)).fetched d) executed⟩

/-- The early checks of counts are never missed: without them the same bodies are accepted, with the
same result. With them, no count sets up more than there are bytes behind it. -/
theorem guards_transparent (context : Context) (bytes : List UInt8) :
    (∀ valid, validateWith ⟨context, false⟩ bytes = .ok valid ↔
      validate context bytes = .ok valid) ∧ Spares ⟨context, true⟩ bytes := by
  refine ⟨fun valid => ?_, spares context bytes⟩
  rw [validate, validateWith_ok_iff, validateWith_ok_iff]
  refine exists₂_congr fun s t => and_congr_right fun opened => and_congr_left fun _ => ?_
  exact ⟨fun ok => (run_strict (fun _ => framed_of_openFunction opened) ok).2, run_of_strict⟩

end WasmFunclets.Validation
