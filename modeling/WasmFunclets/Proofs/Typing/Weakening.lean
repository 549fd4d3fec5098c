import WasmFunclets.Proofs.Ahead
import WasmFunclets.Proofs.Typing.Complete
import WasmFunclets.Proofs.Typing.Weakens

/-! Dead code weakens: a body without regions stays valid if it is cut off by an `unreachable` at any
place, as what follows is then checked on weaker operands. -/

namespace WasmFunclets

def Form.isFunclet : Form → Bool
  | .funcletRegion | .funcletSig | .funcletCall | .funcletCallIf | .funcletCallTable => true
  | _ => false

namespace Validation

open Attempt
open Encoding (Piece OfLine join)

variable {setting : Setting} {context : Context} {bytes rest : List UInt8} {s t u : State}
variable {c d : Cursor} {pieces before after : List Piece} {valid : ValidBody}

theorem isFunclet_of_resolve {scope : Scope} {line : Line} {i : Instruction}
    (found : Decode.resolve scope line = some i) : i.isFunclet = line.opcode.form.isFunclet := by
  obtain ⟨⟨byte, name, form⟩, immediate⟩ := line
  unfold Decode.resolve at found
  dsimp only at found
  split at found
  all_goals try simp only [Option.map_eq_some_iff, Option.bind_eq_some_iff, Option.bind_eq_bind,
    Option.pure_def, Option.ite_none_right_eq_some, Option.ite_none_left_eq_some] at found
  all_goals first
    | (cases found <;> rfl)
    | (obtain ⟨_, ⟨⟩⟩ := found; rfl)
    | (obtain ⟨_, _, rfl⟩ := found; rfl)
    | (obtain ⟨_, _, _, rfl⟩ := found; rfl)
    | (obtain ⟨_, _, _, _, _, _, ⟨⟩⟩ := found; rfl)

theorem Weakens.fetched (weakens : Weakens c s t) (d e : Cursor) :
    Weakens e (s.fetched d) (t.fetched e) :=
  ⟨weakens.tower, weakens.hosted.locals, weakens.hosted.regions, weakens.hosted.regions', rfl⟩

theorem Weakens.isOpen (weakens : Weakens c s t) (isOpen : s.control ≠ #[]) : t.control ≠ #[] := by
  have frames := weakens.tower.alike.length_eq
  rw [State.frames_length, State.frames_length] at frames
  intro closed
  rw [closed] at frames
  exact isOpen (Array.size_eq_zero_iff.mp frames)

/-- Where a validation walks through lines of the host format, another one on weaker operands reads
these lines and refuses nothing. -/
theorem admitsRest_of_walk (walk : LineWalk setting s pieces u)
    (host : ∀ p ∈ pieces, p.line.opcode.form.isFunclet = false) (weakens : Weakens c s t)
    (next : c.rest = join pieces ++ rest)
    (behind : ∀ d v, Weakens d u v → d.rest = rest → AdmitsRest setting v) : AdmitsRest setting t := by
  -- The same line is read on both sides, and behind it the operands are weaker again.
  induction walk generalizing c t with
  | here s => exact behind c t weakens (by simpa using next)
  | @step s w u p header pieces isOpen ok isHeader consumes walk ih =>
      obtain ⟨q, header', i, e, _, found, executed, _, _, consumes'⟩ := step_consumes ok
      have lines : join (q :: header'.toList) = join (p :: header.toList) :=
        List.append_cancel_right (consumes'.rest.symm.trans consumes.rest)
      obtain ⟨rfl, _⟩ := List.cons.inj (Encoding.join_injective lines)
      obtain rfl : header = none := by
        cases header with
        | none => rfl
        | some h =>
            have stray := host h (by simp)
            rw [isHeader h rfl] at stray
            cases stray
      have plain := host q (by simp)
      rw [← weakens.scope] at found
      have next' : t.cursor.rest = q.bytes ++ (join pieces ++ rest) := by
        rw [weakens.hosted.cursor, next]
        simp
      refine admitsRest_of_piece (weakens.isOpen isOpen) next' found (fun region => ?_) fun d there => ?_
      · rw [region] at plain
        cases plain
      · have host_ : i.isFunclet = false := (isFunclet_of_resolve found).trans plain
        refine ((weakening setting d).shadows_host host_ _ _ (weakens.fetched e d) () w
          executed).imp fun _ v later => ?_
        exact ih (fun p member => host p (by simp [member])) later there behind

/-- An `unreachable` that only the second validation carries out leaves it on weaker operands still. -/
theorem Weakens.unreachable (weakens : Weakens c s t) (isOpen : s.control ≠ #[]) :
    Ends (execute setting .unreachable) t (fun _ v => Weakens c s v) fun e _ => ¬ e.IsRefusal := by
  have alike := weakens.tower.alike
  obtain ⟨f, fs, split⟩ := List.exists_cons_of_ne_nil (frames_ne_nil isOpen)
  rw [split] at alike
  obtain ⟨g, gs, first, -, split'⟩ := List.forall₂_cons_left_iff.mp alike
  have found : t.frame? 0 = some g := by
    rw [t.frame?_eq, split']
    rfl
  change Ends (emitStatement _ _ _ >>= fun _ => endBlock setting) t _ _
  rw [ends_bind]
  refine (aloof_emitStatement _ _ _ t).imp fun _ w reached => ?_
  obtain ⟨near, stack⟩ := reached
  refine ends_bind_of_ok (innermost_ok.mpr ⟨(near.frame? 0).trans found, rfl⟩) ?_
  rw [if_neg first.plain.2]
  refine ends_bind_of_ok (onStack_ok.mpr ⟨_, (@TypedStack.becomePolymorphic_ok _ _ ()).mpr rfl, rfl⟩) ?_
  refine (aloof_unreachedBlock _).imp fun _ v later => ?_
  have weaker := weakens.tower.weaker
  have near' : Near t { w with stack := w.stack.cleared true } := near.trans ⟨rfl, rfl⟩
  have cleared : v.stack = t.stack.cleared true := by rw [later.2, stack]
  refine (stackRelation_weakens c).kept weakens ⟨.refl s, near'.trans later.1,
    TypedStack.Rests.refl weaker.above, ?_, ?_⟩
  · rw [cleared]
    exact TypedStack.rests_cleared true weaker.holds.above
  · rw [cleared]
    exact weaker.unreachable

def unreachablePiece : Piece where
  line := ⟨⟨Opcode.unreachableByte, "unreachable", .unreachable⟩, .nothing⟩
  bytes := [Opcode.unreachableByte]
  written := .mk rfl .nothing

theorem admitsRest_of_unreachable (weakens : Weakens c s t) (isOpen : s.control ≠ #[])
    (next : c.rest = Opcode.unreachableByte :: rest)
    (behind : ∀ d v, Weakens d s v → d.rest = rest → AdmitsRest setting v) : AdmitsRest setting t := by
  have next' : t.cursor.rest = unreachablePiece.bytes ++ rest := by
    rw [weakens.hosted.cursor, next]
    rfl
  refine admitsRest_of_piece (weakens.isOpen isOpen) next' (i := .unreachable) rfl (by decide) fun d there => ?_
  have fetched : Weakens d s (t.fetched d) :=
    ⟨weakens.tower, weakens.hosted.locals, weakens.hosted.regions, weakens.hosted.regions', rfl⟩
  exact (fetched.unreachable isOpen).imp fun _ v later => behind d v later there

theorem LineWalk.isOpen (walk : LineWalk setting s pieces t) (some_ : pieces ≠ []) : s.control ≠ #[] := by
  cases walk with
  | here => exact absurd rfl some_
  | step isOpen => exact isOpen

theorem weakens_of_openFunction (ok : openFunction context (initial bytes) = .ok () s)
    (more : List UInt8) : Weakens ⟨s.cursor.offset, more⟩ s (s.ahead more) := by
  obtain ⟨exit, _, _, stack, regions, _, control⟩ := openFunction_ok ok
  refine ⟨?_, rfl, regions, regions, rfl⟩
  change WeakerFrames s.frames s.frames s.stack s.stack
  rw [State.frames, control, stack]
  exact .function (.refl (Nat.le_refl 0)) ⟨rfl, .function⟩ rfl

theorem LineWalk.cut_host (walk : LineWalk setting s (before ++ after) t)
    (host : ∀ p ∈ before ++ after, p.line.opcode.form.isFunclet = false) :
    ∃ u, LineWalk setting s before u ∧ LineWalk setting u after t := by
  rcases walk.cut with split | ⟨_, _, _, p, q, _, -, rfl, -, -, -, header, -⟩
  · exact split
  · have stray := host q (by simp)
    rw [header] at stray
    cases stray

theorem fillers_host (n : Nat) : ∀ p ∈ fillers n ++ [endPiece], p.line.opcode.form.isFunclet = false := by
  induction n with
  | zero => simp [fillers, endPiece, Form.isFunclet]
  | succ n ih => simpa [fillers, constantPiece, dropPiece, Form.isFunclet] using ih

def fillersSplit (n : Nat) : Encoding.Split ([0x00] ++ join (fillers n ++ [endPiece])) where
  head := [0x00]
  runs := []
  pieces := fillers n ++ [endPiece]
  locals := Encoding.noLocals_written
  whole := rfl

def selection : List UInt8 := [0x00, 0x20, 0x00, 0x20, 0x00, 0x20, 0x00, 0x1b, 0x0b]

def selectionSplit : Encoding.Split selection :=
  let get : Piece := ⟨_, _, Encoding.get_written⟩
  { head := [0x00]
    runs := []
    pieces := [get, get, get, ⟨⟨⟨0x1b, "select", .select⟩, .nothing⟩, [0x1b], .mk rfl .nothing⟩,
      ⟨_, _, Encoding.end_written⟩]
    locals := Encoding.noLocals_written
    whole := rfl }

end Validation

end WasmFunclets
