import WasmFunclets.Proofs.Blind
import WasmFunclets.Proofs.Encoding.Unique
import WasmFunclets.Proofs.Guards

/-! A validation is one pass over the bytes of a body: each instruction takes up one line, and the
header of a funclet that it starts. -/

namespace WasmFunclets.Validation

open Attempt
open Encoding (Piece join OfLine)

variable {α β : Type} {setting : Setting} {bytes : List UInt8} {s t u : State}

structure Consumes (pieces : List Piece) (s t : State) : Prop where
  rest : s.cursor.rest = join pieces ++ t.cursor.rest
  offset : t.cursor.offset = s.cursor.offset + (join pieces).length
  decoded : t.decoded = s.decoded + pieces.length

theorem Consumes.of_eq (cursor : t.cursor = s.cursor) (decoded : t.decoded = s.decoded) :
    Consumes [] s t := ⟨by rw [cursor]; rfl, by rw [cursor]; rfl, decoded⟩

theorem Consumes.trans {pieces more : List Piece} (first : Consumes pieces s t)
    (second : Consumes more t u) : Consumes (pieces ++ more) s u where
  rest := by rw [first.rest, second.rest, Encoding.join_append, List.append_assoc]
  offset := by
    rw [second.offset, first.offset, Encoding.join_append, List.length_append, Nat.add_assoc]
  decoded := by rw [second.decoded, first.decoded, List.length_append, Nat.add_assoc]

theorem Consumes.behind {pieces : List Piece} (consumes : Consumes pieces s t) :
    s.cursor.Behind t.cursor where
  onward := consumes.offset ▸ Nat.le_add_right _ _
  total := by
    rw [consumes.offset, consumes.rest, List.length_append, Nat.add_assoc]
  suffix := consumes.rest ▸ List.suffix_append _ _

/-- The cursor stands in a body and sees all of it from there on. -/
structure WithinBody (bytes : List UInt8) (c : Cursor) : Prop where
  within : c.offset ≤ bytes.length
  rest : c.rest = bytes.drop c.offset

theorem withinBody_ofBytes (bytes : List UInt8) : WithinBody bytes (.ofBytes bytes) :=
  ⟨Nat.zero_le _, rfl⟩

theorem WithinBody.total {c : Cursor} (inside : WithinBody bytes c) :
    c.offset + c.rest.length = bytes.length := by
  have within := inside.within
  rw [inside.rest, List.length_drop]
  omega

theorem WithinBody.behind {c d : Cursor} (inside : WithinBody bytes c) (behind : c.Behind d) :
    WithinBody bytes d := by
  have total := behind.total.trans inside.total
  have suffix : d.rest <:+ bytes := behind.suffix.trans (inside.rest ▸ List.drop_suffix _ _)
  refine ⟨by omega, ?_⟩
  rw [List.suffix_iff_eq_drop.mp suffix]
  congr 1
  omega

theorem WithinBody.next {c d : Cursor} {byte : UInt8} (inside : WithinBody bytes c)
    (ok : Cursor.next c = .ok byte d) : bytes[c.offset]? = some byte := by
  obtain ⟨_, rfl, split, _⟩ := (next_parses c d byte).mp ok
  have first : (bytes.drop c.offset)[0]? = some byte := by
    rw [← inside.rest, split]
    rfl
  rwa [List.getElem?_drop, Nat.add_zero] at first

theorem blind_openFrame (context : Context) (locals : Array ValueType) : Blind (do
    modify fun s => { s with builder := .ofLocals locals context.signature.params.length }
    let exit ← newTarget .exit context.signature.results
    modify fun s => { s with exit }
    pushFrame ⟨[], context.signature.results⟩ ⟨0, 0, false⟩ exit .function) :=
  blind_bind (blind_modify fun _ _ _ => rfl) fun _ => blind_bind (blind_onBuilder _) fun _ =>
    blind_bind (blind_modify fun _ _ _ => rfl) fun _ => blind_parts.pushFrame _ _ _ _

theorem openFunction_onward (context : Context) (bytes : List UInt8) :
    Ends (openFunction context) (initial bytes)
      (fun _ s => WithinBody bytes s.cursor ∧ 0 < s.cursor.offset) fun _ s => WithinBody bytes s.cursor := by
  rw [openFunction, ends_bind]
  refine ends_within.mpr (ends_of_forall (fun types c ok => ?_) fun e c error =>
    (withinBody_ofBytes bytes).behind ((Decode.locals_readsOnward _ _).of_error error).2)
  have inside := (withinBody_ofBytes bytes).behind ((Decode.locals_readsOnward _).of_ok ok)
  obtain ⟨e, ⟨runs, written, _⟩, split, offset⟩ := (Decode.locals_parses _ _ c types).mp ok
  have some_ : 0 < c.offset := by
    rw [offset]
    exact Nat.add_pos_right _
      (List.length_pos_iff.mpr fun empty => Encoding.locals_ne_nil (empty ▸ written))
  refine ((blind_openFrame context types).ends _).mono (fun _ s same => ?_) fun _ s same => ?_
  · rw [same.1]
    exact ⟨inside, some_⟩
  · rwa [same]

theorem step_onward (setting : Setting) (s : State) :
    Ends (step setting) s
      (fun _ t => s.cursor.Behind t.cursor ∧ s.cursor.offset < t.cursor.offset)
      fun _ t => s.cursor.Behind t.cursor := by
  rw [step, ends_bind, ends_modify, ends_bind, ends_get, ends_bind, ends_require]
  refine ⟨fun _ => ?_, fun _ => .refl _⟩
  rw [ends_bind, scope, ends_bind, ends_get, ends_pure, ends_bind]
  refine ends_within.mpr ((Decode.instruction_consumes _ _).mono ?_ fun _ _ failed => failed.2)
  rintro i c ⟨behind, further⟩
  rw [ends_bind, ends_modify]
  refine (execute_onward setting i _).mono (fun _ t more => ?_) fun _ t more => behind.trans more
  exact ⟨behind.trans more, Nat.lt_of_lt_of_le further more.onward⟩

/-- The states of the loop, with the number of iterations it took to reach them. -/
inductive Iterates (setting : Setting) (bytes : List UInt8) : Nat → State → Prop where
  | opened {s : State} (ok : openFunction setting.context (initial bytes) = .ok () s) :
      Iterates setting bytes 0 s
  | step {n : Nat} {s t : State} (before : Iterates setting bytes n s) (isOpen : s.control ≠ #[])
      (ok : step setting s = .ok () t) : Iterates setting bytes (n + 1) t

namespace Iterates

variable {n : Nat}

theorem reached (iterates : Iterates setting bytes n s) : Reached setting bytes s := by
  induction iterates with
  | opened ok => exact .opened ok
  | step _ isOpen ok ih => exact .step ih isOpen ok

theorem withinBody (iterates : Iterates setting bytes n s) :
    WithinBody bytes s.cursor ∧ n < s.cursor.offset := by
  induction iterates with
  | opened ok => exact (openFunction_onward _ bytes).of_ok ok
  | step _ _ ok ih =>
      obtain ⟨behind, further⟩ := (step_onward setting _).of_ok ok
      exact ⟨ih.1.behind behind, Nat.lt_of_le_of_lt ih.2 further⟩

theorem few (iterates : Iterates setting bytes n s) : n < bytes.length :=
  Nat.lt_of_lt_of_le iterates.withinBody.2 iterates.withinBody.1.within

/-- A run that may take as many iterations as there are bytes is never cut short. -/
theorem run (iterates : Iterates setting bytes n s) {fuel more : Nat}
    (enough : bytes.length ≤ n + fuel) :
    Validation.run setting (fuel + more) s = Validation.run setting fuel s ∧
      ∀ t, Validation.run setting fuel s ≠ .error (.broken .stepsExhausted) t := by
  -- Each iteration reads a byte, so `n` is below the number of bytes as long as a frame is open.
  induction fuel generalizing n s with
  | zero => exact absurd enough (Nat.not_le.mpr iterates.few)
  | succ fuel ih =>
      have unfolded (k : Nat) : Validation.run setting (k + 1) s =
          if s.control.isEmpty then .ok () s
          else (Validation.step setting >>= fun _ => Validation.run setting k) s := by
        change (if s.control.isEmpty then pure ()
          else Validation.step setting >>= fun _ => Validation.run setting k : Step Unit) s = _
        split <;> rfl
      rw [Nat.add_right_comm fuel 1 more, unfolded, unfolded]
      split
      · exact ⟨rfl, nofun⟩
      · rename_i isOpen
        have open_ : s.control ≠ #[] := fun empty => isOpen (Array.isEmpty_iff.mpr empty)
        simp only [bind, EStateM.bind]
        cases stepped : Validation.step setting s with
        | ok _ t => exact ih (.step iterates open_ stepped) (by omega)
        | error e t =>
            refine ⟨rfl, fun u same => ?_⟩
            have ends := @step_midway setting false s nofun iterates.reached.loose
              (frames_ne_nil open_)
            obtain ⟨rfl, _⟩ := EStateM.Result.error.inj same
            rcases ends.of_error stepped with ⟨_, same⟩ | ⟨same, _⟩ <;> cases same

end Iterates

theorem execute_consumes {i : Instruction} (ok : execute setting i s = .ok () t) :
    ∃ header : Option Piece, (∀ q ∈ header, q.line.opcode = Decode.funcletSig) ∧
      Consumes header.toList s t := by
  rcases execute_moved setting ok with ⟨cursor, decoded, _⟩ | ⟨_, header, read, decoded, _⟩
  · exact ⟨none, by simp, .of_eq cursor decoded⟩
  · cases header with
    | none => exact ⟨none, by simp, .of_eq (Decode.funcletHeader_none.mp read).1.symm decoded⟩
    | some header =>
        obtain ⟨e, written, rest, offset⟩ := Decode.funcletHeader_some.mp read
        refine ⟨some ⟨Decode.headerLine header, e, written⟩, ?_, ?_, ?_, decoded⟩
        · rintro _ ⟨⟩
          rfl
        · simpa using rest
        · simpa using offset

theorem step_consumes (ok : step setting s = .ok () t) :
    ∃ (p : Piece) (header : Option Piece) (i : Instruction) (c : Cursor),
      Decode.instruction (scopeOf setting s) s.cursor = .ok i c ∧
      Decode.resolve (scopeOf setting s) p.line = some i ∧
      execute setting i (s.fetched c) = .ok () t ∧ c.rest = join header.toList ++ t.cursor.rest ∧
      (∀ q ∈ header, q.line.opcode = Decode.funcletSig) ∧ Consumes (p :: header.toList) s t := by
  obtain ⟨i, c, decoded, executed⟩ := step_ok_iff.mp ok
  obtain ⟨⟨e, written, rest, offset⟩, _⟩ := Decode.instruction_ok.mp decoded
  rcases written with ⟨line, written, found⟩ | ⟨rfl, _⟩
  · obtain ⟨header, isHeader, consumes⟩ := execute_consumes executed
    refine ⟨⟨line, e, written⟩, header, i, c, decoded, found, executed, consumes.rest, isHeader, ?_⟩
    have first : Consumes [⟨line, e, written⟩] s (s.fetched c) :=
      ⟨by simpa [State.fetched] using rest, by simpa [State.fetched] using offset, rfl⟩
    exact first.trans consumes
  · change strayFuncletSig (s.fetched c) = .ok () t at executed
    simp [strayFuncletSig] at executed

end WasmFunclets.Validation
