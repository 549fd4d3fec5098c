import WasmFunclets.Proofs.Cutoff
import WasmFunclets.Proofs.Twins.Funclets
import WasmFunclets.Proofs.Typing.Complete

/-! Twin validations read the same lines: where one of them walks to the end of a body, the other one ends there
too. -/

namespace WasmFunclets.Validation

open Attempt
open Encoding (Piece join)

variable {context : Context} {bytes : List UInt8} {setting : Setting} {s t u v : State}
variable {c d : Cursor} {i : Instruction} {pieces : List Piece} {Q : State → Prop}

theorem LineWalk.finishes (walk : LineWalk setting s pieces t) (behind : Finishes setting Q t) :
    Finishes setting Q s := by
  induction walk with
  | here s => exact behind
  | step isOpen ok _ _ _ ih =>
      refine finishes_of_step isOpen ?_
      rw [Ends, ok]
      exact ih behind

theorem LineWalk.strict {strict : Bool} (walk : LineWalk ⟨context, strict⟩ s pieces t)
    (framed : s.control ≠ #[] → Framed s) (left : unfinished t.nests ≤ t.cursor.rest.length) :
    unfinished s.nests ≤ s.cursor.rest.length ∧ LineWalk ⟨context, true⟩ s pieces t := by
  induction walk with
  | here s => exact ⟨left, .here s⟩
  | @step s t u p header pieces isOpen ok isHeader consumes _ ih =>
      obtain ⟨left, walk⟩ := ih (fun isOpen' => (framed isOpen).step ok isOpen') left
      have lax : Validation.step ⟨context, false⟩ s = .ok () t := by
        cases strict
        · exact ok
        · exact step_of_strict ok
      obtain ⟨left, ok⟩ := step_unfinished (framed isOpen) lax left
      exact ⟨left, .step isOpen ok isHeader consumes walk⟩

namespace Twins

theorem resolve (twins : Twins s t) (line : Line) :
    Decode.resolve (scopeOf setting t) line = Decode.resolve (scopeOf setting s) line := by
  have regions := twins.regions
  rw [scopeOf, scopeOf, twins.locals, twins.size]
  generalize s.regions = one, t.regions = two at regions
  cases regions with
  | nil => rfl
  | cons alike _ =>
      refine @Decode.resolve_targets ⟨_, _, _, none⟩ _ _ (funext fun delta => ?_) line
      simp only [FuncletCalls.target?, alike.graph.current, alike.graph.size]

theorem decoded (twins : Twins s t)
    (decoded : Decode.instruction (scopeOf setting s) s.cursor = .ok i c) :
    ∃ d, Decode.instruction (scopeOf setting t) t.cursor = .ok i d ∧ d.rest = c.rest := by
  obtain ⟨⟨e, written, split, -⟩, within⟩ := Decode.instruction_ok.mp decoded
  refine ⟨⟨t.cursor.offset + e.length, c.rest⟩, Decode.instruction_ok.mpr
    ⟨⟨e, ?_, twins.rest.trans split, rfl⟩, within⟩, rfl⟩
  exact written.imp_left fun ⟨line, shown, found⟩ => ⟨line, shown, (twins.resolve line).trans found⟩

theorem fetched (twins : Twins s t) (rest : d.rest = c.rest) : Twins (s.fetched c) (t.fetched d) :=
  { twins with rest }

theorem control_eq_nil (twins : Twins s t) : t.control = #[] ↔ s.control = #[] := by
  rw [← Array.size_eq_zero_iff, twins.size, Array.size_eq_zero_iff]

end Twins

theorem twins_step : Shadows Twins (step setting) (step setting) := by
  intro s t twins _ u ok
  obtain ⟨i, c, decoded, executed⟩ := step_ok_iff.mp ok
  obtain ⟨d, decoded', rest⟩ := twins.decoded decoded
  exact ends_step decoded' (twins_execute i _ _ (twins.fetched rest) () u executed)

theorem Twins.finishes (twins : Twins s t) (walk : LineWalk setting s pieces u) (closed : u.control = #[])
    (nothing : u.cursor.rest = []) : Finishes setting (Twins u) t := by
  induction walk generalizing t with
  | here s =>
      exact finishes_of_closed (twins.control_eq_nil.mpr closed) (twins.rest.trans nothing) twins
  | step isOpen ok _ _ _ ih =>
      refine finishes_of_step (mt twins.control_eq_nil.mp isOpen) ?_
      exact (twins_step _ t twins () _ ok).imp fun _ v later => ih later closed nothing

end WasmFunclets.Validation
