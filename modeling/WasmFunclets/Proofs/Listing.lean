import Mathlib.Logic.Function.Iterate
import WasmFunclets.Machine
import WasmFunclets.Proofs.Step

/-! The instructions that a validation decodes one after the other, and the states it is in between
them. -/

namespace WasmFunclets.Validation

open Attempt

def fetch (setting : Setting) : Step Instruction := do
  modify fun s => { s with start := s.cursor.offset }
  let s ← get
  require ((s.cursor.isEmpty && !s.regions.isEmpty) = false) .unfinishedRegion
  onCursor (Decode.instruction (← scope setting))

theorem step_eq (setting : Setting) :
    step setting = (do
      let instruction ← fetch setting
      modify fun s => { s with decoded := s.decoded + 1 }
      execute setting instruction) := by
  simp only [step, fetch, bind_assoc]

def after (setting : Setting) (s : State) : State :=
  match step setting s with
  | .ok _ t => t
  | .error _ t => t

def listing (setting : Setting) : Nat → State → List Located
  | 0, _ => []
  | fuel + 1, s =>
      if s.control.isEmpty then []
      else
        match fetch setting s with
        | .ok instruction _ =>
            ⟨s.cursor.offset, instruction⟩ :: listing setting fuel (after setting s)
        | .error _ _ => []

def decoded (context : Context) (bytes : List UInt8) : List Located :=
  match openFunction context (initial bytes) with
  | .ok _ s => listing ⟨context, true⟩ (bytes.length + 1) s
  | .error _ _ => []

structure Passes (setting : Setting) (s : State) (line : Located) (t : State) : Prop where
  isOpen : s.control.isEmpty = false
  offset : line.offset = s.cursor.offset
  executed : ∃ u, fetch setting s = .ok line.instruction u ∧
    execute setting line.instruction { u with decoded := u.decoded + 1 } = .ok () t

/-- A validation in the given states before and between the instructions of a listing. -/
structure Trace (setting : Setting) (code : List Located) (states : Nat → State) : Prop where
  passes : ∀ k (inside : k < code.length), Passes setting (states k) code[k] (states (k + 1))
  closed : (states code.length).control.isEmpty = true

theorem step_ok {setting : Setting} {s t : State} {x : Unit}
    (ok : step setting s = .ok x t) :
    ∃ instruction u, fetch setting s = .ok instruction u ∧
      execute setting instruction { u with decoded := u.decoded + 1 } = .ok () t := by
  simp only [step_eq, bind_ok, modify_ok] at ok
  obtain ⟨instruction, u, fetched, _, _, rfl, executed⟩ := ok
  exact ⟨instruction, u, fetched, executed⟩

theorem trace_of_run {setting : Setting} {fuel : Nat} {s t : State} {x : Unit}
    (ok : run setting fuel s = .ok x t) :
    let states k := (after setting)^[k] s
    Trace setting (listing setting fuel s) states ∧ states (listing setting fuel s).length = t := by
  induction fuel generalizing s with
  | zero => simp [run] at ok
  | succ fuel ih =>
      simp only [run, get_bind_ok] at ok
      by_cases closed : s.control.isEmpty = true
      · simp only [closed, if_true, pure_ok] at ok
        obtain ⟨_, rfl⟩ := ok
        simp only [listing, closed, if_true, List.length_nil, Function.iterate_zero, id_eq,
          and_true]
        exact ⟨fun k inside => absurd inside (Nat.not_lt_zero k), closed⟩
      · have isOpen : s.control.isEmpty = false := by simpa using closed
        simp only [isOpen, Bool.false_eq_true, if_false, bind_ok] at ok
        obtain ⟨_, u, stepped, rest⟩ := ok
        have next : after setting s = u := by simp [after, stepped]
        obtain ⟨instruction, v, fetched, executed⟩ := step_ok stepped
        obtain ⟨trace, last⟩ := ih rest
        simp only [listing, isOpen, Bool.false_eq_true, if_false, fetched, next]
        refine ⟨⟨fun k inside => ?_, ?_⟩, ?_⟩
        · cases k with
          | zero =>
              simp only [Function.iterate_zero, id_eq, List.getElem_cons_zero, Nat.zero_add,
                Function.iterate_one, next]
              exact ⟨isOpen, rfl, v, fetched, executed⟩
          | succ k =>
              simp only [Function.iterate_succ, Function.comp_apply, next, List.getElem_cons_succ]
              exact trace.passes k (by simpa using inside)
        · simpa [Function.iterate_succ, next] using trace.closed
        · simpa [Function.iterate_succ, next] using last

theorem trace_of_validate {context : Context} {bytes : List UInt8} {body : ValidBody}
    (accepted : validate context bytes = .ok body) :
    ∃ states, openFunction context (initial bytes) = .ok () (states 0) ∧
      Trace ⟨context, true⟩ (decoded context bytes) states ∧
      let last := states (decoded context bytes).length
      body = ⟨last.decoded, last.closed, last.builder, last.exit⟩ := by
  simp only [validate, validateWith] at accepted
  split at accepted
  · rename_i s ok
    cases accepted
    simp only [Validation.body, bind_ok, modify_ok, get_ok, require_ok] at ok
    obtain ⟨_, u, opened, _, v, ran, _, _, rfl, _, _, ⟨rfl, rfl⟩, _, rfl⟩ := ok
    obtain ⟨trace, last⟩ := trace_of_run ran
    have code : decoded context bytes = listing ⟨context, true⟩ (bytes.length + 1) u := by
      simp [decoded, opened]
    rw [code]
    exact ⟨_, opened, trace, by rw [← last]⟩
  · cases accepted
  · cases accepted

end WasmFunclets.Validation
