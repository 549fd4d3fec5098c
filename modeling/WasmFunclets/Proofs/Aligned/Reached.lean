import WasmFunclets.Proofs.Aligned.Run

/-! The states that a validation goes through, and how it ends. -/

namespace WasmFunclets.Validation

open Attempt

variable {setting : Setting} {strict : Bool} {bytes : List UInt8} {s t : State} {valid : ValidBody}

inductive Reached (setting : Setting) (bytes : List UInt8) : State → Prop where
  | opened {s : State} (ok : openFunction setting.context (initial bytes) = .ok () s) :
      Reached setting bytes s
  | step {s t : State} (reached : Reached setting bytes s) (isOpen : s.control ≠ #[])
      (ok : step setting s = .ok () t) : Reached setting bytes t

theorem frames_ne_nil (isOpen : s.control ≠ #[]) : s.frames ≠ [] := by
  simpa [State.frames] using isOpen

theorem Reached.midway (reached : Reached setting bytes s)
    (typed : strict = true → setting.context.ValueTyped) : Midway setting.context strict s := by
  induction reached with
  | opened ok => exact ((openFunction_midway typed bytes).of_ok ok).1
  | step _ isOpen ok ih => exact ((step_midway typed ih (frames_ne_nil isOpen)).of_ok ok).1

theorem Reached.loose (reached : Reached setting bytes s) : Midway setting.context false s :=
  reached.midway nofun

theorem Reached.later (reached : Reached setting bytes s) (isOpen : s.control ≠ #[])
    (ok : Validation.step setting s = .ok () t) : s.builder.Later t.builder := by
  have ends := @step_midway setting false s nofun reached.loose (frames_ne_nil isOpen)
  exact (ends.of_ok ok).2.1

theorem reached_of_run {fuel : Nat} (reached : Reached setting bytes s)
    (ok : run setting fuel s = .ok () t) : Reached setting bytes t ∧ t.control = #[] := by
  induction fuel generalizing s with
  | zero => cases violate_ok.mp ok
  | succ fuel ih =>
      rw [run, get_bind_ok] at ok
      split at ok
      · rename_i closed
        obtain ⟨_, rfl⟩ := pure_ok.mp ok
        exact ⟨reached, Array.isEmpty_iff.mp closed⟩
      · rename_i isOpen
        obtain ⟨_, u, stepped, ok⟩ := bind_ok.mp ok
        exact ih (.step reached (fun empty => isOpen (Array.isEmpty_iff.mpr empty)) stepped) ok

theorem reached_of_valid (accepted : validateWith setting bytes = .ok valid) :
    ∃ s, Reached setting bytes s ∧ s.control = #[] ∧
      valid = ⟨s.decoded, s.closed, s.builder, s.exit⟩ := by
  unfold validateWith at accepted
  split at accepted
  · rename_i t ok
    cases accepted
    simp only [body, bind_ok, modify_ok, get_ok, require_ok] at ok
    obtain ⟨_, _, opened, _, s, ran, _, _, rfl, _, _, ⟨rfl, rfl⟩, _, rfl⟩ := ok
    obtain ⟨reached, closed⟩ := reached_of_run (.opened opened) ran
    exact ⟨s, reached, closed, rfl⟩
  · cases accepted
  · cases accepted

/-- The state between two instructions after the first n of them, if a body has as many. -/
def stateAfter (setting : Setting) (bytes : List UInt8) : Nat → Option State
  | 0 =>
      match openFunction setting.context (initial bytes) with
      | .ok _ s => some s
      | .error _ _ => none
  | n + 1 => do
      let s ← stateAfter setting bytes n
      if s.control.isEmpty then none
      else
        match step setting s with
        | .ok _ t => some t
        | .error _ _ => none

theorem step_of_stateAfter {n : Nat} (later : stateAfter setting bytes (n + 1) = some t) :
    ∃ s, stateAfter setting bytes n = some s ∧ s.control ≠ #[] ∧
      Validation.step setting s = .ok () t := by
  rw [stateAfter] at later
  obtain ⟨s, before, later⟩ := Option.bind_eq_some_iff.mp later
  split at later
  · cases later
  · rename_i isOpen
    split at later
    · rename_i stepped
      cases later
      exact ⟨s, before, fun empty => isOpen (Array.isEmpty_iff.mpr empty), stepped⟩
    · cases later

theorem reached_of_stateAfter {n : Nat} (after : stateAfter setting bytes n = some s) :
    Reached setting bytes s := by
  induction n generalizing s with
  | zero =>
      unfold stateAfter at after
      split at after
      · rename_i opened
        cases after
        exact .opened opened
      · cases after
  | succ n ih =>
      obtain ⟨u, before, isOpen, stepped⟩ := step_of_stateAfter after
      exact .step (ih before) isOpen stepped

/-- A region of two funclets. The second one is called from dead code, on a condition and from the
end of the first one, which gives it its parameter. -/
def twoFunclets : List UInt8 :=
  [0x00, 0x16, 0x7f, 0x02, 0x20, 0x00, 0x02, 0x40, 0x20, 0x00, 0x0d, 0x00, 0x00, 0x18, 0x01, 0x0b,
    0x20, 0x00, 0x19, 0x01, 0x0b, 0x0b, 0x0b]

def bareContext : Context := .ofSignature ⟨[], []⟩

theorem bareContext_valueTyped : bareContext.ValueTyped :=
  ⟨by simp [bareContext, Context.ofSignature], by simp [bareContext, Context.ofSignature],
    by simp [bareContext, Context.ofSignature], by simp [Signature.ValueTyped, bareContext, Context.ofSignature]⟩

def unaryContext : Context := .ofSignature ⟨[.i32], [.i32]⟩

theorem unaryContext_valueTyped : unaryContext.ValueTyped :=
  ⟨by simp [unaryContext, Context.ofSignature], by simp [unaryContext, Context.ofSignature],
    by simp [unaryContext, Context.ofSignature],
    by simp [Signature.ValueTyped, unaryContext, Context.ofSignature, ValueType.isValue,
      ValueType.values]⟩

theorem exists_of_isOk {ε α : Type} {x : Except ε α} (isOk : x.isOk = true) : ∃ a, x = .ok a := by
  cases x with
  | error _ => cases isOk
  | ok a => exact ⟨a, rfl⟩

theorem twoFunclets_valid : ∃ valid, validate unaryContext twoFunclets = .ok valid :=
  exists_of_isOk (by decide +kernel)

theorem twoFunclets_recorded : ∃ valid r funclet, validate unaryContext twoFunclets = .ok valid ∧
    r ∈ valid.regions ∧ r.funclets[1]? = some funclet := by
  obtain ⟨valid, accepted⟩ := twoFunclets_valid
  have found : ((validate unaryContext twoFunclets).toOption.bind fun valid =>
      valid.regions[0]?.bind fun r => r.funclets[1]?).isSome = true := by decide +kernel
  rw [accepted] at found
  change (valid.regions[0]?.bind fun r => r.funclets[1]?).isSome = true at found
  obtain ⟨funclet, found⟩ := Option.isSome_iff_exists.mp found
  obtain ⟨r, present, place⟩ := Option.bind_eq_some_iff.mp found
  exact ⟨valid, r, funclet, accepted, Array.mem_of_getElem? present, place⟩

/-- The function under construction as a validation leaves it, whether it succeeds or fails. -/
def remains (setting : Setting) (bytes : List UInt8) : Ssa.Builder :=
  match body setting bytes.length (initial bytes) with
  | .ok _ s => s.builder
  | .error _ s => s.builder

theorem offset_located (s : State) (error : ValidationError) : (located s error).offset.isSome := by
  unfold located
  cases error.offset <;> rfl

end WasmFunclets.Validation
