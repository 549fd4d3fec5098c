import WasmFunclets.Diagnostic
import WasmFunclets.Proofs.Ahead
import WasmFunclets.Proofs.Outlined

/-! A body that is accepted ends where its function does: with other bytes behind it, and with bytes
missing at its end, it is refused. -/

namespace WasmFunclets.Validation

open Attempt

variable {setting other : Setting} {context : Context} {bytes extra : List UInt8} {s t : State}

def State.followed (s : State) (extra : List UInt8) : State := s.ahead (s.cursor.rest ++ extra)

theorem rest_ne_nil_of_run {fuel : Nat} (ok : run setting fuel s = .ok () t)
    (isOpen : s.control ≠ #[]) : s.cursor.rest ≠ [] := by
  cases fuel with
  | zero => cases violate_ok.mp ok
  | succ fuel =>
      rw [run, get_bind_ok, if_neg (mt Array.isEmpty_iff.mp isOpen)] at ok
      obtain ⟨_, u, stepped, _⟩ := bind_ok.mp ok
      obtain ⟨i, c, decoded, _⟩ := step_ok_iff.mp stepped
      obtain ⟨⟨e, written, split, _⟩, _⟩ := Decode.instruction_ok.mp decoded
      rintro nothing
      rw [nothing] at split
      exact Decode.not_ofInstruction_nil ((List.append_eq_nil_iff.mp split.symm).1 ▸ written)

theorem step_followed (ok : step setting s = .ok () t) (ahead : t.control ≠ #[] → t.cursor.rest ≠ [])
    (extra : List UInt8) : step setting (s.followed extra) = .ok () (t.followed extra) := by
  refine step_behind rfl ok (List.append_nil s.cursor.rest).symm (List.append_nil t.cursor.rest).symm
    ?_ ?_
  · intro i c left decoded behind strict signature n opens
    have enough := (Decode.instruction_ok.mp decoded).2 strict signature n opens
    rw [behind, List.append_nil] at enough
    rw [List.length_append]
    exact Nat.le_add_right_of_le enough
  · intro nothing
    exact .inl (Decidable.byContradiction fun isOpen => ahead isOpen nothing)

theorem run_followed {fuel : Nat} (ok : run setting fuel s = .ok () t) (extra : List UInt8)
    (more : Nat) : run setting (fuel + more) (s.followed extra) = .ok () (t.followed extra) := by
  induction fuel generalizing s with
  | zero => cases violate_ok.mp ok
  | succ fuel ih =>
      rw [Nat.add_right_comm, run, get_bind_ok]
      rw [run, get_bind_ok] at ok
      have same : (s.followed extra).control = s.control := rfl
      rw [same]
      split at ok <;> rename_i closed
      · obtain ⟨_, rfl⟩ := pure_ok.mp ok
        rw [if_pos closed]
        rfl
      · rw [if_neg closed]
        obtain ⟨_, u, stepped, ran⟩ := bind_ok.mp ok
        exact bind_ok.mpr ⟨(), _, step_followed stepped (rest_ne_nil_of_run ran) extra, ih ran⟩

theorem openFunction_followed (ok : openFunction context (initial bytes) = .ok () s)
    (extra : List UInt8) :
    openFunction context (initial (bytes ++ extra)) = .ok () (s.followed extra) := by
  obtain ⟨runs, head, _, whole, _, _, reopens⟩ := openFunction_behind ok
  have again := reopens (s.cursor.rest ++ extra)
  rwa [← List.append_assoc, ← whole] at again

theorem Reached.withinBody (reached : Reached setting bytes s) : WithinBody bytes s.cursor := by
  induction reached with
  | opened ok => exact ((openFunction_onward _ bytes).of_ok ok).1
  | step _ _ ok ih => exact ih.behind ((step_onward setting _).of_ok ok).1

/-- A body that is accepted is refused with any bytes behind it, at the first of them. -/
theorem validate_followed {valid : ValidBody} (accepted : validateWith setting bytes = .ok valid)
    (more : extra ≠ []) : validateWith setting (bytes ++ extra) =
      .error (.invalid ⟨.trailingBytes, none, some bytes.length⟩) := by
  obtain ⟨s, t, opened, ran, empty, -⟩ := validateWith_ok_iff.mp accepted
  have nothing : t.cursor.rest = [] := List.isEmpty_iff.mp empty
  obtain ⟨reached, closed⟩ := reached_of_run (.opened opened) ran
  have regions : t.regions = [] := reached.loose.bottom (by simp [State.frames, closed])
  have place : t.cursor.offset = bytes.length := by
    rw [← reached.withinBody.total, nothing]
    rfl
  have opened' := openFunction_followed opened extra
  have ran' := run_followed ran extra extra.length
  rw [Nat.add_right_comm, ← List.length_append] at ran'
  have left : (t.followed extra).cursor.isEmpty = false := by
    simpa [State.followed, State.ahead, State.moved, Cursor.isEmpty, nothing] using more
  have refused : body setting (bytes ++ extra).length (initial (bytes ++ extra)) =
      .error (.invalid ⟨.trailingBytes, none, none⟩)
        { t.followed extra with start := t.cursor.offset } := by
    simp only [body, bind, EStateM.bind, opened', ran']
    change (require ((t.followed extra).cursor.isEmpty = true) .trailingBytes : Step Unit)
      { t.followed extra with start := t.cursor.offset } = _
    rw [require, if_neg (by rw [left]; exact Bool.false_ne_true)]
    rfl
  have unplaced : t.regions.head?.map (fun region => region.graph.current) = none := by
    rw [regions]
    rfl
  simp only [validateWith, refused, located]
  change Except.error (Fault.invalid ⟨_, t.regions.head?.map fun region => region.graph.current,
    some t.cursor.offset⟩) = _
  rw [unplaced, place]

/-- A body that is accepted is refused as malformed with any bytes behind it, at the first of them and
outside of all funclets, so that none of two bodies that are accepted is the start of the other. -/
theorem accepted_prefix_free (context : Context) (bytes : List UInt8) {valid : ValidBody}
    (accepted : validate context bytes = .ok valid) :
    (∀ extra, extra ≠ [] → ∃ error, validate context (bytes ++ extra) = .error (.invalid error) ∧
      error.diagnostic = ⟨some .malformedEncoding, "unexpected bytes after function end",
        some bytes.length, none, none, none⟩) ∧
    ∀ other valid', validate context other = .ok valid' → other <+: bytes ∨ bytes <+: other →
      other = bytes := by
  refine ⟨fun extra more => ⟨_, validate_followed accepted more, rfl⟩, ?_⟩
  rintro other valid' accepted' (⟨extra, rfl⟩ | ⟨extra, rfl⟩)
  · by_contra different
    have more : extra ≠ [] := by
      rintro rfl
      exact different (List.append_nil _).symm
    cases accepted.symm.trans (validate_followed accepted' more)
  · by_contra different
    have more : extra ≠ [] := by
      rintro rfl
      exact different (List.append_nil _)
    cases accepted'.symm.trans (validate_followed accepted more)

theorem accepted_prefix_free_twoFunclets :
    ∃ valid, validate unaryContext twoFunclets = .ok valid ∧
      ∃ error, validate unaryContext (twoFunclets ++ [Opcode.funcletSigByte]) =
        .error (.invalid error) ∧ error.offset = some 23 := by
  obtain ⟨valid, accepted⟩ := twoFunclets_valid
  obtain ⟨error, refused, same⟩ :=
    (accepted_prefix_free unaryContext twoFunclets accepted).1 [_] (List.cons_ne_nil _ _)
  exact ⟨valid, accepted, error, refused, congrArg Diagnostic.offset same⟩

end WasmFunclets.Validation
