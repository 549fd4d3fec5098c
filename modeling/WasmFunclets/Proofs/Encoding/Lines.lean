import WasmFunclets.Proofs.Encoding.Parses

/-! Bytes written as sequences of entries, and that a sequence is told from its bytes. -/

namespace WasmFunclets

namespace Encoding

theorem noLocals_written : OfLocals [] [0x00] := @OfLocals.mk [] [0x00] [] zero_written .nil

theorem end_written : OfLine ⟨⟨0x0b, "end", .close⟩, .nothing⟩ [0x0b] := .mk rfl .nothing

theorem drop_written : OfLine ⟨⟨0x1a, "drop", .drop⟩, .nothing⟩ [0x1a] := .mk rfl .nothing

theorem get_written : OfLine ⟨⟨0x20, "local.get", .localGet⟩, .number 0⟩ [0x20, 0x00] :=
  .mk rfl (.number zero_written)

theorem constant_written : OfLine ⟨⟨0x41, "i32.const", .i32Const⟩, .integer 0⟩ [0x41, 0x00] :=
  .mk rfl (.integer (@Signed.last 32 0x00 (by decide) (by decide) (by decide)))

theorem sequence_cons_iff {α : Type} {written : α → List UInt8 → Prop} {a : α} {items : List α}
    {e : List UInt8} : Sequence written (a :: items) e ↔
      ∃ first rest, written a first ∧ Sequence written items rest ∧ e = first ++ rest := by
  constructor
  · intro sequence
    cases sequence with
    | cons first others => exact ⟨_, _, first, others, rfl⟩
  · rintro ⟨first, rest, one, others, rfl⟩
    exact .cons one others

theorem sequence_nil_iff {α : Type} {written : α → List UInt8 → Prop} {e : List UInt8} :
    Sequence written [] e ↔ e = [] := by
  constructor
  · intro sequence
    cases sequence
    rfl
  · rintro rfl
    exact .nil

theorem sequence_append_iff {α : Type} {written : α → List UInt8 → Prop} {items others : List α}
    {e : List UInt8} : Sequence written (items ++ others) e ↔
      ∃ first rest, Sequence written items first ∧ Sequence written others rest ∧
        e = first ++ rest := by
  induction items generalizing e with
  | nil => simp [sequence_nil_iff]
  | cons a items ih =>
      simp only [List.cons_append, sequence_cons_iff, ih]
      constructor
      · rintro ⟨first, _, one, ⟨second, rest, two, others, rfl⟩, rfl⟩
        exact ⟨first ++ second, rest, ⟨first, second, one, two, rfl⟩, others, by simp⟩
      · rintro ⟨_, rest, ⟨first, second, one, two, rfl⟩, others, rfl⟩
        exact ⟨first, second ++ rest, one, ⟨second, rest, two, others, rfl⟩, by simp⟩

theorem sequence_singleton_iff {α : Type} {written : α → List UInt8 → Prop} {a : α}
    {e : List UInt8} : Sequence written [a] e ↔ written a e := by
  simp [sequence_cons_iff, sequence_nil_iff]

theorem prefixFree_sequence {α : Type} {written : α → List UInt8 → Prop}
    (free : PrefixFree written) {items others : List α} {e e' r r' : List UInt8}
    (size : items.length = others.length) (one : Sequence written items e)
    (two : Sequence written others e') (same : e ++ r = e' ++ r') :
    items = others ∧ e = e' ∧ r = r' := by
  induction one generalizing others e' with
  | nil =>
      obtain rfl := List.eq_nil_of_length_eq_zero size.symm
      obtain rfl := sequence_nil_iff.mp two
      exact ⟨rfl, rfl, same⟩
  | cons first rest ih =>
      cases two with
      | nil => cases size
      | cons first' rest' =>
          rw [List.append_assoc, List.append_assoc] at same
          obtain ⟨rfl, rfl, behind⟩ := free first first' same
          obtain ⟨rfl, rfl, equal⟩ := ih (Nat.succ.inj size) rest' behind
          exact ⟨rfl, rfl, equal⟩

theorem unsigned_ne_nil {bits n : Nat} : ¬ Unsigned bits n [] := nofun

theorem signed_ne_nil {bits : Nat} {value : Int} : ¬ Signed bits value [] := nofun

theorem type_ne_nil {type : ValueType} : ¬ OfType type [] := nofun

theorem locals_ne_nil {runs : List (Nat × ValueType)} : ¬ OfLocals runs [] := by
  intro written
  generalize none_ : [] = bytes at written
  cases written with
  | mk size declared => exact unsigned_ne_nil ((List.append_eq_nil_iff.mp none_.symm).1 ▸ size)

theorem sequence_length_le {α : Type} {written : α → List UInt8 → Prop}
    (some_ : ∀ a, ¬ written a []) {items : List α} {e : List UInt8}
    (sequence : Sequence written items e) : items.length ≤ e.length := by
  induction sequence with
  | nil => exact Nat.le_refl _
  | @cons a items e rest first others ih =>
      have pos : 0 < e.length := by
        rw [List.length_pos_iff]
        rintro rfl
        exact some_ a first
      rw [List.length_cons, List.length_append]
      omega

end Encoding

end WasmFunclets
