import WasmFunclets.Format
import WasmFunclets.Proofs.Decoding

/-! What readers accept. A reader is described by how the values that it yields are written: it
takes such bytes off the front and nothing else. -/

namespace WasmFunclets

namespace Encoding

theorem zero_written : Unsigned 32 0 [0x00] := @Unsigned.last 32 0x00 (by decide) (by decide)

end Encoding

open Attempt

/-- The reader accepts just what is written in the given way, and leaves what follows it. -/
def Parses {α : Type} (m : Attempt Cursor α) (written : α → List UInt8 → Prop) : Prop :=
  ∀ (c d : Cursor) (a : α), m c = .ok a d ↔
    ∃ e, written a e ∧ c.rest = e ++ d.rest ∧ d.offset = c.offset + e.length

section Parses

variable {α β : Type} {m : Attempt Cursor α} {written : α → List UInt8 → Prop}

theorem Cursor.eq_iff {c d : Cursor} : c = d ↔ c.rest = d.rest ∧ d.offset = c.offset := by
  cases c
  cases d
  simp only [Cursor.mk.injEq]
  exact ⟨fun ⟨a, b⟩ => ⟨b, a.symm⟩, fun ⟨a, b⟩ => ⟨b.symm, a⟩⟩

theorem Parses.congr {other : α → List UInt8 → Prop} (parses : Parses m written)
    (same : ∀ a e, written a e ↔ other a e) : Parses m other := by
  have equal : written = other := funext fun a => funext fun e => propext (same a e)
  exact equal ▸ parses

theorem parses_pure (a : α) : Parses (pure a) fun b e => b = a ∧ e = [] := by
  intro c d b
  rw [pure_ok, Cursor.eq_iff]
  constructor
  · rintro ⟨rfl, rest, offset⟩
    exact ⟨[], ⟨rfl, rfl⟩, rest, offset⟩
  · rintro ⟨_, ⟨rfl, rfl⟩, rest, offset⟩
    exact ⟨rfl, rest, offset⟩

theorem parses_bind {f : α → Attempt Cursor β} {further : α → β → List UInt8 → Prop}
    (first : Parses m written) (rest : ∀ a, Parses (f a) (further a)) :
    Parses (m >>= f) fun b e => ∃ a e₁ e₂, written a e₁ ∧ further a b e₂ ∧ e = e₁ ++ e₂ := by
  intro c d b
  rw [bind_ok]
  constructor
  · rintro ⟨a, u, read, ok⟩
    obtain ⟨e₁, one, split, offset⟩ := (first c u a).mp read
    obtain ⟨e₂, two, split', offset'⟩ := (rest a u d b).mp ok
    refine ⟨e₁ ++ e₂, ⟨a, e₁, e₂, one, two, rfl⟩, ?_, ?_⟩
    · rw [split, split', List.append_assoc]
    · rw [offset', offset, List.length_append, Nat.add_assoc]
  · rintro ⟨_, ⟨a, e₁, e₂, one, two, rfl⟩, split, offset⟩
    rw [List.append_assoc] at split
    rw [List.length_append, ← Nat.add_assoc] at offset
    refine ⟨a, ⟨c.offset + e₁.length, e₂ ++ d.rest⟩, (first c _ a).mpr ⟨e₁, one, split, rfl⟩,
      (rest a _ d b).mpr ⟨e₂, two, rfl, offset⟩⟩

theorem parses_require (p : Prop) [Decidable p] (cause : Cause) :
    Parses (require p cause) fun _ e => p ∧ e = [] := by
  intro c d x
  rw [require_ok, Cursor.eq_iff]
  constructor
  · rintro ⟨holds, rest, offset⟩
    exact ⟨[], ⟨holds, rfl⟩, rest, offset⟩
  · rintro ⟨_, ⟨holds, rfl⟩, rest, offset⟩
    exact ⟨holds, rest, offset⟩

theorem parses_reject (cause : Cause) :
    Parses (reject cause : Attempt Cursor α) fun _ _ => False := by
  intro c d a
  simp

theorem parses_ite {p : Prop} [Decidable p] {n : Attempt Cursor α} {other : α → List UInt8 → Prop}
    (yes : Parses m written) (no : Parses n other) :
    Parses (if p then m else n) fun a e => (p ∧ written a e) ∨ (¬ p ∧ other a e) := by
  split <;> rename_i holds <;> simp only [holds, not_true_eq_false, not_false_eq_true, true_and,
    false_and, or_false, false_or]
  · exact yes
  · exact no

theorem next_parses : Parses Cursor.next fun byte e => e = [byte] := by
  intro c d byte
  simp only [Cursor.next, get_bind_ok]
  cases rest : c.rest with
  | nil => simp
  | cons first others =>
      simp only [bind_ok, set_ok, pure_ok, exists_eq_left, List.singleton_append,
        List.length_singleton, List.cons.injEq]
      constructor
      · rintro ⟨_, _, rfl, rfl, rfl⟩
        exact ⟨⟨rfl, rfl⟩, rfl⟩
      · rintro ⟨⟨rfl, rfl⟩, offset⟩
        exact ⟨⟨⟩, _, rfl, rfl, by rw [← offset]⟩

def PrefixFree (written : α → List UInt8 → Prop) : Prop :=
  ∀ {a b : α} {e e' r r' : List UInt8}, written a e → written b e' → e ++ r = e' ++ r' →
    a = b ∧ e = e' ∧ r = r'

theorem Parses.prefixFree (parses : Parses m written) : PrefixFree written := by
  intro a b e e' r r' one two same
  have first := (parses ⟨0, e ++ r⟩ ⟨0 + e.length, r⟩ a).mpr ⟨e, one, rfl, rfl⟩
  have second := (parses ⟨0, e ++ r⟩ ⟨0 + e'.length, r'⟩ b).mpr ⟨e', two, same, rfl⟩
  rw [first] at second
  injection second with value cursor
  obtain rfl : r = r' := congrArg Cursor.rest cursor
  exact ⟨value, List.append_cancel_right same, rfl⟩

end Parses

namespace Encoding

theorem unsigned_last_iff {bits n : Nat} {e : List UInt8} (few : bits ≤ 7) :
    Unsigned bits n e ↔
      ∃ byte : UInt8, byte.toNat < 128 ∧ byte.toNat < Nat.pow 2 bits ∧ n = byte.toNat ∧
        e = [byte] := by
  constructor
  · intro written
    cases written with
    | last final fits => exact ⟨_, final, fits, rfl, rfl⟩
    | more left => omega
  · rintro ⟨byte, final, fits, rfl, rfl⟩
    exact .last final fits

theorem unsigned_more_iff {bits n : Nat} {e : List UInt8} (left : 0 < bits) :
    Unsigned (bits + 7) n e ↔ ∃ (byte : UInt8) (rest : List UInt8), e = byte :: rest ∧
      ((byte.toNat < 128 ∧ n = byte.toNat ∧ rest = []) ∨
        (128 ≤ byte.toNat ∧ ∃ high, Unsigned bits high rest ∧
          n = byte.toNat - 128 + 128 * high)) := by
  constructor
  · intro written
    cases written with
    | last final => exact ⟨_, _, rfl, .inl ⟨final, rfl, rfl⟩⟩
    | more _ continued high => exact ⟨_, _, rfl, .inr ⟨continued, _, high, rfl⟩⟩
  · rintro ⟨byte, rest, rfl, ⟨final, rfl, rfl⟩ | ⟨continued, high, written, rfl⟩⟩
    · refine .last final (Nat.lt_of_lt_of_le final ?_)
      calc
        128 = Nat.pow 2 7 := rfl
        _ ≤ Nat.pow 2 (bits + 7) := Nat.pow_le_pow_right (by omega) (by omega)
    · exact .more left continued written

theorem signed_last_iff {bits : Nat} {value : Int} {e : List UInt8} (few : bits ≤ 7) :
    Signed bits value e ↔
      ∃ byte : UInt8, byte.toNat < 128 ∧ (-2 ^ (bits - 1) ≤ Leb128.signedGroup byte.toNat ∧
        Leb128.signedGroup byte.toNat < 2 ^ (bits - 1)) ∧
          value = Leb128.signedGroup byte.toNat ∧ e = [byte] := by
  constructor
  · intro written
    cases written with
    | last final low high => exact ⟨_, final, ⟨low, high⟩, rfl, rfl⟩
    | more left => omega
  · rintro ⟨byte, final, ⟨low, high⟩, rfl, rfl⟩
    exact .last final low high

theorem signedGroup_bounds {payload : Nat} (final : payload < 128) :
    -64 ≤ Leb128.signedGroup payload ∧ Leb128.signedGroup payload < 64 := by
  unfold Leb128.signedGroup
  split <;> omega

theorem signed_more_iff {bits : Nat} {value : Int} {e : List UInt8} (left : 0 < bits) :
    Signed (bits + 7) value e ↔ ∃ (byte : UInt8) (rest : List UInt8), e = byte :: rest ∧
      ((byte.toNat < 128 ∧ value = Leb128.signedGroup byte.toNat ∧ rest = []) ∨
        (128 ≤ byte.toNat ∧ ∃ high, Signed bits high rest ∧
          value = byte.toNat - 128 + 128 * high)) := by
  constructor
  · intro written
    cases written with
    | last final => exact ⟨_, _, rfl, .inl ⟨final, rfl, rfl⟩⟩
    | more _ continued high => exact ⟨_, _, rfl, .inr ⟨continued, _, high, rfl⟩⟩
  · rintro ⟨byte, rest, rfl, ⟨final, rfl, rfl⟩ | ⟨continued, high, written, rfl⟩⟩
    · have wide : (64 : Int) ≤ 2 ^ (bits + 7 - 1) := by
        calc
          (64 : Int) = 2 ^ 6 := rfl
          _ ≤ 2 ^ (bits + 7 - 1) := by
            exact_mod_cast Nat.pow_le_pow_right (n := 2) (by omega) (by omega : 6 ≤ bits + 7 - 1)
      obtain ⟨low, high⟩ := signedGroup_bounds final
      exact .last final (by omega) (by omega)
    · exact .more left continued written

end Encoding

namespace Leb128

open Encoding

theorem fitsSigned_iff {bits : Nat} {value : Int} :
    fitsSigned bits value = true ↔ -2 ^ (bits - 1) ≤ value ∧ value < 2 ^ (bits - 1) := by
  simp only [fitsSigned, Bool.and_eq_true, decide_eq_true_eq]
  have limit : ((Nat.pow 2 (bits - 1) : Nat) : Int) = 2 ^ (bits - 1) := by
    exact_mod_cast rfl
  rw [limit]

theorem unsignedGroups_parses {last : Nat} (some_ : 0 < last) (few : last ≤ 7) (more : Nat) :
    Parses (unsignedGroups more last) (Unsigned (7 * more + last)) := by
  induction more with
  | zero =>
      refine (parses_bind next_parses fun byte => parses_ite
        (parses_bind (parses_require _ _) fun _ => parses_pure _) (parses_reject _)).congr ?_
      intro n e
      rw [Nat.mul_zero, Nat.zero_add, unsigned_last_iff few]
      simp only [fitsUnsigned, decide_eq_true_eq, and_false, or_false]
      constructor
      · rintro ⟨byte, _, _, rfl, ⟨final, _, _, _, ⟨fits, rfl⟩, ⟨rfl, rfl⟩, rfl⟩, rfl⟩
        exact ⟨byte, final, fits, rfl, rfl⟩
      · rintro ⟨byte, final, fits, rfl, rfl⟩
        exact ⟨byte, [byte], [], rfl, ⟨final, (), [], [], ⟨fits, rfl⟩, ⟨rfl, rfl⟩, rfl⟩, rfl⟩
  | succ more ih =>
      refine (parses_bind next_parses fun byte => parses_ite (parses_pure _)
        (parses_bind ih fun _ => parses_pure _)).congr ?_
      intro n e
      rw [Nat.mul_succ, Nat.add_right_comm, unsigned_more_iff (by omega)]
      constructor
      · rintro ⟨byte, _, _, rfl,
          ⟨final, rfl, rfl⟩ | ⟨continued, high, e, _, written, ⟨rfl, rfl⟩, rfl⟩, rfl⟩
        · exact ⟨byte, [], rfl, .inl ⟨final, rfl, rfl⟩⟩
        · exact ⟨byte, _, rfl, .inr ⟨Nat.not_lt.mp continued, high, by simpa using written, rfl⟩⟩
      · rintro ⟨byte, rest, rfl, ⟨final, rfl, rfl⟩ | ⟨continued, high, written, rfl⟩⟩
        · exact ⟨byte, [byte], [], rfl, .inl ⟨final, rfl, rfl⟩, rfl⟩
        · exact ⟨byte, [byte], rest, rfl, .inr ⟨Nat.not_lt.mpr continued, high, rest, [], written,
            ⟨rfl, rfl⟩, (List.append_nil _).symm⟩, rfl⟩

theorem signedGroups_parses {last : Nat} (some_ : 0 < last) (few : last ≤ 7) (more : Nat) :
    Parses (signedGroups more last) (Signed (7 * more + last)) := by
  induction more with
  | zero =>
      refine (parses_bind next_parses fun byte => parses_ite
        (parses_bind (parses_require _ _) fun _ => parses_pure _) (parses_reject _)).congr ?_
      intro n e
      rw [Nat.mul_zero, Nat.zero_add, signed_last_iff few]
      simp only [fitsSigned_iff, and_false, or_false]
      constructor
      · rintro ⟨byte, _, _, rfl, ⟨final, _, _, _, ⟨fits, rfl⟩, ⟨rfl, rfl⟩, rfl⟩, rfl⟩
        exact ⟨byte, final, fits, rfl, rfl⟩
      · rintro ⟨byte, final, fits, rfl, rfl⟩
        exact ⟨byte, [byte], [], rfl, ⟨final, (), [], [], ⟨fits, rfl⟩, ⟨rfl, rfl⟩, rfl⟩, rfl⟩
  | succ more ih =>
      refine (parses_bind next_parses fun byte => parses_ite (parses_pure _)
        (parses_bind ih fun _ => parses_pure _)).congr ?_
      intro n e
      rw [Nat.mul_succ, Nat.add_right_comm, signed_more_iff (by omega)]
      constructor
      · rintro ⟨byte, _, _, rfl,
          ⟨final, rfl, rfl⟩ | ⟨continued, high, e, _, written, ⟨rfl, rfl⟩, rfl⟩, rfl⟩
        · exact ⟨byte, [], rfl, .inl ⟨final, rfl, rfl⟩⟩
        · exact ⟨byte, _, rfl, .inr ⟨Nat.not_lt.mp continued, high, by simpa using written, rfl⟩⟩
      · rintro ⟨byte, rest, rfl, ⟨final, rfl, rfl⟩ | ⟨continued, high, written, rfl⟩⟩
        · exact ⟨byte, [byte], [], rfl, .inl ⟨final, rfl, rfl⟩, rfl⟩
        · exact ⟨byte, [byte], rest, rfl, .inr ⟨Nat.not_lt.mpr continued, high, rest, [], written,
            ⟨rfl, rfl⟩, (List.append_nil _).symm⟩, rfl⟩

theorem unsigned_parses {width : Nat} (some_ : 0 < width) :
    Parses (unsigned width) (Unsigned width) := by
  have groups := unsignedGroups_parses (Nat.succ_pos ((width - 1) % 7))
    (by omega) ((width - 1) / 7)
  rwa [show 7 * ((width - 1) / 7) + ((width - 1) % 7 + 1) = width by omega] at groups

theorem signed_parses {width : Nat} (some_ : 0 < width) :
    Parses (signed width) (Signed width) := by
  have groups := signedGroups_parses (Nat.succ_pos ((width - 1) % 7))
    (by omega) ((width - 1) / 7)
  rwa [show 7 * ((width - 1) / 7) + ((width - 1) % 7 + 1) = width by omega] at groups

end Leb128

end WasmFunclets
