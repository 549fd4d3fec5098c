import Mathlib.Algebra.Ring.Nat
import WasmFunclets.Proofs.Encoding.Parses

/-! The values that bytes stand for, worked out from their payload bits alone, and that the readers
take just the bytes that stand for a value of their width: the shortest ones and the padded ones. -/

namespace WasmFunclets

namespace Leb128

def Terminated (e : List UInt8) : Prop :=
  ∃ (init : List UInt8) (last : UInt8), e = init ++ [last] ∧ (∀ byte ∈ init, 128 ≤ byte.toNat) ∧
    last.toNat < 128

def payload : List UInt8 → Nat
  | [] => 0
  | byte :: rest => byte.toNat % 128 + 128 * payload rest

def signedPayload (e : List UInt8) : Int := (BitVec.ofNat (7 * e.length) (payload e)).toInt

def InUnsignedRange (bits value : Nat) : Prop := value < 2 ^ bits

def InSignedRange (bits : Nat) (value : Int) : Prop :=
  -2 ^ (bits - 1) ≤ value ∧ value < 2 ^ (bits - 1)

def maxBytes (width : Nat) : Nat := (width + 6) / 7

theorem Terminated.length_pos {e : List UInt8} (terminated : Terminated e) : 0 < e.length := by
  obtain ⟨init, last, rfl, -, -⟩ := terminated
  simp

theorem terminated_singleton {byte : UInt8} : Terminated [byte] ↔ byte.toNat < 128 := by
  constructor
  · rintro ⟨init, last, same, -, final⟩
    have whole : [] ++ [byte] = init ++ [last] := same
    obtain ⟨-, equal⟩ := List.append_inj' whole rfl
    exact (List.cons.inj equal).1 ▸ final
  · intro final
    exact ⟨[], byte, rfl, by simp, final⟩

theorem terminated_cons {byte : UInt8} {rest : List UInt8} (more : rest ≠ []) :
    Terminated (byte :: rest) ↔ 128 ≤ byte.toNat ∧ Terminated rest := by
  constructor
  · rintro ⟨init, last, same, continued, final⟩
    cases init with
    | nil => exact absurd (List.cons.inj same).2 more
    | cons first init =>
        obtain ⟨rfl, rfl⟩ := List.cons.inj same
        exact ⟨continued byte List.mem_cons_self, init, last, rfl,
          fun b inside => continued b (List.mem_cons_of_mem _ inside), final⟩
  · rintro ⟨first, init, last, rfl, continued, final⟩
    exact ⟨byte :: init, last, rfl, List.forall_mem_cons.mpr ⟨first, continued⟩, final⟩

theorem payload_lt (e : List UInt8) : payload e < 2 ^ (7 * e.length) := by
  induction e with
  | nil => simp [payload]
  | cons byte rest ih =>
      rw [payload, List.length_cons, Nat.mul_succ, Nat.pow_add]
      omega

theorem signedPayload_eq (e : List UInt8) :
    signedPayload e = if 2 * payload e < 2 ^ (7 * e.length) then (payload e : Int)
      else payload e - 2 ^ (7 * e.length) := by
  rw [signedPayload, BitVec.toInt_eq_toNat_cond, BitVec.toNat_ofNat, Nat.mod_eq_of_lt (payload_lt e)]
  push_cast
  rfl

theorem signedPayload_singleton {byte : UInt8} (final : byte.toNat < 128) :
    signedPayload [byte] = signedGroup byte.toNat := by
  rw [signedPayload_eq, signedGroup]
  simp only [payload, List.length_singleton, Nat.mul_zero, Nat.add_zero, Nat.mod_eq_of_lt final]
  have seven : (2 : Nat) ^ (7 * 1) = 128 ∧ (2 : Int) ^ (7 * 1) = 128 := ⟨rfl, rfl⟩
  rw [seven.1, seven.2]
  split <;> split <;> omega

theorem signedPayload_cons {byte : UInt8} {rest : List UInt8} (more : rest ≠ [])
    (continued : 128 ≤ byte.toNat) :
    signedPayload (byte :: rest) = byte.toNat - 128 + 128 * signedPayload rest := by
  have small : byte.toNat < 256 := byte.toNat_lt
  -- The bound is even, so that half of it splits the values of the rest as it does all values.
  obtain ⟨half, even⟩ : ∃ half, 2 ^ (7 * rest.length) = 2 * half := by
    have some_ := List.length_pos_iff.mpr more
    exact ⟨2 ^ (7 * rest.length - 1), by rw [← Nat.pow_succ']; congr 1; omega⟩
  have bound := payload_lt rest
  rw [signedPayload_eq, signedPayload_eq, payload, List.length_cons, Nat.mul_succ, Nat.pow_add, even]
  have cast : (2 : Int) ^ (7 * rest.length + 7) = 2 * half * 128 := by
    rw [pow_add]
    exact_mod_cast congrArg (fun n : Nat => (n : Int) * 128) even
  rw [cast]
  have cast' : (2 : Int) ^ (7 * rest.length) = 2 * half := by exact_mod_cast even
  rw [cast']
  rw [even] at bound
  split <;> split <;> push_cast <;> omega

theorem unsigned_iff {width v : Nat} {e : List UInt8} (some_ : 0 < width) :
    Encoding.Unsigned width v e ↔
      Terminated e ∧ e.length ≤ maxBytes width ∧ payload e = v ∧ InUnsignedRange width v := by
  unfold maxBytes InUnsignedRange
  constructor
  · intro written
    induction written with
    | last final fits =>
        refine ⟨terminated_singleton.mpr final, ?_, ?_, fits⟩
        · simp only [List.length_singleton]
          omega
        · simp only [payload]
          omega
    | @more bits n byte rest left continued high ih =>
        obtain ⟨terminated, few, rfl, fits⟩ := ih left
        have more := List.length_pos_iff.mp terminated.length_pos
        have small : byte.toNat < 256 := byte.toNat_lt
        refine ⟨(terminated_cons more).mpr ⟨continued, terminated⟩, ?_, ?_, ?_⟩
        · simp only [List.length_cons]
          omega
        · simp only [payload]
          omega
        · rw [Nat.pow_add]
          omega
  · rintro ⟨terminated, few, rfl, fits⟩
    induction e generalizing width with
    | nil => exact absurd terminated.length_pos (Nat.lt_irrefl 0)
    | cons byte rest ih =>
        have small : byte.toNat < 256 := byte.toNat_lt
        rcases eq_or_ne rest [] with rfl | more
        · have final := terminated_singleton.mp terminated
          simp only [payload, Nat.mul_zero, Nat.add_zero, Nat.mod_eq_of_lt final] at fits ⊢
          exact .last final fits
        -- a continued group leaves a width of seven bits less, which the length shows to be positive
        · obtain ⟨continued, terminated⟩ := (terminated_cons more).mp terminated
          have length := terminated.length_pos
          obtain ⟨bits, rfl, left⟩ : ∃ bits, width = bits + 7 ∧ 0 < bits := by
            refine ⟨width - 7, ?_, ?_⟩ <;> simp only [List.length_cons] at few <;> omega
          simp only [payload, Nat.pow_add] at fits
          have high := ih left terminated
            (by simp only [List.length_cons] at few; omega) (by omega)
          have value : payload (byte :: rest) = byte.toNat - 128 + 128 * payload rest := by
            simp only [payload]
            omega
          rw [value]
          exact .more left continued high

theorem signed_iff {width : Nat} {v : Int} {e : List UInt8} (some_ : 0 < width) :
    Encoding.Signed width v e ↔
      Terminated e ∧ e.length ≤ maxBytes width ∧ signedPayload e = v ∧ InSignedRange width v := by
  unfold maxBytes InSignedRange
  have wider (bits : Nat) (left : 0 < bits) : (2 : Int) ^ (bits + 7 - 1) = 128 * 2 ^ (bits - 1) := by
    rw [show bits + 7 - 1 = 7 + (bits - 1) by omega, pow_add]
    rfl
  constructor
  · intro written
    induction written with
    | last final low high =>
        refine ⟨terminated_singleton.mpr final, ?_, signedPayload_singleton final, low, high⟩
        simp only [List.length_singleton]
        omega
    | @more bits n byte rest left continued high ih =>
        obtain ⟨terminated, few, rfl, low, high⟩ := ih left
        have more := List.length_pos_iff.mp terminated.length_pos
        have small : byte.toNat < 256 := byte.toNat_lt
        refine ⟨(terminated_cons more).mpr ⟨continued, terminated⟩, ?_,
          signedPayload_cons more continued, ?_⟩
        · simp only [List.length_cons]
          omega
        · rw [wider bits left]
          omega
  · rintro ⟨terminated, few, rfl, low, high⟩
    induction e generalizing width with
    | nil => exact absurd terminated.length_pos (Nat.lt_irrefl 0)
    | cons byte rest ih =>
        have small : byte.toNat < 256 := byte.toNat_lt
        rcases eq_or_ne rest [] with rfl | more
        · have final := terminated_singleton.mp terminated
          rw [signedPayload_singleton final] at low high ⊢
          exact .last final low high
        · obtain ⟨continued, terminated⟩ := (terminated_cons more).mp terminated
          have length := terminated.length_pos
          obtain ⟨bits, rfl, left⟩ : ∃ bits, width = bits + 7 ∧ 0 < bits := by
            refine ⟨width - 7, ?_, ?_⟩ <;> simp only [List.length_cons] at few <;> omega
          rw [signedPayload_cons more continued] at low high ⊢
          rw [wider bits left] at low high
          exact .more left continued (ih left terminated
            (by simp only [List.length_cons] at few; omega) (by omega) (by omega))

def padded : Nat → Nat → List UInt8
  | 0, v => [UInt8.ofNat v]
  | more + 1, v => UInt8.ofNat (v % 128 + 128) :: padded more (v / 128)

theorem length_padded (more v : Nat) : (padded more v).length = more + 1 := by
  induction more generalizing v with
  | zero => rfl
  | succ more ih => rw [padded, List.length_cons, ih]

theorem padded_ne_nil (more v : Nat) : padded more v ≠ [] :=
  List.length_pos_iff.mp (length_padded more v ▸ Nat.succ_pos more)

theorem terminated_padded {more v : Nat} (fits : v < 2 ^ (7 * (more + 1))) :
    Terminated (padded more v) := by
  induction more generalizing v with
  | zero =>
      refine terminated_singleton.mpr ?_
      rw [UInt8.toNat_ofNat']
      omega
  | succ more ih =>
      refine (terminated_cons (padded_ne_nil _ _)).mpr ⟨?_, ih ?_⟩
      · rw [UInt8.toNat_ofNat']
        omega
      · rw [Nat.mul_succ, Nat.pow_add] at fits
        omega

theorem payload_padded {more v : Nat} (fits : v < 2 ^ (7 * (more + 1))) :
    payload (padded more v) = v := by
  induction more generalizing v with
  | zero =>
      simp only [padded, payload, UInt8.toNat_ofNat']
      omega
  | succ more ih =>
      rw [Nat.mul_succ, Nat.pow_add] at fits
      rw [padded, payload, ih (by omega), UInt8.toNat_ofNat']
      omega

theorem eq_of_payload_eq {e e' : List UInt8} (one : Terminated e) (other : Terminated e')
    (length : e.length = e'.length) (same : payload e = payload e') : e = e' := by
  induction e generalizing e' with
  | nil => exact absurd one.length_pos (Nat.lt_irrefl 0)
  | cons byte rest ih =>
      cases e' with
      | nil => exact absurd length (Nat.succ_ne_zero _)
      | cons byte' rest' =>
          simp only [payload] at same
          have small : byte.toNat < 256 := byte.toNat_lt
          have small' : byte'.toNat < 256 := byte'.toNat_lt
          rcases eq_or_ne rest [] with rfl | more
          · obtain rfl : rest' = [] := by simpa using length.symm
            have final := terminated_singleton.mp one
            have final' := terminated_singleton.mp other
            rw [show byte = byte' from UInt8.toNat_inj.mp (by omega)]
          · have more' : rest' ≠ [] := by
              rintro rfl
              exact more (by simpa using length)
            obtain ⟨continued, one⟩ := (terminated_cons more).mp one
            obtain ⟨continued', other⟩ := (terminated_cons more').mp other
            rw [show byte = byte' from UInt8.toNat_inj.mp (by omega),
              ih one other (by simpa using length) (by omega)]

/-- Every value that the bytes have room for is written with just so many of them. -/
def WritesEvery {α : Type} (value : List UInt8 → α) (range : Nat → α → Prop) : Prop :=
  ∀ (v : α) (n : Nat), 0 < n → range (7 * n) v →
    ∃! e, Terminated e ∧ e.length = n ∧ value e = v

theorem payload_writesEvery : WritesEvery payload InUnsignedRange := by
  intro v n some_ fits
  obtain ⟨more, rfl⟩ := Nat.exists_eq_add_one.mpr some_
  refine ⟨padded more v, ⟨terminated_padded fits, length_padded more v, payload_padded fits⟩, ?_⟩
  rintro e ⟨terminated, length, value⟩
  exact eq_of_payload_eq terminated (terminated_padded fits) (length.trans (length_padded more v).symm)
    (value.trans (payload_padded fits).symm)

theorem signedPayload_writesEvery : WritesEvery signedPayload InSignedRange := by
  intro v n some_ ⟨low, high⟩
  obtain ⟨e, ⟨terminated, length, value⟩, only⟩ :=
    payload_writesEvery (BitVec.ofInt (7 * n) v).toNat n some_ (BitVec.isLt _)
  refine ⟨e, ⟨terminated, length, ?_⟩, ?_⟩
  · subst length
    rw [signedPayload, value, BitVec.ofNat_toNat, BitVec.setWidth_eq]
    exact BitVec.toInt_ofInt_eq_self (by omega) low high
  · rintro e' ⟨terminated', length', value'⟩
    subst length'
    refine only e' ⟨terminated', rfl, ?_⟩
    rw [← value', signedPayload, BitVec.ofInt_toInt, BitVec.toNat_ofNat,
      Nat.mod_eq_of_lt (payload_lt e')]

def IsMalformed (e : Fault) : Prop :=
  ∃ cause, e = .invalid ⟨cause, none, none⟩ ∧ cause.kind = .malformedEncoding

open Attempt

theorem next_malformed (c : Cursor) :
    Ends Cursor.next c (fun _ _ => True) fun e _ => IsMalformed e := by
  simp only [Cursor.next, ends_bind, ends_get]
  cases c.rest with
  | nil => exact ⟨_, rfl, rfl⟩
  | cons byte rest => trivial

theorem unsignedGroups_malformed (more last : Nat) (c : Cursor) :
    Ends (unsignedGroups more last) c (fun _ _ => True) fun e _ => IsMalformed e := by
  induction more generalizing c with
  | zero =>
      rw [unsignedGroups, ends_bind]
      refine (next_malformed c).imp fun byte d _ => ?_
      simp only [ends_ite, ends_bind, ends_require, ends_pure, ends_reject]
      exact ⟨fun _ => ⟨fun _ => trivial, fun _ => ⟨_, rfl, rfl⟩⟩, fun _ => ⟨_, rfl, rfl⟩⟩
  | succ more ih =>
      rw [unsignedGroups, ends_bind]
      refine (next_malformed c).imp fun byte d _ => ?_
      simp only [ends_ite, ends_bind, ends_pure]
      exact ⟨fun _ => trivial, fun _ => ih d⟩

theorem signedGroups_malformed (more last : Nat) (c : Cursor) :
    Ends (signedGroups more last) c (fun _ _ => True) fun e _ => IsMalformed e := by
  induction more generalizing c with
  | zero =>
      rw [signedGroups, ends_bind]
      refine (next_malformed c).imp fun byte d _ => ?_
      simp only [ends_ite, ends_bind, ends_require, ends_pure, ends_reject]
      exact ⟨fun _ => ⟨fun _ => trivial, fun _ => ⟨_, rfl, rfl⟩⟩, fun _ => ⟨_, rfl, rfl⟩⟩
  | succ more ih =>
      rw [signedGroups, ends_bind]
      refine (next_malformed c).imp fun byte d _ => ?_
      simp only [ends_ite, ends_bind, ends_pure]
      exact ⟨fun _ => trivial, fun _ => ih d⟩

section Exact

variable {α : Type}

/-- The first bytes, so many of them, are an encoding of a value of the width. -/
def Spells (value : List UInt8 → α) (range : Nat → α → Prop) (width : Nat) (bytes : List UInt8) (v : α)
    (n : Nat) : Prop :=
  n ≤ bytes.length ∧ n ≤ maxBytes width ∧ Terminated (bytes.take n) ∧ value (bytes.take n) = v ∧
    range width v

def cursorAt (body : List UInt8) (place : Nat) : Cursor := ⟨place, body.drop place⟩

/-- The reader takes just the encodings of the values of a width, wherever it stands in a body. -/
structure ReadsExactly (read : Attempt Cursor α) (value : List UInt8 → α)
    (range : Nat → α → Prop) (width : Nat) : Prop where
  reads : ∀ (body : List UInt8) (place : Nat), place ≤ body.length → ∀ (v : α) (n : Nat),
    read (cursorAt body place) = .ok v (cursorAt body (place + n)) ↔
      Spells value range width (body.drop place) v n
  refuses : ∀ (body : List UInt8) (place : Nat), place ≤ body.length →
    (¬ ∃ v n, Spells value range width (body.drop place) v n) →
    ∃ e d, read (cursorAt body place) = .error e d ∧ IsMalformed e
  stays : ∀ (body : List UInt8) (place : Nat), place ≤ body.length →
    ∃ n, place + n ≤ body.length ∧ after read (cursorAt body place) = cursorAt body (place + n)
  readsBack : ∀ (v : α), range width v → ∀ e, Terminated e → e.length ≤ maxBytes width →
    value e = v → ∀ (before behind : List UInt8),
      read (cursorAt (before ++ e ++ behind) before.length) =
        .ok v (cursorAt (before ++ e ++ behind) (before.length + e.length))
  writes : WritesEvery value range

variable {read : Attempt Cursor α} {value : List UInt8 → α} {range : Nat → α → Prop} {width : Nat}

theorem cursorAt_append (before e behind : List UInt8) :
    cursorAt (before ++ e ++ behind) before.length = ⟨before.length, e ++ behind⟩ ∧
      cursorAt (before ++ e ++ behind) (before.length + e.length) =
        ⟨before.length + e.length, behind⟩ := by
  constructor
  · rw [cursorAt, List.append_assoc, List.drop_left]
  · rw [cursorAt, ← List.length_append, List.drop_left]

theorem eq_cursorAt_of_behind {body : List UInt8} {place : Nat} {d : Cursor}
    (inside : place ≤ body.length) (behind : (cursorAt body place).Behind d) :
    ∃ n, place + n ≤ body.length ∧ d = cursorAt body (place + n) := by
  obtain ⟨onward, total, suffix⟩ := behind
  simp only [cursorAt, List.length_drop] at onward total suffix
  refine ⟨d.offset - place, by omega, Cursor.eq_iff.mpr ⟨?_, ?_⟩⟩
  · obtain ⟨taken, split⟩ := suffix
    have length := congrArg List.length split
    rw [List.length_append, List.length_drop] at length
    rw [cursorAt, ← List.drop_drop, ← split, show d.offset - place = taken.length by omega,
      List.drop_left]
  · simp only [cursorAt]
    omega

theorem readsExactly_of_parses
    (parses : Parses read fun v e =>
      Terminated e ∧ e.length ≤ maxBytes width ∧ value e = v ∧ range width v)
    (onward : ReadsOnward read) (malformed : ∀ c, Ends read c (fun _ _ => True) fun e _ => IsMalformed e)
    (writes : WritesEvery value range) : ReadsExactly read value range width := by
  have reads (body : List UInt8) (place : Nat) (inside : place ≤ body.length) (v : α) (n : Nat) :
      read (cursorAt body place) = .ok v (cursorAt body (place + n)) ↔
        Spells value range width (body.drop place) v n := by
    rw [parses]
    constructor
    · rintro ⟨e, ⟨terminated, few, same, fits⟩, split, offset⟩
      obtain rfl : n = e.length := Nat.add_left_cancel offset
      have taken : (body.drop place).take e.length = e := by
        rw [show body.drop place = _ from split, List.take_left]
      refine ⟨?_, few, taken.symm ▸ terminated, taken.symm ▸ same, fits⟩
      rw [show body.drop place = _ from split, List.length_append]
      exact Nat.le_add_right _ _
    · rintro ⟨available, few, terminated, same, fits⟩
      have length : ((body.drop place).take n).length = n := List.length_take_of_le available
      refine ⟨(body.drop place).take n, ⟨terminated, length.symm ▸ few, same, fits⟩, ?_, ?_⟩
      · simp only [cursorAt]
        rw [← List.drop_drop, List.take_append_drop]
      · simp only [cursorAt, length]
  refine ⟨reads, ?_, ?_, ?_, writes⟩
  · intro body place inside none_
    cases outcome : read (cursorAt body place) with
    | ok v d =>
        obtain ⟨n, -, rfl⟩ := eq_cursorAt_of_behind inside (onward.of_ok outcome)
        exact absurd ⟨v, n, (reads body place inside v n).mp outcome⟩ none_
    | error e d => exact ⟨e, d, rfl, (malformed _).of_error outcome⟩
  · intro body place inside
    refine eq_cursorAt_of_behind inside (Ends.after ((onward _).mono (fun _ _ h => h) ?_))
    exact fun _ _ failed => failed.2
  · intro v fits e terminated few same before behind
    obtain ⟨here, there⟩ := cursorAt_append before e behind
    rw [here, there, parses]
    exact ⟨e, ⟨terminated, few, same, fits⟩, rfl, rfl⟩

end Exact

/-- The readers of unsigned and of signed integers accept exactly the encodings of the values of
their width, refuse everything else as malformed and never leave the body. -/
theorem readers_exact (width : Nat) (some_ : 0 < width) :
    ReadsExactly (unsigned width) payload InUnsignedRange width ∧
      ReadsExactly (signed width) signedPayload InSignedRange width := by
  constructor
  · exact readsExactly_of_parses
      ((unsigned_parses some_).congr fun _ _ => unsigned_iff some_) (unsignedGroups_readsOnward _ _)
      (unsignedGroups_malformed _ _) payload_writesEvery
  · exact readsExactly_of_parses
      ((signed_parses some_).congr fun _ _ => signed_iff some_) (signedGroups_readsOnward _ _)
      (signedGroups_malformed _ _) signedPayload_writesEvery

theorem readers_exact_at_33 :
    0 < 33 ∧ ReadsExactly (signed 33) signedPayload InSignedRange 33 ∧
      signed 33 (cursorAt [0x80, 0x80, 0x80, 0x80, 0x70, 0x0b] 0) =
        .ok (-2 ^ 32) (cursorAt [0x80, 0x80, 0x80, 0x80, 0x70, 0x0b] 5) := by
  have exact_ := (readers_exact 33 (by decide)).2
  refine ⟨by decide, exact_, (exact_.reads _ 0 (by decide) _ 5).mpr ?_⟩
  refine ⟨by decide, by decide, ⟨[0x80, 0x80, 0x80, 0x80], 0x70, rfl, by simp, by decide⟩, ?_, ?_⟩
  · decide
  · exact ⟨by decide, by decide⟩

end Leb128

end WasmFunclets
