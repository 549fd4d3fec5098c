import WasmFunclets.Proofs.Encoding.Readers

/-! Bytes are written in one way only: no line goes on where another one ends. -/

namespace WasmFunclets

namespace Encoding

theorem unsigned_free : PrefixFree (Unsigned 32) := Decode.index_parses.prefixFree

theorem signed_free (width : Nat) : PrefixFree (Signed width) := by
  intro a b e e' r r' one two same
  induction one generalizing b e' with
  | last final =>
      cases two with
      | last =>
          obtain ⟨rfl, rfl⟩ := List.cons.inj same
          exact ⟨rfl, rfl, rfl⟩
      | more _ continued =>
          obtain ⟨rfl, _⟩ := List.cons.inj same
          omega
  | more _ continued _ ih =>
      cases two with
      | last final =>
          obtain ⟨rfl, _⟩ := List.cons.inj same
          omega
      | more _ _ high =>
          obtain ⟨rfl, behind⟩ := List.cons.inj same
          obtain ⟨rfl, rfl, rfl⟩ := ih high behind
          exact ⟨rfl, rfl, rfl⟩

theorem type_free : PrefixFree OfType := (Decode.valueType_parses .invalidValueType).prefixFree

theorem blockType_head {type : BlockType} {e : List UInt8} (written : OfBlockType type e) :
    (∃ n, type = .index n ∧ Signed 33 n e) ∨
      ∃ byte, e = [byte] ∧ ((type = .empty ∧ ValueType.ofByte byte = .empty) ∨
        (type = .value (ValueType.ofByte byte) ∧ (ValueType.ofByte byte).isValue = true)) := by
  cases written with
  | empty => exact .inr ⟨_, rfl, .inl ⟨rfl, rfl⟩⟩
  | @value type known =>
      have back := ValueType.ofByte_byte known
      exact .inr ⟨_, rfl, .inr ⟨by rw [back], by rw [back, known]⟩⟩
  | index number => exact .inl ⟨_, rfl, number⟩

theorem blockType_free : PrefixFree OfBlockType := by
  intro a b e e' r r' one two same
  rcases blockType_head one with ⟨n, rfl, number⟩ | ⟨byte, rfl, first⟩ <;>
    rcases blockType_head two with ⟨m, rfl, number'⟩ | ⟨byte', rfl, second⟩
  · obtain ⟨equal, rest⟩ := signed_free _ number number' same
    exact ⟨by rw [Int.ofNat.inj equal], rest⟩
  · obtain ⟨head, _, rfl, other, unknown⟩ := Decode.signed_head number
    obtain rfl := (List.cons.inj same).1
    grind
  · obtain ⟨head, _, rfl, other, unknown⟩ := Decode.signed_head number'
    obtain rfl := (List.cons.inj same).1
    grind
  · obtain ⟨rfl, rfl⟩ := List.cons.inj same
    rcases first with ⟨rfl, mark⟩ | ⟨rfl, known⟩ <;>
      rcases second with ⟨rfl, mark'⟩ | ⟨rfl, known'⟩
    · exact ⟨rfl, rfl, rfl⟩
    · exact absurd mark fun empty => by simp [empty, ValueType.isValue, ValueType.values] at known'
    · exact absurd mark' fun empty => by simp [empty, ValueType.isValue, ValueType.values] at known
    · exact ⟨rfl, rfl, rfl⟩

theorem free_append {α β : Type} {first : α → List UInt8 → Prop}
    {second : β → List UInt8 → Prop} (free : PrefixFree first) (free' : PrefixFree second)
    {a a' : α} {b b' : β} {e₁ e₂ e₁' e₂' r r' : List UInt8} (one : first a e₁) (two : second b e₂)
    (one' : first a' e₁') (two' : second b' e₂')
    (same : (e₁ ++ e₂) ++ r = (e₁' ++ e₂') ++ r') :
    (a = a' ∧ b = b') ∧ e₁ ++ e₂ = e₁' ++ e₂' ∧ r = r' := by
  rw [List.append_assoc, List.append_assoc] at same
  obtain ⟨rfl, rfl, behind⟩ := free one one' same
  obtain ⟨rfl, rfl, rfl⟩ := free' two two' behind
  exact ⟨⟨rfl, rfl⟩, rfl, rfl⟩

theorem free_counted {α : Type} {written : α → List UInt8 → Prop} (free : PrefixFree written)
    {xs ys : List α} {n m : Nat} {c c' e e' r r' : List UInt8}
    (counts : n = m → xs.length = ys.length) (number : Unsigned 32 n c)
    (entries : Sequence written xs e) (number' : Unsigned 32 m c')
    (entries' : Sequence written ys e') (same : (c ++ e) ++ r = (c' ++ e') ++ r') :
    xs = ys ∧ c ++ e = c' ++ e' ∧ r = r' := by
  rw [List.append_assoc, List.append_assoc] at same
  obtain ⟨count, rfl, behind⟩ := unsigned_free number number' same
  obtain ⟨rfl, rfl, rfl⟩ := prefixFree_sequence free (counts count) entries entries' behind
  exact ⟨rfl, rfl, rfl⟩

theorem immediate_free (layout : Layout) : PrefixFree (OfImmediate layout) := by
  intro a b e e' r r' one two same
  -- The layout decides the form of both immediates.
  cases one with
  | nothing =>
      cases two
      exact ⟨rfl, rfl, same⟩
  | zero =>
      cases two
      exact ⟨rfl, rfl, (List.cons.inj same).2⟩
  | block block =>
      cases two with
      | block block' =>
          obtain ⟨rfl, rest⟩ := blockType_free block block' same
          exact ⟨rfl, rest⟩
  | number number =>
      cases two with
      | number number' =>
          obtain ⟨rfl, rest⟩ := unsigned_free number number' same
          exact ⟨rfl, rest⟩
  | integer integer =>
      cases two with
      | integer integer' =>
          obtain ⟨rfl, rest⟩ := signed_free _ integer integer' same
          exact ⟨rfl, rest⟩
  | bits size =>
      cases two with
      | bits size' =>
          obtain ⟨rfl, rfl⟩ := List.append_inj same (size.trans size'.symm)
          exact ⟨rfl, rfl, rfl⟩
  | type one known =>
      cases two with
      | type one' known' =>
          obtain ⟨⟨_, rfl⟩, rest⟩ := free_append unsigned_free type_free one known one' known' same
          exact ⟨rfl, rest⟩
  | access first second =>
      cases two with
      | access first' second' =>
          obtain ⟨⟨rfl, rfl⟩, rest⟩ :=
            free_append unsigned_free unsigned_free first second first' second' same
          exact ⟨rfl, rest⟩
  | labels size entries =>
      cases two with
      | labels size' entries' =>
          obtain ⟨items, rest⟩ :=
            free_counted unsigned_free (by simp) size entries size' entries' same
          obtain ⟨rfl, last⟩ := List.append_inj' items rfl
          exact ⟨by rw [(List.cons.inj last).1], rest⟩
  | delta delta =>
      cases two with
      | delta delta' =>
          obtain ⟨rfl, rest⟩ := signed_free _ delta delta' same
          exact ⟨rfl, rest⟩
  | deltas size entries =>
      cases two with
      | deltas size' entries' =>
          obtain ⟨items, rest⟩ :=
            free_counted (signed_free _) (by simp) size entries size' entries' same
          obtain ⟨rfl, last⟩ := List.append_inj' items rfl
          exact ⟨by rw [(List.cons.inj last).1], rest⟩
  | region block size =>
      cases two with
      | region block' size' =>
          obtain ⟨⟨rfl, rfl⟩, rest⟩ :=
            free_append blockType_free unsigned_free block size block' size' same
          exact ⟨rfl, rest⟩
  | header size types calls =>
      cases two with
      | header size' types' calls' =>
          rw [List.append_assoc, List.append_assoc _ _ r'] at same
          obtain ⟨rfl, equal, behind⟩ := free_counted type_free id size types size' types' same
          obtain ⟨rfl, rfl, rfl⟩ := unsigned_free calls calls' behind
          exact ⟨rfl, by rw [equal], rfl⟩

theorem line_free : PrefixFree OfLine := by
  intro a b e e' r r' one two same
  obtain ⟨operands, rfl, listed, written⟩ := Decode.ofLine_iff.mp one
  obtain ⟨operands', rfl, listed', written'⟩ := Decode.ofLine_iff.mp two
  obtain ⟨byte, behind⟩ := List.cons.inj same
  obtain ⟨opcode, immediate⟩ := a
  obtain ⟨other, immediate'⟩ := b
  rw [byte] at listed
  obtain rfl : opcode = other := Option.some.inj (listed.symm.trans listed')
  obtain ⟨rfl, rfl, rfl⟩ := immediate_free _ written written' behind
  exact ⟨rfl, rfl, rfl⟩

theorem line_ne_nil {line : Line} : ¬ OfLine line [] := by
  intro written
  obtain ⟨_, same, _⟩ := Decode.ofLine_iff.mp written
  cases same

theorem run_free : PrefixFree OfRun := by
  intro a b e e' r r' one two same
  obtain ⟨number, known⟩ := one
  obtain ⟨number', known'⟩ := two
  obtain ⟨⟨rfl, rfl⟩, rest⟩ := free_append unsigned_free type_free number known number' known' same
  exact ⟨rfl, rest⟩

theorem locals_free : PrefixFree OfLocals := by
  intro a b e e' r r' one two same
  obtain ⟨number, runs⟩ := one
  obtain ⟨number', runs'⟩ := two
  exact free_counted run_free id number runs number' runs' same

structure Piece where
  line : Line
  bytes : List UInt8
  written : OfLine line bytes

def join (pieces : List Piece) : List UInt8 := pieces.flatMap Piece.bytes

@[simp] theorem join_nil : join [] = [] := rfl

@[simp] theorem join_cons (p : Piece) (pieces : List Piece) :
    join (p :: pieces) = p.bytes ++ join pieces := rfl

@[simp] theorem join_append (pieces more : List Piece) :
    join (pieces ++ more) = join pieces ++ join more := List.flatMap_append

theorem Piece.bytes_ne_nil (p : Piece) : p.bytes ≠ [] := fun empty => line_ne_nil (empty ▸ p.written)

theorem join_injective {pieces others : List Piece} (same : join pieces = join others) :
    pieces = others := by
  induction pieces generalizing others with
  | nil =>
      cases others with
      | nil => rfl
      | cons q others => exact absurd (List.append_eq_nil_iff.mp same.symm).1 q.bytes_ne_nil
  | cons p pieces ih =>
      cases others with
      | nil => exact absurd (List.append_eq_nil_iff.mp same).1 p.bytes_ne_nil
      | cons q others =>
          obtain ⟨line, bytes, written⟩ := p
          obtain ⟨line', bytes', written'⟩ := q
          obtain ⟨rfl, rfl, rest⟩ := line_free written written' same
          rw [ih rest]

theorem join_prefix {pieces before : List Piece} {tail : List UInt8}
    (same : join pieces = join before ++ tail) : ∃ after, pieces = before ++ after ∧ join after = tail := by
  induction before generalizing pieces with
  | nil => exact ⟨pieces, rfl, same⟩
  | cons p before ih =>
      cases pieces with
      | nil =>
          rw [join_cons, List.append_assoc] at same
          exact absurd (List.append_eq_nil_iff.mp same.symm).1 p.bytes_ne_nil
      | cons q pieces =>
          obtain ⟨line, bytes, written⟩ := p
          obtain ⟨line', bytes', written'⟩ := q
          rw [join_cons, join_cons, List.append_assoc] at same
          obtain ⟨rfl, rfl, rest⟩ := line_free written' written same
          obtain ⟨after, rfl, behind⟩ := ih rest
          exact ⟨after, rfl, behind⟩

structure Split (bytes : List UInt8) where
  head : List UInt8
  runs : List (Nat × ValueType)
  pieces : List Piece
  locals : OfLocals runs head
  whole : bytes = head ++ join pieces

theorem Split.unique {bytes : List UInt8} (x y : Split bytes) : x = y := by
  obtain ⟨head, runs, pieces, locals, whole⟩ := x
  obtain ⟨head', runs', pieces', locals', whole'⟩ := y
  obtain ⟨rfl, rfl, rest⟩ := locals_free locals locals' (whole.symm.trans whole')
  obtain rfl := join_injective rest
  rfl

end Encoding

namespace Decode

theorem resolve_targets {scope : Scope} {g h : FuncletCalls} (leads : h.target? = g.target?)
    (line : Line) :
    resolve { scope with region := some h } line = resolve { scope with region := some g } line := by
  unfold resolve
  dsimp only [Option.bind_some]
  rw [leads]
  rfl

theorem head?_ne {line : Line} {e : List UInt8} (written : Encoding.OfLine line e)
    (inner : line.opcode.form ≠ .funcletSig) (rest : List UInt8) :
    (e ++ rest).head? ≠ some Opcode.funcletSigByte := by
  obtain ⟨operands, rfl, listed, _⟩ := ofLine_iff.mp written
  intro header
  rw [List.cons_append, List.head?_cons, Option.some.injEq] at header
  rw [header, funcletSig_listed] at listed
  exact inner (Option.some.inj listed ▸ rfl)

theorem instruction_line {scope : Scope} {line : Line} {e rest : List UInt8} {c d : Cursor}
    {i : Instruction} (written : Encoding.OfLine line e) (inner : line.opcode.form ≠ .funcletSig)
    (here : c.rest = e ++ rest) :
    instruction scope c = .ok i d ↔ resolve scope line = some i ∧
      d = ⟨c.offset + e.length, rest⟩ ∧ FuncletsBounded scope.setting i rest := by
  rw [instruction_ok]
  constructor
  · rintro ⟨⟨e', shown, split, offset⟩, within⟩
    rcases shown with ⟨line', written', found⟩ | ⟨_, rfl⟩
    · obtain ⟨rfl, rfl, behind⟩ := Encoding.line_free written written' (here.symm.trans split)
      rw [behind]
      exact ⟨found, Cursor.eq_iff.mpr ⟨rfl, offset.symm⟩, within⟩
    · obtain ⟨operands, rfl, listed, _⟩ := ofLine_iff.mp written
      have byte := (List.cons.inj (here.symm.trans split)).1
      rw [byte, funcletSig_listed] at listed
      exact absurd rfl (Option.some.inj listed ▸ inner)
  · rintro ⟨found, rfl, within⟩
    exact ⟨⟨e, .inl ⟨line, written, found⟩, here, rfl⟩, within⟩

end Decode

end WasmFunclets
