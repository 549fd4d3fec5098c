import WasmFunclets.Proofs.Encoding.Lines

/-! The readers of a body accept its binary format, and read an instruction for each line. -/

namespace WasmFunclets

open Attempt

namespace Decode

open Encoding

variable {setting : Setting} {scope : Scope}

theorem index_parses : Parses index (Unsigned 32) := Leb128.unsigned_parses (by decide)

theorem known_parses {α : Type} (entity : Entity) (found : Option α) :
    Parses (known entity found) fun a e => found = some a ∧ e = [] := by
  cases found with
  | none => exact (parses_reject _).congr (by simp)
  | some b => exact (parses_pure b).congr (by simp [eq_comm])

theorem valueType_parses (cause : Cause) : Parses (valueType cause) OfType := by
  refine (parses_bind next_parses fun byte => parses_bind (parses_require _ _) fun _ =>
    parses_pure _).congr fun type e => ?_
  constructor
  · rintro ⟨byte, _, _, rfl, ⟨_, _, _, ⟨known, rfl⟩, ⟨rfl, rfl⟩, rfl⟩, rfl⟩
    have bytes := ValueType.byte_ofByte byte
    have written := OfType.mk known
    rwa [bytes] at written
  · rintro ⟨known⟩
    have same := ValueType.ofByte_byte known
    exact ⟨type.byte, _, [], rfl, ⟨(), [], [], ⟨by rwa [same], rfl⟩, ⟨same.symm, rfl⟩, rfl⟩, rfl⟩

theorem entries_parses {α : Type} {entry : Attempt Cursor α} {written : α → List UInt8 → Prop}
    (parses : Parses entry written) (n : Nat) (done : List α) :
    Parses (entries entry n done) fun items e =>
      ∃ more, items = done.reverse ++ more ∧ more.length = n ∧ Sequence written more e := by
  induction n generalizing done with
  | zero =>
      refine (parses_pure _).congr fun items e => ?_
      constructor
      · rintro ⟨rfl, rfl⟩
        exact ⟨[], (List.append_nil _).symm, rfl, .nil⟩
      · rintro ⟨more, rfl, none_, sequence⟩
        obtain rfl := List.eq_nil_of_length_eq_zero none_
        exact ⟨List.append_nil _, sequence_nil_iff.mp sequence⟩
  | succ n ih =>
      refine (parses_bind parses fun a => ih (a :: done)).congr fun items e => ?_
      constructor
      · rintro ⟨a, e₁, e₂, one, ⟨more, rfl, size, sequence⟩, rfl⟩
        exact ⟨a :: more, by simp, by simp [size], .cons one sequence⟩
      · rintro ⟨more, rfl, size, sequence⟩
        cases sequence with
        | nil => cases size
        | cons first others =>
            exact ⟨_, _, _, first, ⟨_, by simp, Nat.succ.inj size, others⟩, rfl⟩

theorem count_lax (lax : setting.strict = false) (extra : Nat) (cause : Cause) :
    count setting extra cause = index := by
  simp [count, lax]

theorem count_ok {extra n : Nat} {cause : Cause} {c d : Cursor} :
    count setting extra cause c = .ok n d ↔
      index c = .ok n d ∧ (setting.strict = true → n + extra ≤ d.rest.length) := by
  cases strict : setting.strict with
  | false => simp [count, strict]
  | true =>
      simp only [count, strict, if_true, Cursor.boundedBy, bind_ok, get_ok, require_ok, pure_ok,
        Cursor.hasLeft, Cursor.atLeast_iff, forall_const]
      constructor
      · rintro ⟨_, _, read, _, _, ⟨_, _, ⟨rfl, rfl⟩, enough, rfl⟩, rfl, rfl⟩
        exact ⟨read, enough⟩
      · rintro ⟨read, enough⟩
        exact ⟨n, d, read, (), d, ⟨d, d, ⟨rfl, rfl⟩, enough, rfl⟩, rfl, rfl⟩

def OfTable (written : Nat → List UInt8 → Prop) (read : List Nat × Nat) (e : List UInt8) : Prop :=
  ∃ size entries, Unsigned 32 read.1.length size ∧ Sequence written (read.1 ++ [read.2]) entries ∧
    e = size ++ entries

theorem table_lax (lax : setting.strict = false) {entry : Attempt Cursor Nat}
    {written : Nat → List UInt8 → Prop} (parses : Parses entry written) :
    Parses (table setting entry) (OfTable written) := by
  have same : table setting entry = (do
      let n ← index
      let listed ← entries entry n []
      return (listed, ← entry)) := by
    simp only [table, count_lax lax]
  rw [same]
  refine (parses_bind index_parses fun n => parses_bind (entries_parses parses n [])
    fun listed => parses_bind parses fun last => parses_pure (listed, last)).congr ?_
  rintro ⟨listed, last⟩ e
  simp only [OfTable, List.reverse_nil, List.nil_append, sequence_append_iff,
    sequence_singleton_iff, Prod.mk.injEq]
  constructor
  · rintro ⟨_, size, _, number, ⟨_, e₁, _, ⟨_, rfl, rfl, many⟩,
      ⟨_, e₂, _, one, ⟨⟨rfl, rfl⟩, rfl⟩, rfl⟩, rfl⟩, rfl⟩
    exact ⟨size, e₁ ++ e₂, number, ⟨e₁, e₂, many, one, rfl⟩, by simp⟩
  · rintro ⟨size, _, number, ⟨e₁, e₂, many, one, rfl⟩, rfl⟩
    exact ⟨listed.length, size, e₁ ++ e₂, number, ⟨listed, e₁, e₂, ⟨listed, rfl, rfl, many⟩,
      ⟨last, e₂, [], one, ⟨⟨rfl, rfl⟩, rfl⟩, (List.append_nil _).symm⟩, rfl⟩, rfl⟩

theorem table_parses (setting : Setting) {entry : Attempt Cursor Nat}
    {written : Nat → List UInt8 → Prop} (parses : Parses entry written)
    (some_ : ∀ n, ¬ written n []) : Parses (table setting entry) (OfTable written) := by
  intro c d read
  have lax : ({ setting with strict := false } : Setting).strict = false := rfl
  rw [← table_lax lax parses c d read]
  simp only [table, bind_ok, count_ok]
  refine exists₂_congr fun n u => and_congr_left fun ⟨listed, v, many, last, w, one, _⟩ =>
    and_congr_right fun _ => ?_
  obtain ⟨e, ⟨more, rfl, rfl, sequence⟩, split, _⟩ :=
    (entries_parses parses n [] u v listed).mp many
  obtain ⟨e', written', split', _⟩ := (parses v w last).mp one
  have enough := sequence_length_le some_ sequence
  have pos : 0 < e'.length := by
    rw [List.length_pos_iff]
    rintro rfl
    exact some_ last written'
  rw [split, split', List.length_append, List.length_append]
  exact iff_of_true (fun _ => by omega) nofun

theorem label_parses (scope : Scope) :
    Parses (label scope) fun depth e => depth < scope.labels ∧ Unsigned 32 depth e := by
  refine (parses_bind index_parses fun depth => parses_bind (parses_require _ _) fun _ =>
    parses_pure depth).congr fun depth e => ?_
  constructor
  · rintro ⟨_, e, _, number, ⟨_, _, _, ⟨known, rfl⟩, ⟨rfl, rfl⟩, rfl⟩, rfl⟩
    exact ⟨known, by simpa using number⟩
  · rintro ⟨known, number⟩
    exact ⟨depth, e, [], number, ⟨(), [], [], ⟨known, rfl⟩, ⟨rfl, rfl⟩, rfl⟩,
      (List.append_nil e).symm⟩

theorem localIndex_parses (scope : Scope) :
    Parses (localIndex scope) fun found e =>
      scope.locals[found.1]? = some found.2 ∧ Unsigned 32 found.1 e := by
  refine (parses_bind index_parses fun slot => parses_bind (known_parses _ _) fun type =>
    parses_pure (slot, type)).congr ?_
  rintro ⟨slot, type⟩ e
  simp only [Prod.mk.injEq]
  constructor
  · rintro ⟨_, e, _, number, ⟨_, _, _, ⟨known, rfl⟩, ⟨⟨rfl, rfl⟩, rfl⟩, rfl⟩, rfl⟩
    exact ⟨known, by simpa using number⟩
  · rintro ⟨known, number⟩
    exact ⟨slot, e, [], number, ⟨type, [], [], ⟨known, rfl⟩, ⟨⟨rfl, rfl⟩, rfl⟩, rfl⟩,
      (List.append_nil e).symm⟩

theorem signed_head {n : Nat} {e : List UInt8} (written : Signed 33 n e) :
    ∃ byte rest, e = byte :: rest ∧ ValueType.ofByte byte ≠ .empty ∧
      (ValueType.ofByte byte).isValue = false := by
  have other (byte : UInt8) (positive : byte.toNat < 64 ∨ 128 ≤ byte.toNat) :
      ValueType.ofByte byte ≠ .empty ∧ (ValueType.ofByte byte).isValue = false := by
    unfold ValueType.ofByte
    split <;> simp_all [ValueType.isValue, ValueType.values]
  obtain ⟨byte, rest, rfl, ⟨final, value, _⟩ | ⟨continued, _⟩⟩ :=
    (signed_more_iff (show 0 < 26 by decide)).mp written
  · refine ⟨byte, rest, rfl, other byte (.inl ?_)⟩
    unfold Leb128.signedGroup at value
    split at value <;> omega
  · exact ⟨byte, rest, rfl, other byte (.inr continued)⟩

theorem peek_bind_ok {α : Type} {f : UInt8 → Attempt Cursor α} {c d : Cursor} {a : α} :
    (Cursor.peek >>= f) c = .ok a d ↔
      ∃ byte rest, c.rest = byte :: rest ∧ f byte c = .ok a d := by
  rw [bind_ok]
  unfold Cursor.peek
  cases rest : c.rest with
  | nil => simp only [get_bind_ok, rest, reject_ok, false_and, exists_false, reduceCtorEq]
  | cons first others =>
      simp only [get_bind_ok, rest, pure_ok, List.cons.injEq, and_assoc, exists_and_left,
        exists_eq_left']

theorem blockType_parses (scope : Scope) :
    Parses (blockType scope) fun signature e =>
      ∃ type, OfBlockType type e ∧ signatureOf (context scope) type = some signature := by
  have numbered : Parses (do
      let number ← Leb128.signed 33
      require (0 ≤ number) .invalidBlockType
      known .type (context scope).types[number.toNat]?) fun signature e =>
        ∃ n : Nat, Signed 33 n e ∧ (context scope).types[n]? = some signature := by
    refine (parses_bind (Leb128.signed_parses (by decide)) fun number =>
      parses_bind (parses_require _ _) fun _ => known_parses _ _).congr fun signature e => ?_
    constructor
    · rintro ⟨number, e, _, written, ⟨_, _, _, ⟨positive, rfl⟩, ⟨found, rfl⟩, rfl⟩, rfl⟩
      obtain ⟨n, rfl⟩ := Int.eq_ofNat_of_zero_le positive
      exact ⟨n, by simpa using written, found⟩
    · rintro ⟨n, written, found⟩
      exact ⟨n, e, [], written, ⟨(), [], [], ⟨Int.natCast_nonneg n, rfl⟩, ⟨found, rfl⟩, rfl⟩,
        (List.append_nil e).symm⟩
  have taken (signature : Signature) : Parses (do
      let _ ← Cursor.next
      pure signature) fun found e => found = signature ∧ ∃ byte, e = [byte] :=
    (parses_bind next_parses fun _ => parses_pure signature).congr fun found e => by grind
  intro c d signature
  have same : blockType scope = Cursor.peek >>= fun byte =>
      if ValueType.ofByte byte = .empty then (do
        let _ ← Cursor.next
        pure ⟨[], []⟩)
      else if (ValueType.ofByte byte).isValue = true then (do
        let _ ← Cursor.next
        pure ⟨[], [ValueType.ofByte byte]⟩)
      else (do
        let number ← Leb128.signed 33
        require (0 ≤ number) .invalidBlockType
        known .type (context scope).types[number.toNat]?) := rfl
  -- The first byte decides which of the three forms is read, and only an index reads more than it.
  have choice (byte : UInt8) := parses_ite (p := ValueType.ofByte byte = .empty) (taken ⟨[], []⟩)
    (parses_ite (p := (ValueType.ofByte byte).isValue = true)
      (taken ⟨[], [ValueType.ofByte byte]⟩) numbered)
  rw [same, peek_bind_ok]
  constructor
  · rintro ⟨byte, rest, split, ok⟩
    obtain ⟨e, chosen, equal, offset⟩ := (choice byte c d signature).mp ok
    refine ⟨e, ?_, equal, offset⟩
    rw [split] at equal
    rcases chosen with ⟨mark, rfl, _, rfl⟩ | ⟨_, ⟨isValue, rfl, _, rfl⟩ | ⟨_, n, written, found⟩⟩
    · obtain ⟨rfl, _⟩ := List.cons.inj equal
      refine ⟨.empty, ?_, rfl⟩
      rw [← ValueType.byte_ofByte byte, mark]
      exact .empty
    · obtain ⟨rfl, _⟩ := List.cons.inj equal
      refine ⟨.value (ValueType.ofByte byte), ?_, rfl⟩
      have written := OfBlockType.value isValue
      rwa [ValueType.byte_ofByte] at written
    · exact ⟨.index n, .index written, found⟩
  · rintro ⟨e, ⟨type, written, found⟩, split, offset⟩
    cases written with
    | empty =>
        refine ⟨_, _, split, (choice _ c d signature).mpr
          ⟨_, .inl ⟨rfl, ?_, _, rfl⟩, split, offset⟩⟩
        exact (Option.some.inj found).symm
    | @value type known =>
        have back := ValueType.ofByte_byte known
        refine ⟨_, _, split, (choice _ c d signature).mpr
          ⟨_, .inr ⟨?_, .inl ⟨?_, ?_, _, rfl⟩⟩, split, offset⟩⟩
        · rw [back]
          rintro rfl
          cases known
        · rwa [back]
        · rw [back]
          exact (Option.some.inj found).symm
    | @index n e number =>
        obtain ⟨byte, rest, rfl, other, unknown⟩ := signed_head number
        refine ⟨byte, rest ++ d.rest, split, (choice _ c d signature).mpr
          ⟨_, .inr ⟨other, .inr ⟨by simp [unknown], n, number, found⟩⟩, split, offset⟩⟩

theorem resolveDelta_parses (graph : FuncletCalls) (delta : Int) :
    Parses (graph.resolveDelta delta) fun target e =>
      graph.target? delta = some target ∧ e = [] := by
  unfold FuncletCalls.resolveDelta
  split <;> rename_i found
  · exact (parses_pure _).congr (by simp [found, eq_comm])
  · exact (parses_reject _).congr (by simp [found])

def OfTarget (graph : FuncletCalls) (target : Nat) (e : List UInt8) : Prop :=
  ∃ delta, Signed 32 delta e ∧ graph.target? delta = some target

theorem target_parses (graph : FuncletCalls) :
    Parses (do graph.resolveDelta (← Leb128.signed 32)) (OfTarget graph) := by
  refine (parses_bind (Leb128.signed_parses (by decide)) fun delta =>
    resolveDelta_parses graph delta).congr fun target e => ?_
  constructor
  · rintro ⟨delta, e, _, written, ⟨found, rfl⟩, rfl⟩
    exact ⟨delta, by simpa using written, found⟩
  · rintro ⟨delta, written, found⟩
    exact ⟨delta, e, [], written, ⟨found, rfl⟩, (List.append_nil e).symm⟩

theorem openRegion_parses (scope : Scope) :
    Parses (openRegion scope) fun graph e => scope.region = some graph ∧ e = [] := by
  unfold openRegion
  split <;> rename_i found
  · exact (parses_pure _).congr (by simp [found, eq_comm])
  · exact (parses_reject _).congr (by simp [found])

theorem callTarget_parses (scope : Scope) :
    Parses (callTarget scope) fun target e => ∃ graph, scope.region = some graph ∧
      OfTarget graph target e := by
  refine (parses_bind (Leb128.signed_parses (by decide)) fun delta =>
    parses_bind (openRegion_parses scope) fun graph => resolveDelta_parses graph delta).congr
      fun target e => ?_
  constructor
  · rintro ⟨delta, e, _, written, ⟨graph, _, _, ⟨open_, rfl⟩, ⟨found, rfl⟩, rfl⟩, rfl⟩
    exact ⟨graph, open_, delta, by simpa using written, found⟩
  · rintro ⟨graph, open_, delta, written, found⟩
    exact ⟨delta, e, [], written, ⟨graph, [], [], ⟨open_, rfl⟩, ⟨found, rfl⟩, rfl⟩,
      (List.append_nil e).symm⟩

/-- An access to memory that the context has, aligned at most as its width asks for. -/
def Accessible (scope : Scope) (natural alignment : Nat) : Prop :=
  (context scope).hasMemory = true ∧ alignment < 32 ∧ Nat.pow 2 alignment ≤ natural

instance (scope : Scope) (natural alignment : Nat) :
    Decidable (Accessible scope natural alignment) :=
  inferInstanceAs (Decidable (_ ∧ _ ∧ _))

theorem memoryOffset_parses (scope : Scope) (natural : Nat) :
    Parses (memoryOffset scope natural) fun bits e => ∃ alignment offset e₁ e₂,
      Unsigned 32 alignment e₁ ∧ Unsigned 32 offset e₂ ∧ Accessible scope natural alignment ∧
        bits = UInt64.ofNat offset ∧ e = e₁ ++ e₂ := by
  refine (parses_bind index_parses fun alignment => parses_bind (parses_require _ _) fun _ =>
    parses_bind (parses_require _ _) fun _ => parses_bind (parses_require _ _) fun _ =>
      parses_bind index_parses fun offset => parses_pure _).congr fun bits e => ?_
  constructor
  · rintro ⟨alignment, e₁, _, first, ⟨_, _, _, ⟨memory, rfl⟩, ⟨_, _, _, ⟨small, rfl⟩,
      ⟨_, _, _, ⟨natural, rfl⟩, ⟨offset, e₂, _, second, ⟨rfl, rfl⟩, rfl⟩, rfl⟩, rfl⟩, rfl⟩, rfl⟩
    exact ⟨alignment, offset, e₁, e₂, first, second, ⟨memory, small, natural⟩, rfl, by simp⟩
  · rintro ⟨alignment, offset, e₁, e₂, first, second, ⟨memory, small, natural⟩, rfl, rfl⟩
    exact ⟨alignment, e₁, e₂, first, ⟨(), [], e₂, ⟨memory, rfl⟩, ⟨(), [], e₂, ⟨small, rfl⟩,
      ⟨(), [], e₂, ⟨natural, rfl⟩, ⟨offset, e₂, [], second, ⟨rfl, rfl⟩, (List.append_nil e₂).symm⟩,
        rfl⟩, rfl⟩, rfl⟩, rfl⟩

theorem zeroMemory_parses (scope : Scope) :
    Parses (zeroMemory scope) fun _ e => (context scope).hasMemory = true ∧ e = [0] := by
  refine (parses_bind next_parses fun byte => parses_bind (parses_require _ _) fun _ =>
    parses_require _ _).congr fun _ e => ?_
  constructor
  · rintro ⟨byte, _, _, rfl, ⟨_, _, _, ⟨rfl, rfl⟩, ⟨memory, rfl⟩, rfl⟩, rfl⟩
    exact ⟨memory, rfl⟩
  · rintro ⟨memory, rfl⟩
    exact ⟨0, [0], [], rfl, ⟨(), [], [], ⟨rfl, rfl⟩, ⟨memory, rfl⟩, rfl⟩, rfl⟩

theorem takeMany_parses (n : Nat) :
    Parses (Cursor.takeMany n) fun bytes e => bytes.length = n ∧ e = bytes := by
  intro c d bytes
  simp only [Cursor.takeMany, Cursor.peekMany, bind_ok, get_ok, require_ok, pure_ok, modify_ok,
    Cursor.hasLeft, Cursor.atLeast_iff]
  constructor
  · rintro ⟨_, _, ⟨_, _, ⟨rfl, rfl⟩, _, _, ⟨enough, rfl⟩, rfl, rfl⟩, _, _, rfl, rfl, rfl⟩
    have size : (c.rest.take n).length = n := List.length_take_of_le enough
    exact ⟨_, ⟨size, rfl⟩, (List.take_append_drop n c.rest).symm, by rw [size]; rfl⟩
  · rintro ⟨bytes, ⟨rfl, rfl⟩, split, offset⟩
    refine ⟨bytes, c, ⟨c, c, ⟨rfl, rfl⟩, (), c, ⟨by simp [split], rfl⟩, by simp [split], rfl⟩,
      (), d, ?_, rfl, rfl⟩
    exact (Cursor.eq_iff.mpr ⟨by simp [Cursor.advance, split], offset⟩)

/-- What a line stands for where it is read; a header stands for nothing by itself. -/
def resolve (scope : Scope) (line : Line) : Option Instruction :=
  let opcode := line.opcode
  let slot (n : Nat) (make : Nat → ValueType → Instruction) : Option Instruction :=
    scope.locals[n]?.map (make n)
  match opcode.form, line.immediate with
  | .unreachable, .nothing => some .unreachable
  | .nop, .nothing => some .nop
  | .block, .block type => (signatureOf (context scope) type).map .block
  | .loop, .block type => (signatureOf (context scope) type).map .loop
  | .ifThen, .block type => (signatureOf (context scope) type).map .ifThen
  | .elseThen, .nothing => some .elseThen
  | .close, .nothing => some .close
  | .br, .number depth => some (.br depth)
  | .brIf, .number depth => some (.brIf depth)
  | .brTable, .labels depths default =>
      if ∀ depth ∈ depths ++ [default], depth < scope.labels then some (.brTable depths default)
      else none
  | .ret, .nothing => some .ret
  | .call, .number n => (context scope).functions[n]?.map (.call n)
  | .drop, .nothing => some .drop
  | .select, .nothing => some .select
  | .selectTyped, .type type => some (.selectTyped type)
  | .localGet, .number n => slot n .localGet
  | .localSet, .number n => slot n .localSet
  | .localTee, .number n => slot n .localTee
  | .globalGet, .number n =>
      (context scope).globals[n]?.map fun global =>
        .operation opcode.byte [] global.type (UInt64.ofNat n)
  | .globalSet, .number n =>
      ((context scope).globals[n]?.filter GlobalType.isMutable).map fun global =>
        .operation opcode.byte [global.type] .null (UInt64.ofNat n)
  | .memorySize, .nothing =>
      if (context scope).hasMemory then some (.operation opcode.byte [] .i32 0) else none
  | .memoryGrow, .nothing =>
      if (context scope).hasMemory then some (.operation opcode.byte [.i32] .i32 0) else none
  | .i32Const, .integer value => some (.constant .i32 (wordBits 32 value))
  | .i64Const, .integer value => some (.constant .i64 (wordBits 64 value))
  | .f32Const, .bits bytes => some (.constant .f32 (UInt64.ofNat (littleEndian bytes)))
  | .f64Const, .bits bytes => some (.constant .f64 (UInt64.ofNat (littleEndian bytes)))
  | .load natural type, .access alignment offset =>
      if Accessible scope natural alignment then
        some (.operation opcode.byte [.i32] type (UInt64.ofNat offset))
      else none
  | .store natural type, .access alignment offset =>
      if Accessible scope natural alignment then
        some (.operation opcode.byte [.i32, type] .null (UInt64.ofNat offset))
      else none
  | .unary operand result, .nothing => some (.operation opcode.byte [operand] result 0)
  | .binary operand result, .nothing => some (.operation opcode.byte [operand, operand] result 0)
  | .funcletRegion, .region type funclets =>
      if funclets = 0 then none
      else (signatureOf (context scope) type).map fun signature => .funcletRegion signature funclets
  | .funcletCall, .integer delta => (scope.region.bind (·.target? delta)).map .funcletCall
  | .funcletCallIf, .integer delta => (scope.region.bind (·.target? delta)).map .funcletCallIf
  | .funcletCallTable, .deltas deltas default =>
      scope.region.bind fun graph => do
        return .funcletCallTable (← deltas.mapM graph.target?) (← graph.target? default)
  | _, _ => none

/-- The instructions that an opcode stands for, with what is written behind it. -/
def OfOperands (scope : Scope) (opcode : Opcode) (i : Instruction) (e : List UInt8) : Prop :=
  ∃ immediate, OfImmediate opcode.form.layout immediate e ∧
    resolve scope ⟨opcode, immediate⟩ = some i

section Operands

variable {opcode : Opcode}

theorem parses_return {α : Type} {m : Attempt Cursor α} {written : α → List UInt8 → Prop}
    (parses : Parses m written) (make : α → Instruction) :
    Parses (do return make (← m)) fun i e => ∃ a, written a e ∧ i = make a := by
  refine (parses_bind parses fun a => parses_pure (make a)).congr fun i e => ?_
  constructor
  · rintro ⟨a, e, _, one, ⟨rfl, rfl⟩, rfl⟩
    exact ⟨a, by simpa using one, rfl⟩
  · rintro ⟨a, one, rfl⟩
    exact ⟨a, e, [], one, ⟨rfl, rfl⟩, (List.append_nil e).symm⟩

theorem plain_parses {i : Instruction} (layout : opcode.form.layout = .nothing)
    (meaning : resolve scope ⟨opcode, .nothing⟩ = some i) :
    Parses (pure i) (OfOperands scope opcode) := by
  refine (parses_pure i).congr fun j e => ?_
  unfold OfOperands
  rw [layout]
  constructor
  · rintro ⟨rfl, rfl⟩
    exact ⟨.nothing, .nothing, meaning⟩
  · rintro ⟨_, ⟨⟩, found⟩
    exact ⟨(Option.some.inj (meaning.symm.trans found)).symm, rfl⟩

theorem block_parses {make : Signature → Instruction} (layout : opcode.form.layout = .block)
    (meaning : ∀ type, resolve scope ⟨opcode, .block type⟩ =
      (signatureOf (context scope) type).map make) :
    Parses (do return make (← blockType scope)) (OfOperands scope opcode) := by
  refine (parses_return (blockType_parses scope) make).congr fun i e => ?_
  unfold OfOperands
  rw [layout]
  constructor
  · rintro ⟨signature, ⟨type, written, found⟩, rfl⟩
    exact ⟨_, .block written, by rw [meaning, found]; rfl⟩
  · rintro ⟨_, ⟨⟩, found⟩
    rename_i type written
    obtain ⟨signature, known, rfl⟩ := Option.map_eq_some_iff.mp ((meaning type).symm.trans found)
    exact ⟨signature, ⟨type, written, known⟩, rfl⟩

theorem number_parses {α : Type} {m : Nat → Attempt Cursor α} {f : Nat → α → Instruction}
    {look : Nat → Option α} (layout : opcode.form.layout = .number)
    (parses : ∀ n, Parses (m n) fun a e => look n = some a ∧ e = [])
    (meaning : ∀ n, resolve scope ⟨opcode, .number n⟩ = (look n).map (f n)) :
    Parses (do
      let n ← index
      return f n (← m n)) (OfOperands scope opcode) := by
  refine (parses_bind index_parses fun n => parses_return (parses n) (f n)).congr fun i e => ?_
  unfold OfOperands
  rw [layout]
  constructor
  · rintro ⟨n, e, _, number, ⟨a, ⟨found, rfl⟩, rfl⟩, rfl⟩
    refine ⟨_, .number (by simpa using number), ?_⟩
    rw [meaning, found, Option.map_some]
  · rintro ⟨_, ⟨⟩, found⟩
    rename_i n number
    obtain ⟨a, known, rfl⟩ := Option.map_eq_some_iff.mp ((meaning n).symm.trans found)
    exact ⟨n, e, [], number, ⟨a, ⟨known, rfl⟩, rfl⟩, (List.append_nil e).symm⟩

theorem zero_parses {i : Instruction} (layout : opcode.form.layout = .zero)
    (meaning : resolve scope ⟨opcode, .nothing⟩ =
      if (context scope).hasMemory then some i else none) :
    Parses (do
      zeroMemory scope
      return i) (OfOperands scope opcode) := by
  refine (parses_bind (zeroMemory_parses scope) fun _ => parses_pure i).congr fun j e => ?_
  unfold OfOperands
  rw [layout]
  constructor
  · rintro ⟨_, _, _, ⟨memory, rfl⟩, ⟨rfl, rfl⟩, rfl⟩
    exact ⟨.nothing, .zero, by rw [meaning, if_pos memory]⟩
  · rintro ⟨_, ⟨⟩, found⟩
    rw [meaning] at found
    split at found <;> rename_i memory
    · exact ⟨(), _, [], ⟨memory, rfl⟩, ⟨(Option.some.inj found).symm, rfl⟩, rfl⟩
    · cases found

theorem integer_parses {width : Nat} {make : Int → Instruction} (some_ : 0 < width)
    (layout : opcode.form.layout = .integer width)
    (meaning : ∀ value, resolve scope ⟨opcode, .integer value⟩ = some (make value)) :
    Parses (do return make (← Leb128.signed width)) (OfOperands scope opcode) := by
  refine (parses_return (Leb128.signed_parses some_) make).congr fun i e => ?_
  unfold OfOperands
  rw [layout]
  constructor
  · rintro ⟨value, written, rfl⟩
    exact ⟨_, .integer written, meaning value⟩
  · rintro ⟨_, ⟨⟩, found⟩
    rename_i value written
    exact ⟨value, written, (Option.some.inj ((meaning value).symm.trans found)).symm⟩

theorem bits_parses {size : Nat} {make : List UInt8 → Instruction}
    (layout : opcode.form.layout = .bits size)
    (meaning : ∀ bytes, resolve scope ⟨opcode, .bits bytes⟩ = some (make bytes)) :
    Parses (do return make (← Cursor.takeMany size)) (OfOperands scope opcode) := by
  refine (parses_return (takeMany_parses size) make).congr fun i e => ?_
  unfold OfOperands
  rw [layout]
  constructor
  · rintro ⟨bytes, ⟨size, rfl⟩, rfl⟩
    exact ⟨_, .bits size, meaning e⟩
  · rintro ⟨_, ⟨⟩, found⟩
    rename_i size
    exact ⟨e, ⟨size, rfl⟩, (Option.some.inj ((meaning e).symm.trans found)).symm⟩

theorem access_parses {natural : Nat} {make : UInt64 → Instruction}
    (layout : opcode.form.layout = .access)
    (meaning : ∀ alignment offset, resolve scope ⟨opcode, .access alignment offset⟩ =
      if Accessible scope natural alignment then some (make (UInt64.ofNat offset)) else none) :
    Parses (do return make (← memoryOffset scope natural)) (OfOperands scope opcode) := by
  refine (parses_return (memoryOffset_parses scope natural) make).congr fun i e => ?_
  unfold OfOperands
  rw [layout]
  constructor
  · rintro ⟨_, ⟨alignment, offset, e₁, e₂, first, second, aligned, rfl, rfl⟩, rfl⟩
    exact ⟨_, .access first second, by rw [meaning, if_pos aligned]⟩
  · rintro ⟨_, ⟨⟩, found⟩
    rename_i alignment offset e₁ e₂ first second
    rw [meaning] at found
    split at found <;> rename_i aligned
    · exact ⟨_, ⟨alignment, offset, e₁, e₂, first, second, aligned, rfl, rfl⟩,
        (Option.some.inj found).symm⟩
    · cases found

theorem delta_parses {make : Nat → Instruction} (layout : opcode.form.layout = .delta)
    (meaning : ∀ delta, resolve scope ⟨opcode, .integer delta⟩ =
      (scope.region.bind (·.target? delta)).map make) :
    Parses (do return make (← callTarget scope)) (OfOperands scope opcode) := by
  refine (parses_return (callTarget_parses scope) make).congr fun i e => ?_
  unfold OfOperands
  rw [layout]
  constructor
  · rintro ⟨target, ⟨graph, region, delta, written, found⟩, rfl⟩
    exact ⟨_, .delta written, by rw [meaning, region, Option.bind_some, found, Option.map_some]⟩
  · rintro ⟨_, ⟨⟩, found⟩
    rename_i delta written
    obtain ⟨target, known, rfl⟩ := Option.map_eq_some_iff.mp ((meaning delta).symm.trans found)
    obtain ⟨graph, region, reached⟩ := Option.bind_eq_some_iff.mp known
    exact ⟨target, ⟨graph, region, delta, written, reached⟩, rfl⟩

end Operands

section Tables

variable {opcode : Opcode}

theorem sequence_and_iff {α : Type} {p : α → Prop} {written : α → List UInt8 → Prop}
    {items : List α} {e : List UInt8} :
    Sequence (fun a e => p a ∧ written a e) items e ↔
      (∀ a ∈ items, p a) ∧ Sequence written items e := by
  induction items generalizing e with
  | nil => simp [sequence_nil_iff]
  | cons a items ih =>
      simp only [sequence_cons_iff, ih, List.forall_mem_cons]
      constructor
      · rintro ⟨first, rest, ⟨holds, one⟩, ⟨all, others⟩, rfl⟩
        exact ⟨⟨holds, all⟩, first, rest, one, others, rfl⟩
      · rintro ⟨⟨holds, all⟩, first, rest, one, others, rfl⟩
        exact ⟨first, rest, ⟨holds, one⟩, ⟨all, others⟩, rfl⟩

theorem length_of_mapM {α β : Type} {f : α → Option β} {sources : List α} {items : List β}
    (images : sources.mapM f = some items) : items.length = sources.length := by
  induction sources generalizing items with
  | nil =>
      obtain rfl := Option.some.inj images
      rfl
  | cons a sources ih =>
      simp only [List.mapM_cons, bind, pure, Option.bind_eq_some_iff, Option.some.injEq] at images
      obtain ⟨_, _, _, rest, rfl⟩ := images
      simp [ih rest]

theorem sequence_mapM_iff {α β : Type} {f : α → Option β} {written : α → List UInt8 → Prop}
    {items : List β} {e : List UInt8} :
    Sequence (fun b e => ∃ a, written a e ∧ f a = some b) items e ↔
      ∃ sources, sources.mapM f = some items ∧ Sequence written sources e := by
  induction items generalizing e with
  | nil =>
      rw [sequence_nil_iff]
      constructor
      · rintro rfl
        exact ⟨[], rfl, .nil⟩
      · rintro ⟨sources, found, sequence⟩
        cases sources with
        | nil => exact sequence_nil_iff.mp sequence
        | cons a sources => cases length_of_mapM found
  | cons b items ih =>
      simp only [sequence_cons_iff, ih]
      constructor
      · rintro ⟨first, rest, ⟨a, one, image⟩, ⟨sources, images, others⟩, rfl⟩
        exact ⟨a :: sources, by simp [List.mapM_cons, image, images], .cons one others⟩
      · rintro ⟨sources, found, sequence⟩
        cases sequence with
        | nil => simp [List.mapM_nil] at found
        | cons first others =>
            simp only [List.mapM_cons, bind, pure, Option.bind_eq_some_iff, Option.some.injEq,
              List.cons.injEq] at found
            obtain ⟨_, image, _, images, rfl, rfl⟩ := found
            exact ⟨_, _, ⟨_, first, image⟩, ⟨_, images, others⟩, rfl⟩

theorem labels_parses {make : List Nat → Nat → Instruction} (layout : opcode.form.layout = .labels)
    (meaning : ∀ depths default, resolve scope ⟨opcode, .labels depths default⟩ =
      if ∀ depth ∈ depths ++ [default], depth < scope.labels then some (make depths default)
      else none) :
    Parses (do
      let (depths, default) ← table scope.setting (label scope)
      return make depths default) (OfOperands scope opcode) := by
  refine (parses_bind (table_parses _ (label_parses scope)
    fun _ written => unsigned_ne_nil written.2) fun read =>
    parses_pure (make read.1 read.2)).congr fun i e => ?_
  unfold OfOperands OfTable
  rw [layout]
  simp only [sequence_and_iff]
  constructor
  · rintro ⟨⟨depths, default⟩, _, _, ⟨size, e, number, ⟨known, entries⟩, rfl⟩, ⟨rfl, rfl⟩, rfl⟩
    rw [List.append_nil]
    exact ⟨_, .labels number entries, by rw [meaning, if_pos known]⟩
  · rintro ⟨_, ⟨⟩, found⟩
    rename_i depths default size e number entries
    rw [meaning] at found
    split at found <;> rename_i known
    · exact ⟨(depths, default), _, [], ⟨size, e, number, ⟨known, entries⟩, rfl⟩,
        ⟨(Option.some.inj found).symm, rfl⟩, (List.append_nil _).symm⟩
    · cases found

theorem deltas_parses {make : List Nat → Nat → Instruction} (layout : opcode.form.layout = .deltas)
    (meaning : ∀ deltas default, resolve scope ⟨opcode, .deltas deltas default⟩ =
      scope.region.bind fun graph => do
        return make (← deltas.mapM graph.target?) (← graph.target? default)) :
    Parses (do
      let graph ← openRegion scope
      let target := do graph.resolveDelta (← Leb128.signed 32)
      let (targets, default) ← table scope.setting target
      return make targets default) (OfOperands scope opcode) := by
  refine (parses_bind (openRegion_parses scope) fun graph => parses_bind
    (table_parses _ (target_parses graph) fun _ ⟨_, written, _⟩ =>
      signed_ne_nil written) fun read =>
      parses_pure (make read.1 read.2)).congr fun i e => ?_
  unfold OfOperands OfTable OfTarget
  rw [layout]
  simp only [sequence_append_iff, sequence_mapM_iff, sequence_singleton_iff]
  constructor
  · rintro ⟨graph, _, _, ⟨region, rfl⟩, ⟨⟨targets, default⟩, _, _, ⟨size, _, number,
      ⟨first, last, ⟨deltas, images, entries⟩, ⟨delta, written, image⟩, rfl⟩, rfl⟩, ⟨rfl, rfl⟩,
        rfl⟩, rfl⟩
    refine ⟨.deltas deltas delta, ?_, by simp [meaning, region, images, image]⟩
    rw [List.nil_append, List.append_nil]
    exact .deltas (length_of_mapM images ▸ number) (sequence_append_iff.mpr
      ⟨first, last, entries, sequence_singleton_iff.mpr written, rfl⟩)
  · rintro ⟨_, ⟨⟩, found⟩
    rename_i deltas delta size e number entries
    obtain ⟨first, last, listed, written, rfl⟩ := sequence_append_iff.mp entries
    simp only [meaning, bind, pure, Option.bind_eq_some_iff, Option.some.injEq] at found
    obtain ⟨graph, region, targets, images, default, image, rfl⟩ := found
    exact ⟨graph, [], _, ⟨region, rfl⟩, ⟨(targets, default), _, [], ⟨size, _,
      length_of_mapM images ▸ number, ⟨first, last, ⟨deltas, images, listed⟩,
        ⟨delta, sequence_singleton_iff.mp written, image⟩, rfl⟩, rfl⟩, ⟨rfl, rfl⟩,
          (List.append_nil _).symm⟩, rfl⟩

theorem type_parses {make : ValueType → Instruction} (layout : opcode.form.layout = .type)
    (meaning : ∀ type, resolve scope ⟨opcode, .type type⟩ = some (make type)) :
    Parses (do
      require ((← index) = 1) .resultArity
      return make (← valueType .invalidValueType)) (OfOperands scope opcode) := by
  refine (parses_bind index_parses fun n => parses_bind (parses_require _ _) fun _ =>
    parses_return (valueType_parses _) make).congr fun i e => ?_
  unfold OfOperands
  rw [layout]
  constructor
  · rintro ⟨n, size, _, number, ⟨_, _, e, ⟨rfl, rfl⟩, ⟨type, written, rfl⟩, rfl⟩, rfl⟩
    exact ⟨.type type, .type number written, meaning type⟩
  · rintro ⟨_, ⟨⟩, found⟩
    rename_i type size e number written
    exact ⟨1, size, e, number, ⟨(), [], e, ⟨rfl, rfl⟩, ⟨type, written,
      (Option.some.inj ((meaning type).symm.trans found)).symm⟩, rfl⟩, rfl⟩

/-- A strict setting lets no region have more funclets than there are bytes left. -/
def FuncletsBounded (setting : Setting) (i : Instruction) (left : List UInt8) : Prop :=
  setting.strict = true → ∀ signature n, i = .funcletRegion signature n → n ≤ left.length

theorem region_ok {c d : Cursor} {i : Instruction} (isRegion : opcode.form = .funcletRegion) :
    immediates scope opcode c = .ok i d ↔ (∃ e, OfOperands scope opcode i e ∧
      c.rest = e ++ d.rest ∧ d.offset = c.offset + e.length) ∧ FuncletsBounded scope.setting i d.rest := by
  have lax : Parses (do
      let signature ← blockType scope
      let funclets ← index
      require (funclets ≠ 0) .noFunclets
      return Instruction.funcletRegion signature funclets) (OfOperands scope opcode) := by
    refine (parses_bind (blockType_parses scope) fun signature => parses_bind index_parses fun n =>
      parses_bind (parses_require _ _) fun _ => parses_pure _).congr fun i e => ?_
    unfold OfOperands
    rw [isRegion]
    constructor
    · rintro ⟨signature, e, _, ⟨type, written, known⟩, ⟨n, size, _, number, ⟨_, _, _, ⟨some_, rfl⟩,
        ⟨rfl, rfl⟩, rfl⟩, rfl⟩, rfl⟩
      refine ⟨.region type n, ?_, ?_⟩
      · rw [List.append_nil, List.append_nil]
        exact .region written number
      · simp [resolve, isRegion, some_, known]
    · rintro ⟨_, ⟨⟩, found⟩
      rename_i type n e size written number
      simp only [resolve, isRegion] at found
      split at found <;> rename_i some_
      · cases found
      · obtain ⟨signature, known, rfl⟩ := Option.map_eq_some_iff.mp found
        exact ⟨signature, e, size, ⟨type, written, known⟩, ⟨n, size, [], number, ⟨(), [], [],
          ⟨some_, rfl⟩, ⟨rfl, rfl⟩, rfl⟩, (List.append_nil _).symm⟩, rfl⟩
  rw [← lax c d i, immediates]
  cases strict : scope.setting.strict with
  | false => simp [isRegion, strict, FuncletsBounded]
  | true =>
      simp only [isRegion, strict, if_true, Cursor.boundedBy, bind_ok, get_ok, require_ok, pure_ok,
        Cursor.hasLeft, Cursor.atLeast_iff, FuncletsBounded, forall_const]
      constructor
      · rintro ⟨signature, u, typed, n, v, number, _, _, ⟨some_, rfl⟩, _, _,
          ⟨_, _, ⟨rfl, rfl⟩, enough, rfl⟩, rfl, rfl⟩
        refine ⟨⟨signature, u, typed, n, v, number, (), v, ⟨some_, rfl⟩, rfl, rfl⟩, ?_⟩
        rintro _ _ ⟨⟩
        exact enough
      · rintro ⟨⟨signature, u, typed, n, v, number, _, _, ⟨some_, rfl⟩, rfl, rfl⟩, within⟩
        exact ⟨signature, u, typed, n, v, number, (), v, ⟨some_, rfl⟩, (), v,
          ⟨v, v, ⟨rfl, rfl⟩, within _ _ rfl, rfl⟩, rfl, rfl⟩

theorem jump_parses {make : Nat → Instruction} (layout : opcode.form.layout = .number)
    (meaning : ∀ n, resolve scope ⟨opcode, .number n⟩ = some (make n)) :
    Parses (do return make (← index)) (OfOperands scope opcode) := by
  refine (parses_return index_parses make).congr fun i e => ?_
  unfold OfOperands
  rw [layout]
  constructor
  · rintro ⟨n, number, rfl⟩
    exact ⟨_, .number number, meaning n⟩
  · rintro ⟨_, ⟨⟩, found⟩
    rename_i n number
    exact ⟨n, number, (Option.some.inj ((meaning n).symm.trans found)).symm⟩

theorem slot_parses {make : Nat → ValueType → Instruction} (layout : opcode.form.layout = .number)
    (meaning : ∀ n, resolve scope ⟨opcode, .number n⟩ = scope.locals[n]?.map (make n)) :
    Parses (do
      let (slot, type) ← localIndex scope
      return make slot type) (OfOperands scope opcode) := by
  refine (parses_bind (localIndex_parses scope) fun found =>
    parses_pure (make found.1 found.2)).congr fun i e => ?_
  unfold OfOperands
  rw [layout]
  constructor
  · rintro ⟨⟨slot, type⟩, e, _, ⟨known, number⟩, ⟨rfl, rfl⟩, rfl⟩
    refine ⟨_, .number (by simpa using number), ?_⟩
    rw [meaning, known, Option.map_some]
  · rintro ⟨_, ⟨⟩, found⟩
    rename_i slot number
    obtain ⟨type, known, rfl⟩ := Option.map_eq_some_iff.mp ((meaning slot).symm.trans found)
    exact ⟨(slot, type), e, [], ⟨known, number⟩, ⟨rfl, rfl⟩, (List.append_nil e).symm⟩

theorem target_global_parses {f : Nat → GlobalType → Instruction}
    (layout : opcode.form.layout = .number)
    (meaning : ∀ n, resolve scope ⟨opcode, .number n⟩ =
      ((context scope).globals[n]?.filter GlobalType.isMutable).map (f n)) :
    Parses (do
      let number ← index
      let global ← known .global (context scope).globals[number]?
      require (global.isMutable = true) .immutableGlobal
      return f number global) (OfOperands scope opcode) := by
  refine (parses_bind index_parses fun n => parses_bind (known_parses _ _) fun global =>
    parses_bind (parses_require _ _) fun _ => parses_pure (f n global)).congr fun i e => ?_
  unfold OfOperands
  rw [layout]
  constructor
  · rintro ⟨n, e, _, number, ⟨global, _, _, ⟨found, rfl⟩, ⟨_, _, _, ⟨mutable, rfl⟩, ⟨rfl, rfl⟩,
      rfl⟩, rfl⟩, rfl⟩
    refine ⟨_, .number (by simpa using number), ?_⟩
    rw [meaning, found, Option.filter_some_pos mutable, Option.map_some]
  · rintro ⟨_, ⟨⟩, found⟩
    rename_i n number
    obtain ⟨global, known, rfl⟩ := Option.map_eq_some_iff.mp ((meaning n).symm.trans found)
    obtain ⟨known, mutable⟩ := Option.filter_eq_some_iff.mp known
    exact ⟨n, e, [], number, ⟨global, [], [], ⟨known, rfl⟩, ⟨(), [], [], ⟨mutable, rfl⟩,
      ⟨rfl, rfl⟩, rfl⟩, rfl⟩, (List.append_nil e).symm⟩

/-- The bytes behind an opcode are read just as they are written. -/
theorem immediates_parses (opcode : Opcode) (inner : opcode.form ≠ .funcletSig)
    (outer : opcode.form ≠ .funcletRegion) :
    Parses (immediates scope opcode) (OfOperands scope opcode) := by
  obtain ⟨byte, name, form⟩ := opcode
  cases form with
  | block | loop | ifThen => exact block_parses rfl fun _ => rfl
  | br | brIf => exact jump_parses rfl fun _ => rfl
  | brTable => exact labels_parses rfl fun _ _ => rfl
  | call => exact number_parses rfl (fun n => known_parses _ _) fun _ => rfl
  | selectTyped => exact type_parses rfl fun _ => rfl
  | localGet | localSet | localTee => exact slot_parses rfl fun _ => rfl
  | globalGet =>
      exact number_parses rfl (f := fun n (global : GlobalType) =>
        .operation byte [] global.type (UInt64.ofNat n)) (fun n => known_parses _ _) fun _ => rfl
  | globalSet =>
      exact target_global_parses rfl (f := fun n (global : GlobalType) =>
        .operation byte [global.type] .null (UInt64.ofNat n)) fun _ => rfl
  | memorySize | memoryGrow => exact zero_parses rfl rfl
  | i32Const | i64Const => exact integer_parses (by decide) rfl fun _ => rfl
  | f32Const | f64Const => exact bits_parses rfl fun _ => rfl
  | load natural type | store natural type => exact access_parses rfl fun _ _ => rfl
  | funcletRegion => exact absurd rfl outer
  | funcletSig => exact absurd rfl inner
  | funcletCall | funcletCallIf => exact delta_parses rfl fun _ => rfl
  | funcletCallTable => exact deltas_parses rfl fun _ _ => rfl
  | _ => exact plain_parses rfl rfl

theorem region_of_resolve {line : Line} {signature : Signature} {n : Nat}
    (found : resolve scope line = some (.funcletRegion signature n)) :
    line.opcode.form = .funcletRegion := by
  unfold resolve at found
  dsimp only at found
  split at found <;> first
    | assumption
    | simp [bind, Option.bind_eq_some_iff] at found

theorem immediates_ok {c d : Cursor} {i : Instruction} (inner : opcode.form ≠ .funcletSig) :
    immediates scope opcode c = .ok i d ↔ (∃ e, OfOperands scope opcode i e ∧
      c.rest = e ++ d.rest ∧ d.offset = c.offset + e.length) ∧ FuncletsBounded scope.setting i d.rest := by
  by_cases isRegion : opcode.form = .funcletRegion
  · exact region_ok isRegion
  · refine (immediates_parses opcode inner isRegion c d i).trans (and_iff_left_of_imp ?_).symm
    rintro ⟨_, ⟨immediate, _, found⟩, _⟩ _ signature n rfl
    exact absurd (region_of_resolve found) isRegion

end Tables

theorem ofLine_iff {line : Line} {e : List UInt8} :
    OfLine line e ↔ ∃ operands, e = line.opcode.byte :: operands ∧
      Opcode.ofByte? line.opcode.byte = some line.opcode ∧
        OfImmediate line.opcode.form.layout line.immediate operands := by
  constructor
  · rintro ⟨listed, operands⟩
    exact ⟨_, rfl, listed, operands⟩
  · rintro ⟨_, rfl, listed, operands⟩
    exact .mk listed operands

theorem byte_of_ofByte {byte : UInt8} {opcode : Opcode}
    (listed : Opcode.ofByte? byte = some opcode) :
    opcode.byte = byte := by
  simpa using List.find?_some listed

def funcletSig : Opcode := ⟨Opcode.funcletSigByte, "funclet_sig", .funcletSig⟩

theorem funcletSig_listed : Opcode.ofByte? Opcode.funcletSigByte = some funcletSig := rfl

theorem eq_funcletSig {byte : UInt8} {opcode : Opcode} (listed : Opcode.ofByte? byte = some opcode)
    (header : opcode.form = .funcletSig) : opcode = funcletSig := by
  have only : ∀ row ∈ Opcode.all, row.form = .funcletSig → row = funcletSig := by
    decide +kernel
  exact only opcode (List.mem_of_find?_eq_some listed) header

/-- What an instruction is written as where it is read. A `funclet_sig` that is not the first
instruction of a funclet is read without its immediates. -/
def OfInstruction (scope : Scope) (i : Instruction) (e : List UInt8) : Prop :=
  (∃ line, OfLine line e ∧ resolve scope line = some i) ∨
    (i = .strayFuncletSig ∧ e = [Opcode.funcletSigByte])

theorem ofInstruction_cons {opcode : Opcode} (listed : Opcode.ofByte? opcode.byte = some opcode)
    (inner : opcode.form ≠ .funcletSig) {i : Instruction} {e : List UInt8} :
    OfInstruction scope i (opcode.byte :: e) ↔ OfOperands scope opcode i e := by
  constructor
  · rintro (⟨⟨other, immediate⟩, written, found⟩ | ⟨_, same⟩)
    · obtain ⟨operands, same, listed', written⟩ := ofLine_iff.mp written
      obtain ⟨byte, rfl⟩ := List.cons.inj same
      rw [← byte, listed] at listed'
      obtain rfl := Option.some.inj listed'
      exact ⟨immediate, written, found⟩
    · rw [(List.cons.inj same).1, funcletSig_listed] at listed
      exact absurd rfl (Option.some.inj listed ▸ inner)
  · rintro ⟨immediate, written, found⟩
    exact .inl ⟨⟨opcode, immediate⟩, .mk listed written, found⟩

theorem ofInstruction_funcletSig {i : Instruction} {e : List UInt8} :
    OfInstruction scope i (Opcode.funcletSigByte :: e) ↔ i = .strayFuncletSig ∧ e = [] := by
  constructor
  · rintro (⟨⟨other, immediate⟩, written, found⟩ | ⟨rfl, same⟩)
    · obtain ⟨_, same, listed, _⟩ := ofLine_iff.mp written
      rw [← (List.cons.inj same).1, funcletSig_listed] at listed
      obtain rfl := Option.some.inj listed
      cases found
    · exact ⟨rfl, (List.cons.inj same).2⟩
  · rintro ⟨rfl, rfl⟩
    exact .inr ⟨rfl, rfl⟩

theorem not_ofInstruction {byte : UInt8} (unlisted : Opcode.ofByte? byte = none) {i : Instruction}
    {e : List UInt8} : ¬ OfInstruction scope i (byte :: e) := by
  rintro (⟨line, written, _⟩ | ⟨_, same⟩)
  · obtain ⟨_, same, listed, _⟩ := ofLine_iff.mp written
    rw [← (List.cons.inj same).1, unlisted] at listed
    cases listed
  · rw [(List.cons.inj same).1, funcletSig_listed] at unlisted
    cases unlisted

theorem not_ofInstruction_nil {i : Instruction} : ¬ OfInstruction scope i [] := by
  rintro (⟨line, written, _⟩ | ⟨_, same⟩)
  · obtain ⟨_, same, _⟩ := ofLine_iff.mp written
    cases same
  · cases same

theorem instruction_ok {c d : Cursor} {i : Instruction} :
    instruction scope c = .ok i d ↔ (∃ e, OfInstruction scope i e ∧ c.rest = e ++ d.rest ∧
      d.offset = c.offset + e.length) ∧ FuncletsBounded scope.setting i d.rest := by
  have same : instruction scope = Cursor.next >>= fun byte =>
      (Opcode.ofByte? byte).elim (reject .illegalOpcode) (immediates scope) := by
    refine congrArg (Cursor.next >>= ·) (funext fun byte => ?_)
    cases Opcode.ofByte? byte <;> rfl
  have dispatch (byte : UInt8) (u : Cursor) :
      (Opcode.ofByte? byte).elim (reject .illegalOpcode) (immediates scope) u = .ok i d ↔
        (∃ e, OfInstruction scope i (byte :: e) ∧ u.rest = e ++ d.rest ∧
          d.offset = u.offset + e.length) ∧ FuncletsBounded scope.setting i d.rest := by
    cases listed : Opcode.ofByte? byte with
    | none => simp [not_ofInstruction listed]
    | some opcode =>
        obtain rfl := byte_of_ofByte listed
        by_cases header : opcode.form = .funcletSig
        · obtain rfl := eq_funcletSig listed header
          simp only [ofInstruction_funcletSig, funcletSig]
          refine (parses_pure Instruction.strayFuncletSig u d i).trans (and_iff_left_of_imp ?_).symm
          rintro ⟨_, ⟨rfl, _⟩, _⟩ _ _ _ ⟨⟩
        · simp only [ofInstruction_cons listed header]
          exact immediates_ok header
  simp only [same, bind_ok, dispatch, next_parses c _ _]
  constructor
  · rintro ⟨byte, u, ⟨_, rfl, split, offset⟩, ⟨e, written, split', offset'⟩, within⟩
    refine ⟨⟨byte :: e, written, ?_, ?_⟩, within⟩
    · rw [split, split']
      rfl
    · rw [offset', offset]
      exact Nat.add_right_comm c.offset 1 e.length
  · rintro ⟨⟨e, written, split, offset⟩, within⟩
    cases e with
    | nil => exact absurd written not_ofInstruction_nil
    | cons byte e =>
        refine ⟨byte, ⟨c.offset + 1, e ++ d.rest⟩, ⟨[byte], rfl, split, rfl⟩,
          ⟨e, written, rfl, ?_⟩, within⟩
        rw [offset, List.length_cons, Nat.add_comm e.length, Nat.add_assoc]

def headerLine (header : FuncletHeader) : Line :=
  ⟨funcletSig, .header header.params header.predecessors⟩

/-- Types occupy a byte each, so that their count needs no check. -/
theorem header_parses (setting : Setting) : Parses (do
    let n ← count setting 0 .lengthOutOfBounds
    let params ← entries (valueType .invalidValueType) n []
    return some (FuncletHeader.mk params (← index))) fun found e => ∃ header, found = some header ∧
      OfImmediate .header (.header header.params header.predecessors) e := by
  have lax : Parses (do
      let n ← index
      let params ← entries (valueType .invalidValueType) n []
      return some (FuncletHeader.mk params (← index))) fun found e =>
        ∃ header, found = some header ∧ OfImmediate .header (.header header.params header.predecessors) e := by
    refine (parses_bind index_parses fun n => parses_bind (entries_parses (valueType_parses _) n [])
      fun params => parses_bind index_parses fun calls => parses_pure _).congr fun found e => ?_
    constructor
    · rintro ⟨_, size, _, number, ⟨_, e, _, ⟨params, rfl, rfl, types⟩,
        ⟨calls, e', _, predecessors, ⟨rfl, rfl⟩, rfl⟩, rfl⟩, rfl⟩
      exact ⟨⟨_, calls⟩, rfl, by simpa using OfImmediate.header number types predecessors⟩
    · rintro ⟨⟨params, calls⟩, rfl, ⟨⟩⟩
      rename_i size e e' number types predecessors
      exact ⟨params.length, size, e ++ e', number, ⟨params, e, e', ⟨params, rfl, rfl, types⟩,
        ⟨calls, e', [], predecessors, ⟨rfl, rfl⟩, (List.append_nil _).symm⟩, rfl⟩,
          List.append_assoc ..⟩
  intro c d found
  rw [← lax c d found]
  simp only [bind_ok, count_ok]
  refine exists₂_congr fun n u => and_congr_left fun behind => and_iff_left fun _ => ?_
  obtain ⟨params, v, many, _⟩ := behind
  obtain ⟨e, ⟨more, rfl, rfl, sequence⟩, split, _⟩ :=
    (entries_parses (valueType_parses _) n [] u v params).mp many
  have enough := sequence_length_le (fun _ => type_ne_nil) sequence
  rw [split, List.length_append]
  omega

theorem funcletHeader_some {header : FuncletHeader} {c d : Cursor} :
    funcletHeader setting c = .ok (some header) d ↔ ∃ e, OfLine (headerLine header) e ∧
      c.rest = e ++ d.rest ∧ d.offset = c.offset + e.length := by
  have reads := parses_bind next_parses fun _ => header_parses setting
  unfold funcletHeader
  rw [get_bind_ok]
  split <;> rename_i first
  · refine (reads c d (some header)).trans ?_
    constructor
    · rintro ⟨_, ⟨byte, _, operands, rfl, ⟨_, ⟨⟩, written⟩, rfl⟩, split, offset⟩
      rw [split] at first
      obtain rfl := Option.some.inj first
      exact ⟨_, .mk funcletSig_listed written, split, offset⟩
    · rintro ⟨e, written, split, offset⟩
      obtain ⟨operands, rfl, _, written⟩ := ofLine_iff.mp written
      exact ⟨_, ⟨_, _, operands, rfl, ⟨header, rfl, written⟩, rfl⟩, split, offset⟩
  · simp only [pure_ok, reduceCtorEq, false_and, false_iff, not_exists, not_and]
    intro e written split
    obtain ⟨operands, rfl, _⟩ := ofLine_iff.mp written
    exact absurd (congrArg List.head? split) first

theorem funcletHeader_none {setting : Setting} {c d : Cursor} :
    funcletHeader setting c = .ok none d ↔
      c = d ∧ c.rest.head? ≠ some Opcode.funcletSigByte := by
  unfold funcletHeader
  rw [get_bind_ok]
  split <;> rename_i first
  · simp [first]
  · simp [first]

def RoomLeft : Nat → List (Nat × ValueType) → Prop
  | _, [] => True
  | size, (n, _) :: runs => n ≤ maxLocals - size ∧ RoomLeft (size + n) runs

theorem roomLeft_of_le {size : Nat} {runs : List (Nat × ValueType)}
    (few : size + (declared runs).length ≤ maxLocals) : RoomLeft size runs := by
  induction runs generalizing size with
  | nil => trivial
  | cons run runs ih =>
      rw [declared, List.flatMap_cons, List.length_append, List.length_replicate, ← declared] at few
      exact ⟨by omega, ih (by omega)⟩

theorem localRuns_parses (count : Nat) (done : Array ValueType) :
    Parses (localRuns count done) fun types e => ∃ runs, runs.length = count ∧
      Sequence OfRun runs e ∧ RoomLeft done.size runs ∧ types = done ++ (declared runs).toArray := by
  induction count generalizing done with
  | zero =>
      refine (parses_pure done).congr fun types e => ?_
      constructor
      · rintro ⟨rfl, rfl⟩
        exact ⟨[], rfl, .nil, trivial, by simp [declared]⟩
      · rintro ⟨runs, none_, sequence, _, rfl⟩
        obtain rfl := List.eq_nil_of_length_eq_zero none_
        exact ⟨by simp [declared], sequence_nil_iff.mp sequence⟩
  | succ count ih =>
      refine (parses_bind index_parses fun n => parses_bind (valueType_parses _) fun type =>
        parses_bind (parses_require _ _) fun _ => ih _).congr fun types e => ?_
      have size (n : Nat) (type : ValueType) :
          (done ++ Array.replicate n type).size = done.size + n := by simp
      have behind (n : Nat) (type : ValueType) (runs : List (Nat × ValueType)) :
          done ++ Array.replicate n type ++ (declared runs).toArray =
            done ++ (declared ((n, type) :: runs)).toArray :=
        Array.ext' (by simp [declared])
      constructor
      · rintro ⟨n, e₁, _, number, ⟨type, e₂, _, known, ⟨_, _, e₃, ⟨few, rfl⟩,
          ⟨runs, count, sequence, room, rfl⟩, rfl⟩, rfl⟩, rfl⟩
        rw [size] at room
        refine ⟨(n, type) :: runs, by rw [List.length_cons, count], ?_, ⟨few, room⟩,
          behind n type runs⟩
        simpa using Sequence.cons (.mk number known) sequence
      · rintro ⟨runs, count, sequence, room, rfl⟩
        cases sequence with
        | nil => cases count
        | cons first others =>
            obtain ⟨number, known⟩ := first
            rename_i runs rest n type e₁ e₂
            refine ⟨n, e₁, e₂ ++ rest, number, ⟨type, e₂, rest, known, ⟨(), [], rest,
              ⟨room.1, rfl⟩, ⟨runs, Nat.succ.inj count, others, ?_,
                (behind n type runs).symm⟩, rfl⟩, rfl⟩,
                by simp⟩
            rw [size]
            exact room.2

theorem locals_parses (params : List ValueType) :
    Parses (locals params) fun types e => ∃ runs, OfLocals runs e ∧ RoomLeft params.length runs ∧
      types = (params ++ declared runs).toArray := by
  refine (parses_bind index_parses fun n => localRuns_parses n _).congr fun types e => ?_
  constructor
  · rintro ⟨_, size, e, number, ⟨runs, rfl, sequence, room, rfl⟩, rfl⟩
    exact ⟨runs, .mk number sequence, room, by simp⟩
  · rintro ⟨runs, ⟨number, sequence⟩, room, rfl⟩
    exact ⟨_, _, _, number, ⟨runs, rfl, sequence, room, by simp⟩, rfl⟩

end Decode

end WasmFunclets
