import WasmFunclets.Instruction.Decode
import WasmFunclets.Proofs.Attempt

/-! What decoding does to the cursor, and what holds of the instructions it yields: the indices in
them are known, and the types that they push are types of values. -/

namespace WasmFunclets

open Attempt

structure Cursor.Behind (c d : Cursor) : Prop where
  onward : c.offset ≤ d.offset
  total : d.offset + d.rest.length = c.offset + c.rest.length
  suffix : d.rest <:+ c.rest

theorem Cursor.Behind.refl (c : Cursor) : c.Behind c := ⟨Nat.le_refl _, rfl, List.suffix_rfl⟩

theorem Cursor.Behind.of_eq {c d : Cursor} (same : d = c) : c.Behind d := same ▸ .refl c

theorem Cursor.Behind.trans {c d e : Cursor} (first : c.Behind d) (second : d.Behind e) :
    c.Behind e :=
  ⟨Nat.le_trans first.onward second.onward, second.total.trans first.total,
    second.suffix.trans first.suffix⟩

def ReadsOnward {α : Type} (m : Attempt Cursor α) : Prop :=
  Along Cursor.Behind (fun e c d => e.IsRefusal ∧ c.Behind d) m

instance : Composes Cursor.Behind fun e c d => e.IsRefusal ∧ c.Behind d where
  refl := .refl
  trans first second := first.trans second
  fails first second := ⟨second.1, first.trans second.2⟩

section ReadsOnward

variable {α β : Type}

theorem ReadsOnward.of_ok {m : Attempt Cursor α} (reads : ReadsOnward m) {c d : Cursor} {a : α}
    (ok : m c = .ok a d) : c.Behind d := (reads c).of_ok ok

theorem readsOnward_reject (cause : Cause) : ReadsOnward (reject cause : Attempt Cursor α) :=
  fun c => ⟨Fault.isRefusal_invalid _, .refl c⟩

theorem readsOnward_require (p : Prop) [Decidable p] (cause : Cause) :
    ReadsOnward (require p cause : Attempt Cursor Unit) := by
  exact along_require p cause fun c => ⟨Fault.isRefusal_invalid _, .refl c⟩

theorem next_consumes (c : Cursor) :
    Ends Cursor.next c (fun _ d => c.Behind d ∧ c.offset < d.offset)
      fun e d => e.IsRefusal ∧ c.Behind d := by
  simp only [Cursor.next, ends_bind, ends_get]
  cases rest : c.rest with
  | nil => exact ⟨Fault.isRefusal_invalid _, .refl c⟩
  | cons byte rest' =>
      refine ⟨⟨Nat.le_succ _, ?_, rest ▸ List.suffix_cons byte rest'⟩, Nat.lt_succ_self _⟩
      simp only [rest, List.length_cons]
      omega

theorem next_readsOnward : ReadsOnward Cursor.next := fun c => (next_consumes c).imp fun _ _ both => both.1

theorem peek_readsOnward : ReadsOnward Cursor.peek := by
  refine along_bind along_get fun c => ?_
  cases c.rest with
  | nil => exact readsOnward_reject _
  | cons byte rest => exact along_pure byte

theorem boundedBy_readsOnward (n : Nat) (cause : Cause) : ReadsOnward (Cursor.boundedBy n cause) :=
  along_bind along_get fun _ => readsOnward_require _ _

theorem takeMany_readsOnward (n : Nat) : ReadsOnward (Cursor.takeMany n) := by
  intro c
  simp only [Cursor.takeMany, Cursor.peekMany, ends_bind, ends_get, ends_require, ends_pure,
    ends_modify]
  refine ⟨fun left => ⟨Nat.le_add_right _ _, ?_, List.drop_suffix _ _⟩,
    fun _ => ⟨Fault.isRefusal_invalid _, .refl c⟩⟩
  have enough := (Cursor.atLeast_iff n c.rest).mp left
  simp only [Cursor.advance, List.length_drop]
  omega

end ReadsOnward

namespace Leb128

theorem unsignedGroups_readsOnward (more last : Nat) : ReadsOnward (unsignedGroups more last) := by
  induction more with
  | zero =>
      exact along_bind next_readsOnward fun _ => along_ite
        (along_bind (readsOnward_require _ _) fun _ => along_pure _) (readsOnward_reject _)
  | succ more ih =>
      exact along_bind next_readsOnward fun _ => along_ite (along_pure _)
        (along_bind ih fun _ => along_pure _)

theorem signedGroups_readsOnward (more last : Nat) : ReadsOnward (signedGroups more last) := by
  induction more with
  | zero =>
      exact along_bind next_readsOnward fun _ => along_ite
        (along_bind (readsOnward_require _ _) fun _ => along_pure _) (readsOnward_reject _)
  | succ more ih =>
      exact along_bind next_readsOnward fun _ => along_ite (along_pure _)
        (along_bind ih fun _ => along_pure _)

end Leb128

namespace Decode

theorem index_readsOnward : ReadsOnward index := Leb128.unsignedGroups_readsOnward _ _

theorem signed_readsOnward (width : Nat) : ReadsOnward (Leb128.signed width) :=
  Leb128.signedGroups_readsOnward _ _

theorem valueType_readsOnward (cause : Cause) : ReadsOnward (valueType cause) :=
  along_bind next_readsOnward fun _ => along_bind (readsOnward_require _ _) fun _ => along_pure _

theorem known_readsOnward {α : Type} (entity : Entity) (found : Option α) : ReadsOnward (known entity found) := by
  cases found with
  | none => exact readsOnward_reject _
  | some a => exact along_pure a

theorem blockType_readsOnward (scope : Scope) : ReadsOnward (blockType scope) :=
  along_bind peek_readsOnward fun _ => along_ite
    (along_bind next_readsOnward fun _ => along_pure _)
    (along_ite (along_bind next_readsOnward fun _ => along_pure _)
      (along_bind (signed_readsOnward _) fun _ => along_bind (readsOnward_require _ _) fun _ =>
        known_readsOnward _ _))

theorem count_readsOnward (setting : Setting) (extra : Nat) (cause : Cause) :
    ReadsOnward (count setting extra cause) :=
  along_bind index_readsOnward fun _ => along_ite
    (along_bind (boundedBy_readsOnward _ _) fun _ => along_pure _) (along_pure _)

theorem entries_readsOnward {α : Type} {entry : Attempt Cursor α} (reads : ReadsOnward entry) (n : Nat)
    (done : List α) : ReadsOnward (entries entry n done) := by
  induction n generalizing done with
  | zero => exact along_pure _
  | succ n ih => exact along_bind reads fun _ => ih _

theorem table_readsOnward (setting : Setting) {entry : Attempt Cursor Nat} (reads : ReadsOnward entry) :
    ReadsOnward (table setting entry) :=
  along_bind (count_readsOnward _ _ _) fun _ => along_bind (entries_readsOnward reads _ _) fun _ =>
    along_bind reads fun _ => along_pure _

theorem label_readsOnward (scope : Scope) : ReadsOnward (label scope) :=
  along_bind index_readsOnward fun _ => along_bind (readsOnward_require _ _) fun _ => along_pure _

theorem localIndex_readsOnward (scope : Scope) : ReadsOnward (localIndex scope) :=
  along_bind index_readsOnward fun _ => along_bind (known_readsOnward _ _) fun _ => along_pure _

theorem openRegion_readsOnward (scope : Scope) : ReadsOnward (openRegion scope) := by
  unfold openRegion
  cases scope.region with
  | none => exact readsOnward_reject _
  | some graph => exact along_pure graph

theorem resolveDelta_readsOnward (graph : FuncletCalls) (delta : Int) :
    ReadsOnward (graph.resolveDelta delta : Attempt Cursor Nat) := by
  unfold FuncletCalls.resolveDelta
  cases graph.target? delta with
  | none => exact readsOnward_reject _
  | some target => exact along_pure target

theorem callTarget_readsOnward (scope : Scope) : ReadsOnward (callTarget scope) :=
  along_bind (signed_readsOnward _) fun _ => along_bind (openRegion_readsOnward _) fun _ =>
    resolveDelta_readsOnward _ _

theorem memoryOffset_readsOnward (scope : Scope) (natural : Nat) : ReadsOnward (memoryOffset scope natural) :=
  along_bind index_readsOnward fun _ => along_bind (readsOnward_require _ _) fun _ =>
    along_bind (readsOnward_require _ _) fun _ => along_bind (readsOnward_require _ _) fun _ =>
      along_bind index_readsOnward fun _ => along_pure _

theorem zeroMemory_readsOnward (scope : Scope) : ReadsOnward (zeroMemory scope) :=
  along_bind next_readsOnward fun _ => along_bind (readsOnward_require _ _) fun _ => readsOnward_require _ _

theorem immediates_readsOnward (scope : Scope) (opcode : Opcode) : ReadsOnward (immediates scope opcode) := by
  unfold immediates
  cases opcode.form with
  | unreachable | nop | elseThen | close | ret | drop | select | funcletSig | unary | binary =>
      exact along_pure _
  | block | loop | ifThen => exact along_bind (blockType_readsOnward _) fun _ => along_pure _
  | br | brIf => exact along_bind index_readsOnward fun _ => along_pure _
  | brTable => exact along_bind (table_readsOnward _ (label_readsOnward _)) fun _ => along_pure _
  | call => exact along_bind index_readsOnward fun _ => along_bind (known_readsOnward _ _) fun _ => along_pure _
  | selectTyped =>
      exact along_bind index_readsOnward fun _ => along_bind (readsOnward_require _ _) fun _ =>
        along_bind (valueType_readsOnward _) fun _ => along_pure _
  | localGet | localSet | localTee =>
      exact along_bind (localIndex_readsOnward _) fun _ => along_pure _
  | globalGet =>
      exact along_bind index_readsOnward fun _ => along_bind (known_readsOnward _ _) fun _ => along_pure _
  | globalSet =>
      exact along_bind index_readsOnward fun _ => along_bind (known_readsOnward _ _) fun _ =>
        along_bind (readsOnward_require _ _) fun _ => along_pure _
  | memorySize | memoryGrow => exact along_bind (zeroMemory_readsOnward _) fun _ => along_pure _
  | i32Const | i64Const => exact along_bind (signed_readsOnward _) fun _ => along_pure _
  | f32Const | f64Const => exact along_bind (takeMany_readsOnward _) fun _ => along_pure _
  | load natural type | store natural type =>
      exact along_bind (memoryOffset_readsOnward _ _) fun _ => along_pure _
  | funcletRegion =>
      exact along_bind (blockType_readsOnward _) fun _ => along_bind index_readsOnward fun _ =>
        along_bind (readsOnward_require _ _) fun _ => along_ite
          (along_bind (boundedBy_readsOnward _ _) fun _ => along_pure _) (along_pure _)
  | funcletCall | funcletCallIf =>
      exact along_bind (callTarget_readsOnward _) fun _ => along_pure _
  | funcletCallTable =>
      exact along_bind (openRegion_readsOnward _) fun _ => along_bind
        (table_readsOnward _ (along_bind (signed_readsOnward _) fun _ => resolveDelta_readsOnward _ _))
        fun _ => along_pure _

theorem instruction_consumes (scope : Scope) (c : Cursor) :
    Ends (instruction scope) c (fun _ d => c.Behind d ∧ c.offset < d.offset)
      fun e d => e.IsRefusal ∧ c.Behind d := by
  simp only [instruction, ends_bind]
  refine (next_consumes c).imp ?_
  rintro byte d ⟨behind, further⟩
  cases Opcode.ofByte? byte with
  | none => exact ⟨Fault.isRefusal_invalid _, behind⟩
  | some opcode =>
      refine (immediates_readsOnward scope opcode d).mono (fun _ e more => ?_) fun _ e failed => ?_
      · exact ⟨behind.trans more, Nat.lt_of_lt_of_le further more.onward⟩
      · exact ⟨failed.1, behind.trans failed.2⟩

theorem instruction_readsOnward (scope : Scope) : ReadsOnward (instruction scope) := fun c =>
  (instruction_consumes scope c).imp fun _ _ both => both.1

theorem funcletHeader_readsOnward (setting : Setting) : ReadsOnward (funcletHeader setting) :=
  along_bind along_get fun _ => along_ite
    (along_bind next_readsOnward fun _ => along_bind (count_readsOnward _ _ _) fun _ =>
      along_bind (entries_readsOnward (valueType_readsOnward _) _ _) fun _ =>
        along_bind index_readsOnward fun _ => along_pure _)
    (along_pure _)

theorem localRuns_readsOnward (runs : Nat) (done : Array ValueType) : ReadsOnward (localRuns runs done) := by
  induction runs generalizing done with
  | zero => exact along_pure _
  | succ runs ih =>
      exact along_bind index_readsOnward fun _ => along_bind (valueType_readsOnward _) fun _ =>
        along_bind (readsOnward_require _ _) fun _ => ih _

theorem locals_readsOnward (params : List ValueType) : ReadsOnward (locals params) :=
  along_bind index_readsOnward fun _ => localRuns_readsOnward _ _

/-- The indices in an instruction are known in the scope that it was decoded in, and values have
types of values. -/
def Knows (scope : Scope) : Instruction → Prop
  | .call index callee => (context scope).functions[index]? = some callee
  | .localGet slot type | .localSet slot type | .localTee slot type =>
      scope.locals[slot]? = some type
  | .constant type _ | .selectTyped type => type.isValue = true
  | .operation opcode _ result immediate =>
      (result = .null ∨ result.isValue = true ∨
        ∃ global ∈ (context scope).globals, global.type = result) ∧
      ((Opcode.ofByte? opcode).map Opcode.form = some .globalGet ∨
        (Opcode.ofByte? opcode).map Opcode.form = some .globalSet →
          immediate.toNat < (context scope).globals.size)
  | .funcletRegion _ funclets => 0 < funclets
  | .funcletCall target | .funcletCallIf target =>
      ∃ graph, scope.region = some graph ∧ target < graph.size
  | .funcletCallTable targets default =>
      ∃ graph, scope.region = some graph ∧ ∀ target ∈ targets ++ [default], target < graph.size
  | _ => True

theorem known_ok {α : Type} {entity : Entity} {found : Option α} {a : α} {c d : Cursor} :
    known entity found c = .ok a d ↔ found = some a ∧ c = d := by
  cases found <;> simp [known]

theorem valueType_isValue {cause : Cause} {type : ValueType} {c d : Cursor}
    (ok : valueType cause c = .ok type d) : type.isValue = true := by
  simp only [valueType, bind_ok, require_ok, pure_ok] at ok
  obtain ⟨_, _, _, _, _, ⟨isValue, _⟩, rfl, _⟩ := ok
  exact isValue

theorem localIndex_known {scope : Scope} {slot : Nat} {type : ValueType} {c d : Cursor}
    (ok : localIndex scope c = .ok (slot, type) d) : scope.locals[slot]? = some type := by
  simp only [localIndex, bind_ok, known_ok, pure_ok, Prod.mk.injEq] at ok
  obtain ⟨_, _, _, _, _, ⟨found, _⟩, ⟨rfl, rfl⟩, _⟩ := ok
  exact found

theorem resolveDelta_inside {graph : FuncletCalls} {delta : Int} {index : Nat} {c d : Cursor}
    (ok : graph.resolveDelta delta c = .ok index d) : index < graph.size := by
  unfold FuncletCalls.resolveDelta at ok
  cases target : graph.target? delta with
  | none => simp [target] at ok
  | some found =>
      simp only [target, pure_ok] at ok
      obtain ⟨rfl, _⟩ := ok
      simp only [FuncletCalls.target?] at target
      split at target
      · simp only [Option.some.injEq] at target
        omega
      · cases target

theorem openRegion_some {scope : Scope} {graph : FuncletCalls} {c d : Cursor}
    (ok : openRegion scope c = .ok graph d) : scope.region = some graph := by
  unfold openRegion at ok
  cases region : scope.region <;> simp_all

theorem callTarget_inside {scope : Scope} {index : Nat} {c d : Cursor}
    (ok : callTarget scope c = .ok index d) :
    ∃ graph, scope.region = some graph ∧ index < graph.size := by
  simp only [callTarget, bind_ok] at ok
  obtain ⟨_, _, _, graph, _, found, resolved⟩ := ok
  exact ⟨graph, openRegion_some found, resolveDelta_inside resolved⟩

theorem mem_of_entries {α : Type} {entry : Attempt Cursor α} {P : α → Prop}
    (each : ∀ a c d, entry c = .ok a d → P a) {n : Nat} {done items : List α} {c d : Cursor}
    (before : ∀ a ∈ done, P a) (ok : entries entry n done c = .ok items d) : ∀ a ∈ items, P a := by
  induction n generalizing done c with
  | zero =>
      simp only [entries, pure_ok] at ok
      obtain ⟨rfl, _⟩ := ok
      simpa using before
  | succ n ih =>
      simp only [entries, bind_ok] at ok
      obtain ⟨a, _, first, rest⟩ := ok
      refine ih (fun b member => ?_) rest
      rcases List.mem_cons.mp member with rfl | old
      · exact each _ _ _ first
      · exact before b old

theorem table_spec {setting : Setting} {entry : Attempt Cursor Nat} {P : Nat → Prop}
    (each : ∀ a c d, entry c = .ok a d → P a) {listed : List Nat} {last : Nat} {c d : Cursor}
    (ok : table setting entry c = .ok (listed, last) d) : ∀ a ∈ listed ++ [last], P a := by
  simp only [table, bind_ok, pure_ok, Prod.mk.injEq] at ok
  obtain ⟨_, _, _, _, _, items, _, _, default, ⟨rfl, rfl⟩, _⟩ := ok
  intro a member
  rcases List.mem_append.mp member with inside | last
  · exact mem_of_entries each (by simp) items a inside
  · rw [List.mem_singleton.mp last]
    exact each _ _ _ default

theorem form_of_ofByte? {byte : UInt8} {opcode : Opcode}
    (found : Opcode.ofByte? byte = some opcode) :
    (Opcode.ofByte? opcode.byte).map Opcode.form = some opcode.form := by
  have same : opcode.byte = byte := by simpa using List.find?_some found
  rw [same, found, Option.map_some]

/-- The types of the value that instructions of a form load, store or compute. -/
def valueTypes : Form → List ValueType
  | .load _ type | .store _ type | .unary _ type | .binary _ type => [type]
  | _ => []

theorem isValue_of_ofByte? {byte : UInt8} {opcode : Opcode}
    (found : Opcode.ofByte? byte = some opcode) : ∀ t ∈ valueTypes opcode.form, t.isValue = true := by
  have every : ∀ row ∈ Opcode.all, ∀ t ∈ valueTypes row.form, t.isValue = true := by
    decide +kernel
  exact every opcode (List.mem_of_find?_eq_some found)

theorem instruction_knows {scope : Scope} {i : Instruction} {c d : Cursor}
    (ok : instruction scope c = .ok i d) : Knows scope i := by
  simp only [instruction, bind_ok] at ok
  obtain ⟨byte, u, _, ok⟩ := ok
  cases found : Opcode.ofByte? byte with
  | none => simp [found] at ok
  | some opcode =>
      simp only [found] at ok
      have forms := form_of_ofByte? found
      have types := isValue_of_ofByte? found
      have bound {n size : Nat} (below : n < size) : (UInt64.ofNat n).toNat < size :=
        Nat.lt_of_le_of_lt (by simpa using Nat.mod_le _ _) below
      unfold immediates at ok
      cases form : opcode.form <;> simp only [form, bind_ok, pure_ok, require_ok] at ok types forms
      case call =>
        obtain ⟨_, _, _, _, _, known, rfl, _⟩ := ok
        exact (known_ok.mp known).1
      case selectTyped =>
        obtain ⟨_, _, _, _, _, _, _, _, type, rfl, _⟩ := ok
        exact valueType_isValue type
      case localGet | localSet | localTee =>
        obtain ⟨_, _, known, rfl, _⟩ := ok
        exact localIndex_known known
      case globalGet =>
        obtain ⟨_, _, _, global, _, known, rfl, _⟩ := ok
        have present := (known_ok.mp known).1
        obtain ⟨below, _⟩ := Array.getElem?_eq_some_iff.mp present
        exact ⟨.inr (.inr ⟨global, Array.mem_of_getElem? present, rfl⟩), fun _ => bound below⟩
      case globalSet =>
        obtain ⟨_, _, _, global, _, known, _, _, _, rfl, _⟩ := ok
        obtain ⟨below, _⟩ := Array.getElem?_eq_some_iff.mp (known_ok.mp known).1
        exact ⟨.inl rfl, fun _ => bound below⟩
      case memorySize | memoryGrow =>
        obtain ⟨_, _, _, rfl, _⟩ := ok
        exact ⟨.inr (.inl rfl), by simp [forms]⟩
      case load =>
        obtain ⟨_, _, _, rfl, _⟩ := ok
        exact ⟨.inr (.inl (types _ (by simp [valueTypes]))), by simp [forms]⟩
      case store =>
        obtain ⟨_, _, _, rfl, _⟩ := ok
        exact ⟨.inl rfl, by simp [forms]⟩
      case unary | binary =>
        obtain ⟨rfl, _⟩ := ok
        exact ⟨.inr (.inl (types _ (by simp [valueTypes]))), by simp [forms]⟩
      case i32Const | i64Const | f32Const | f64Const =>
        obtain ⟨_, _, _, rfl, _⟩ := ok
        rfl
      case funcletRegion =>
        obtain ⟨signature, _, _, funclets, _, _, _, _, ⟨some_, _⟩, ok⟩ := ok
        have same : i = .funcletRegion signature funclets := by
          split at ok <;> simp only [bind_ok, pure_ok] at ok
          · obtain ⟨_, _, _, rfl, _⟩ := ok
            rfl
          · exact ok.1.symm
        rw [same]
        exact Nat.pos_of_ne_zero some_
      case funcletCall | funcletCallIf =>
        obtain ⟨_, _, inside, rfl, _⟩ := ok
        exact callTarget_inside inside
      case funcletCallTable =>
        obtain ⟨graph, _, found, _, _, listed, rfl, _⟩ := ok
        refine ⟨graph, openRegion_some found, table_spec (fun a c d entry => ?_) listed⟩
        simp only [bind_ok] at entry
        obtain ⟨_, _, _, resolved⟩ := entry
        exact resolveDelta_inside resolved
      case unreachable | nop | elseThen | close | ret | drop | select | funcletSig =>
        obtain ⟨rfl, _⟩ := ok
        exact trivial
      case block | loop | ifThen | br | brIf | brTable =>
        obtain ⟨_, _, _, rfl, _⟩ := ok
        exact trivial

/-- Locals have the types of the parameters or types of values. -/
theorem locals_spec {params : List ValueType} {types : Array ValueType} {c d : Cursor}
    (ok : locals params c = .ok types d) :
    params <+: types.toList ∧ ∀ t ∈ types, t ∈ params ∨ t.isValue = true := by
  have runs {n : Nat} {done : Array ValueType} {c : Cursor}
      (ok : localRuns n done c = .ok types d) (start : params <+: done.toList)
      (before : ∀ t ∈ done, t ∈ params ∨ t.isValue = true) :
      params <+: types.toList ∧ ∀ t ∈ types, t ∈ params ∨ t.isValue = true := by
    induction n generalizing done c with
    | zero =>
        simp only [localRuns, pure_ok] at ok
        obtain ⟨rfl, _⟩ := ok
        exact ⟨start, before⟩
    | succ n ih =>
        simp only [localRuns, bind_ok, require_ok] at ok
        obtain ⟨count, _, _, type, _, read, _, _, _, ok⟩ := ok
        refine ih ok ?_ fun t member => ?_
        · rw [Array.toList_append]
          exact start.trans (List.prefix_append _ _)
        · rcases Array.mem_append.mp member with old | new
          · exact before t old
          · rw [(Array.mem_replicate.mp new).2]
            exact .inr (valueType_isValue read)
  simp only [locals, bind_ok] at ok
  obtain ⟨_, _, _, ok⟩ := ok
  exact runs ok (by simp) fun t member => .inl (by simpa using member)

end Decode

end WasmFunclets
