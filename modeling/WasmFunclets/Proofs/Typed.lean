import Mathlib.Algebra.Group.Nat.Defs
import WasmFunclets.Proofs.Decoding
import WasmFunclets.Proofs.Live
import WasmFunclets.Proofs.Ssa.Built

/-! In a context of value types a decoded instruction mentions known types, and its operands have the
types that its opcode takes. -/

namespace WasmFunclets

open Attempt

/-- An instruction with types of values that its opcode takes. -/
def Instruction.ValueTyped (context : Context) : Instruction → Prop
  | .block signature | .loop signature | .ifThen signature | .funcletRegion signature _ =>
      signature.ValueTyped
  | .call index callee =>
      callee.ValueTyped ∧ context.functions[(UInt64.ofNat index).toNat]? = some callee
  | .constant type _ | .selectTyped type => type.isValue = true
  | .operation opcode params result immediate =>
      (result = .null ∨ result.isValue = true) ∧ (∀ type ∈ params, type.isValue = true) ∧
        Opcode.operandTypes context opcode immediate result = some params
  | _ => True

namespace Decode

theorem unsignedGroups_bound (more last : Nat) {n : Nat} {c d : Cursor}
    (ok : Leb128.unsignedGroups more last c = .ok n d) : n < 128 ^ more * 2 ^ last := by
  induction more generalizing n c d with
  | zero =>
      simp only [Leb128.unsignedGroups, bind_ok] at ok
      obtain ⟨byte, _, _, ok⟩ := ok
      split at ok
      · simp only [bind_ok, require_ok, pure_ok] at ok
        obtain ⟨_, _, ⟨fits, _⟩, rfl, _⟩ := ok
        simpa [Leb128.fitsUnsigned] using fits
      · simp at ok
  | succ more ih =>
      simp only [Leb128.unsignedGroups, bind_ok] at ok
      obtain ⟨byte, _, _, ok⟩ := ok
      have some_ : 0 < 128 ^ more * 2 ^ last :=
        Nat.mul_pos (Nat.pow_pos (by decide)) (Nat.pow_pos (by decide))
      have byte_lt := byte.toNat_lt
      rw [Nat.pow_succ, Nat.mul_right_comm]
      split at ok
      · simp only [pure_ok] at ok
        obtain ⟨rfl, _⟩ := ok
        omega
      · simp only [bind_ok, pure_ok] at ok
        obtain ⟨rest, _, read, rfl, _⟩ := ok
        have := ih read
        omega

theorem index_bound {n : Nat} {c d : Cursor} (ok : index c = .ok n d) : n < 2 ^ 32 := by
  have := unsignedGroups_bound 4 4 ok
  simpa using this

theorem toNat_index {n : Nat} {c d : Cursor} (ok : index c = .ok n d) :
    (UInt64.ofNat n).toNat = n := by
  have := index_bound ok
  simp only [UInt64.toNat_ofNat']
  omega

def computedTypes : Form → List ValueType
  | .unary operand _ | .binary operand _ => [operand]
  | _ => []

theorem computed_known {byte : UInt8} {opcode : Opcode} (found : Opcode.ofByte? byte = some opcode) :
    ∀ t ∈ computedTypes opcode.form, t.isValue = true := by
  have every : ∀ row ∈ Opcode.all, ∀ t ∈ computedTypes row.form, t.isValue = true := by
    decide +kernel
  exact every opcode (List.mem_of_find?_eq_some found)

theorem blockType_known {scope : Scope} (typed : (context scope).ValueTyped) {signature : Signature}
    {c d : Cursor} (ok : blockType scope c = .ok signature d) : signature.ValueTyped := by
  simp only [blockType, bind_ok] at ok
  obtain ⟨byte, _, _, ok⟩ := ok
  split at ok
  · simp only [bind_ok, pure_ok] at ok
    obtain ⟨_, _, _, rfl, _⟩ := ok
    simp [Signature.ValueTyped]
  · split at ok
    · rename_i isValue
      simp only [bind_ok, pure_ok] at ok
      obtain ⟨_, _, _, rfl, _⟩ := ok
      simpa [Signature.ValueTyped] using isValue
    · simp only [bind_ok, require_ok] at ok
      obtain ⟨_, _, _, _, _, _, found⟩ := ok
      exact typed.types signature (Array.mem_of_getElem? (known_ok.mp found).1)

theorem instruction_valueTyped {scope : Scope} (typed : (context scope).ValueTyped) {i : Instruction}
    {c d : Cursor} (ok : instruction scope c = .ok i d) : i.ValueTyped (context scope) := by
  simp only [instruction, bind_ok] at ok
  obtain ⟨byte, u, _, ok⟩ := ok
  cases found : Opcode.ofByte? byte with
  | none => simp [found] at ok
  | some opcode =>
      simp only [found] at ok
      have forms := form_of_ofByte? found
      have types := isValue_of_ofByte? found
      have computed := computed_known found
      unfold immediates at ok
      cases form : opcode.form <;>
        simp only [form, bind_ok, pure_ok, require_ok] at ok types computed forms
      case block | loop | ifThen =>
        obtain ⟨_, _, read, rfl, _⟩ := ok
        exact blockType_known typed read
      case call =>
        obtain ⟨_, _, read, _, _, found, rfl, _⟩ := ok
        have present := (known_ok.mp found).1
        refine ⟨typed.functions _ (Array.mem_of_getElem? present), ?_⟩
        rwa [toNat_index read]
      case selectTyped =>
        obtain ⟨_, _, _, _, _, _, _, _, type, rfl, _⟩ := ok
        exact valueType_isValue type
      case globalGet =>
        obtain ⟨_, _, read, global, _, found, rfl, _⟩ := ok
        have present := (known_ok.mp found).1
        exact ⟨.inr (typed.globals _ (Array.mem_of_getElem? present)), by simp,
          by simp [Opcode.operandTypes, forms]⟩
      case globalSet =>
        obtain ⟨_, _, read, global, _, found, _, _, _, rfl, _⟩ := ok
        have present := (known_ok.mp found).1
        refine ⟨.inl rfl, by simpa using typed.globals _ (Array.mem_of_getElem? present), ?_⟩
        simp [Opcode.operandTypes, forms, toNat_index read, present]
      case memorySize | memoryGrow =>
        obtain ⟨_, _, _, rfl, _⟩ := ok
        exact ⟨.inr rfl, by simp [ValueType.isValue, ValueType.values], by simp [Opcode.operandTypes, forms]⟩
      case load =>
        obtain ⟨_, _, _, rfl, _⟩ := ok
        exact ⟨.inr (types _ (by simp [valueTypes])), by simp [ValueType.isValue, ValueType.values],
          by simp [Opcode.operandTypes, forms]⟩
      case store =>
        obtain ⟨_, _, _, rfl, _⟩ := ok
        exact ⟨.inl rfl, by simpa [ValueType.isValue, ValueType.values] using types _ (by simp [valueTypes]),
          by simp [Opcode.operandTypes, forms]⟩
      case unary operand result | binary operand result =>
        obtain ⟨rfl, _⟩ := ok
        exact ⟨.inr (types _ (by simp [valueTypes])),
          by simpa [computedTypes] using computed, by simp [Opcode.operandTypes, forms]⟩
      case i32Const | i64Const | f32Const | f64Const =>
        obtain ⟨_, _, _, rfl, _⟩ := ok
        exact rfl
      case funcletRegion =>
        obtain ⟨signature, _, read, funclets, _, _, _, _, _, ok⟩ := ok
        have same : i = .funcletRegion signature funclets := by
          split at ok <;> simp only [bind_ok, pure_ok] at ok
          · obtain ⟨_, _, _, rfl, _⟩ := ok
            rfl
          · exact ok.1.symm
        rw [same]
        exact blockType_known typed read
      case funcletCall | funcletCallIf | br | brIf | brTable | localGet | localSet | localTee =>
        obtain ⟨_, _, _, rfl, _⟩ := ok
        exact trivial
      case funcletCallTable =>
        obtain ⟨_, _, _, _, _, _, rfl, _⟩ := ok
        exact trivial
      case unreachable | nop | elseThen | close | ret | drop | select | funcletSig =>
        obtain ⟨rfl, _⟩ := ok
        exact trivial

end Decode

end WasmFunclets
