import WasmFunclets.ValueType

/-! Instructions with their immediates resolved: signatures for type indices, funclet indices for
call deltas. -/

namespace WasmFunclets

inductive Instruction where
  | unreachable
  | nop
  | block (signature : Signature)
  | loop (signature : Signature)
  | ifThen (signature : Signature)
  | elseThen
  | close
  | br (depth : Nat)
  | brIf (depth : Nat)
  | brTable (depths : List Nat) (default : Nat)
  | ret
  | call (index : Nat) (callee : Signature)
  | drop
  | select
  | selectTyped (type : ValueType)
  | localGet (slot : Nat) (type : ValueType)
  | localSet (slot : Nat) (type : ValueType)
  | localTee (slot : Nat) (type : ValueType)
  | constant (type : ValueType) (bits : UInt64)
  | operation (opcode : UInt8) (params : List ValueType) (result : ValueType) (immediate : UInt64)
  | funcletRegion (signature : Signature) (funclets : Nat)
  | strayFuncletSig
  | funcletCall (target : Nat)
  | funcletCallIf (target : Nat)
  | funcletCallTable (targets : List Nat) (default : Nat)
  deriving DecidableEq, Repr

end WasmFunclets
