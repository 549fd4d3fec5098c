import WasmFunclets.FuncletCalls
import WasmFunclets.Context
import WasmFunclets.Instruction
import WasmFunclets.Leb128
import WasmFunclets.Opcode

/-! Decoding of instructions, funclet headers and local declarations. Indices are checked as soon as
they are read, before the bytes that follow them. -/

namespace WasmFunclets

/-- A strict setting refuses a count of entries as soon as it exceeds the bytes left. -/
structure Setting where
  context : Context
  strict : Bool
  deriving DecidableEq, Repr

/-- What an instruction can refer to where it stands; `region` is the innermost open one. -/
structure Scope where
  setting : Setting
  locals : Array ValueType
  labels : Nat
  region : Option FuncletCalls
  deriving DecidableEq, Repr

namespace Decode

open Cursor

def context (scope : Scope) : Context := scope.setting.context

def maxLocals : Nat := 50000

def valueType (cause : Cause) : Attempt Cursor ValueType := do
  let type := ValueType.ofByte (← next)
  require (type.isValue = true) cause
  pure type

def index : Attempt Cursor Nat := Leb128.unsigned 32

def known {α : Type} (entity : Entity) (found : Option α) : Attempt Cursor α :=
  match found with
  | some a => pure a
  | none => reject (.unknown entity)

def blockType (scope : Scope) : Attempt Cursor Signature := do
  let type := ValueType.ofByte (← peek)
  if type = .empty then
    let _ ← next
    pure ⟨[], []⟩
  else if type.isValue then
    let _ ← next
    pure ⟨[], [type]⟩
  else
    let number ← Leb128.signed 33
    require (0 ≤ number) .invalidBlockType
    known .type (context scope).types[number.toNat]?

/-- A count of entries that occupy a byte each, `extra` more of them than the count says. -/
def count (setting : Setting) (extra : Nat) (cause : Cause) : Attempt Cursor Nat := do
  let n ← index
  if setting.strict then boundedBy (n + extra) cause
  pure n

/-- Reads n entries behind those already read, which are listed backwards. -/
def entries {α : Type} (entry : Attempt Cursor α) : Nat → List α → Attempt Cursor (List α)
  | 0, done => pure done.reverse
  | n + 1, done => do
      let a ← entry
      entries entry n (a :: done)

def table (setting : Setting) (entry : Attempt Cursor Nat) : Attempt Cursor (List Nat × Nat) := do
  let n ← count setting 1 .lengthOutOfBounds
  let listed ← entries entry n []
  return (listed, ← entry)

def label (scope : Scope) : Attempt Cursor Nat := do
  let depth ← index
  require (depth < scope.labels) (.unknown .label)
  pure depth

def localIndex (scope : Scope) : Attempt Cursor (Nat × ValueType) := do
  let slot ← index
  return (slot, ← known .local scope.locals[slot]?)

def openRegion (scope : Scope) : Attempt Cursor FuncletCalls :=
  match scope.region with
  | some graph => pure graph
  | none => reject .callOutsideRegion

def callTarget (scope : Scope) : Attempt Cursor Nat := do
  let delta ← Leb128.signed 32
  (← openRegion scope).resolveDelta delta

def memoryOffset (scope : Scope) (natural : Nat) : Attempt Cursor UInt64 := do
  let alignment ← index
  require ((context scope).hasMemory = true) (.unknown .memory)
  require (alignment < 32) .invalidAlignment
  require (Nat.pow 2 alignment ≤ natural) .overAligned
  return UInt64.ofNat (← index)

def zeroMemory (scope : Scope) : Attempt Cursor Unit := do
  require ((← next) = 0) .zeroByteExpected
  require ((context scope).hasMemory = true) (.unknown .memory)

def littleEndian (bytes : List UInt8) : Nat :=
  bytes.foldr (fun byte high => byte.toNat + 256 * high) 0

def wordBits (width : Nat) (value : Int) : UInt64 := UInt64.ofNat (BitVec.ofInt width value).toNat

def immediates (scope : Scope) (opcode : Opcode) : Attempt Cursor Instruction :=
  match opcode.form with
  | .unreachable => pure .unreachable
  | .nop => pure .nop
  | .block => return .block (← blockType scope)
  | .loop => return .loop (← blockType scope)
  | .ifThen => return .ifThen (← blockType scope)
  | .elseThen => pure .elseThen
  | .close => pure .close
  | .br => return .br (← index)
  | .brIf => return .brIf (← index)
  | .brTable => do
      let (depths, default) ← table scope.setting (label scope)
      return .brTable depths default
  | .ret => pure .ret
  | .call => do
      let number ← index
      return .call number (← known .function (context scope).functions[number]?)
  | .drop => pure .drop
  | .select => pure .select
  | .selectTyped => do
      require ((← index) = 1) .resultArity
      return .selectTyped (← valueType .invalidValueType)
  | .localGet => do
      let (slot, type) ← localIndex scope
      return .localGet slot type
  | .localSet => do
      let (slot, type) ← localIndex scope
      return .localSet slot type
  | .localTee => do
      let (slot, type) ← localIndex scope
      return .localTee slot type
  | .globalGet => do
      let number ← index
      let global ← known .global (context scope).globals[number]?
      return .operation opcode.byte [] global.type (UInt64.ofNat number)
  | .globalSet => do
      let number ← index
      let global ← known .global (context scope).globals[number]?
      require (global.isMutable = true) .immutableGlobal
      return .operation opcode.byte [global.type] .null (UInt64.ofNat number)
  | .memorySize => do
      zeroMemory scope
      return .operation opcode.byte [] .i32 0
  | .memoryGrow => do
      zeroMemory scope
      return .operation opcode.byte [.i32] .i32 0
  | .i32Const => return .constant .i32 (wordBits 32 (← Leb128.signed 32))
  | .i64Const => return .constant .i64 (wordBits 64 (← Leb128.signed 64))
  | .f32Const => return .constant .f32 (UInt64.ofNat (littleEndian (← takeMany 4)))
  | .f64Const => return .constant .f64 (UInt64.ofNat (littleEndian (← takeMany 8)))
  | .load natural type => return .operation opcode.byte [.i32] type (← memoryOffset scope natural)
  | .store natural type =>
      return .operation opcode.byte [.i32, type] .null (← memoryOffset scope natural)
  | .unary operand result => pure (.operation opcode.byte [operand] result 0)
  | .binary operand result => pure (.operation opcode.byte [operand, operand] result 0)
  | .funcletRegion => do
      let signature ← blockType scope
      let funclets ← index
      require (funclets ≠ 0) .noFunclets
      if scope.setting.strict then boundedBy funclets .tooManyFunclets
      return .funcletRegion signature funclets
  | .funcletSig => pure .strayFuncletSig
  | .funcletCall => return .funcletCall (← callTarget scope)
  | .funcletCallIf => return .funcletCallIf (← callTarget scope)
  | .funcletCallTable => do
      let graph ← openRegion scope
      let target := do graph.resolveDelta (← Leb128.signed 32)
      let (targets, default) ← table scope.setting target
      return .funcletCallTable targets default

def instruction (scope : Scope) : Attempt Cursor Instruction := do
  match Opcode.ofByte? (← next) with
  | some opcode => immediates scope opcode
  | none => reject .illegalOpcode

structure FuncletHeader where
  params : List ValueType
  predecessors : Nat
  deriving DecidableEq, Repr

def funcletHeader (setting : Setting) : Attempt Cursor (Option FuncletHeader) := do
  if (← get).rest.head? = some Opcode.funcletSigByte then
    let _ ← next
    let n ← count setting 0 .lengthOutOfBounds
    let params ← entries (valueType .invalidValueType) n []
    return some ⟨params, ← index⟩
  else return none

def localRuns : Nat → Array ValueType → Attempt Cursor (Array ValueType)
  | 0, done => pure done
  | runs + 1, done => do
      let n ← index
      let type ← valueType .invalidLocalType
      require (n ≤ maxLocals - done.size) .tooManyLocals
      localRuns runs (done ++ Array.replicate n type)

def locals (params : List ValueType) : Attempt Cursor (Array ValueType) := do
  localRuns (← index) params.toArray

end Decode

end WasmFunclets
