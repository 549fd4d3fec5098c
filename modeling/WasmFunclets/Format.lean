import Mathlib.Algebra.Ring.Int.Defs
import WasmFunclets.Context
import WasmFunclets.Leb128
import WasmFunclets.Opcode

/-! The binary format of a body: runs of locals, and behind them lines, each an opcode with what is
written behind it. -/

namespace WasmFunclets

inductive BlockType where
  | empty
  | value (type : ValueType)
  | index (number : Nat)
  deriving DecidableEq, Repr

/-- What is written behind an opcode. -/
inductive Immediate where
  | nothing
  | block (type : BlockType)
  | number (n : Nat)
  | integer (value : Int)
  | bits (bytes : List UInt8)
  | type (type : ValueType)
  | access (alignment offset : Nat)
  | labels (depths : List Nat) (default : Nat)
  | deltas (deltas : List Int) (default : Int)
  | region (type : BlockType) (funclets : Nat)
  | header (params : List ValueType) (predecessors : Nat)
  deriving DecidableEq, Repr

inductive Layout where
  | nothing | block | number | zero | type | access | labels | delta | deltas | region | header
  | integer (width : Nat)
  | bits (bytes : Nat)
  deriving DecidableEq, Repr

def Form.layout : Form → Layout
  | .block | .loop | .ifThen => .block
  | .br | .brIf | .call | .localGet | .localSet | .localTee | .globalGet | .globalSet => .number
  | .memorySize | .memoryGrow => .zero
  | .selectTyped => .type
  | .load _ _ | .store _ _ => .access
  | .brTable => .labels
  | .funcletCall | .funcletCallIf => .delta
  | .funcletCallTable => .deltas
  | .funcletRegion => .region
  | .funcletSig => .header
  | .i32Const => .integer 32
  | .i64Const => .integer 64
  | .f32Const => .bits 4
  | .f64Const => .bits 8
  | .unreachable | .nop | .elseThen | .close | .ret | .drop | .select | .unary _ _ | .binary _ _ =>
      .nothing

/-- An instruction as it is written, or the header of a funclet. -/
structure Line where
  opcode : Opcode
  immediate : Immediate
  deriving DecidableEq, Repr

namespace Encoding

/-- Seven bits a byte, the lowest first; every byte but the last has its high bit set. -/
inductive Unsigned : Nat → Nat → List UInt8 → Prop where
  | last {bits : Nat} {byte : UInt8} (final : byte.toNat < 128)
      (fits : byte.toNat < Nat.pow 2 bits) : Unsigned bits byte.toNat [byte]
  | more {bits n : Nat} {byte : UInt8} {rest : List UInt8} (left : 0 < bits)
      (continued : 128 ≤ byte.toNat) (high : Unsigned bits n rest) :
      Unsigned (bits + 7) (byte.toNat - 128 + 128 * n) (byte :: rest)

inductive Signed : Nat → Int → List UInt8 → Prop where
  | last {bits : Nat} {byte : UInt8} (final : byte.toNat < 128)
      (low : -2 ^ (bits - 1) ≤ Leb128.signedGroup byte.toNat)
      (high : Leb128.signedGroup byte.toNat < 2 ^ (bits - 1)) :
      Signed bits (Leb128.signedGroup byte.toNat) [byte]
  | more {bits : Nat} {n : Int} {byte : UInt8} {rest : List UInt8} (left : 0 < bits)
      (continued : 128 ≤ byte.toNat) (high : Signed bits n rest) :
      Signed (bits + 7) (byte.toNat - 128 + 128 * n) (byte :: rest)

inductive Sequence {α : Type} (written : α → List UInt8 → Prop) : List α → List UInt8 → Prop where
  | nil : Sequence written [] []
  | cons {a : α} {items : List α} {e rest : List UInt8} (first : written a e)
      (others : Sequence written items rest) : Sequence written (a :: items) (e ++ rest)

inductive OfType : ValueType → List UInt8 → Prop where
  | mk {type : ValueType} (known : type.isValue = true) : OfType type [type.byte]

inductive OfBlockType : BlockType → List UInt8 → Prop where
  | empty : OfBlockType .empty [ValueType.byte .empty]
  | value {type : ValueType} (known : type.isValue = true) : OfBlockType (.value type) [type.byte]
  | index {n : Nat} {e : List UInt8} (number : Signed 33 n e) : OfBlockType (.index n) e

inductive OfImmediate : Layout → Immediate → List UInt8 → Prop where
  | nothing : OfImmediate .nothing .nothing []
  | zero : OfImmediate .zero .nothing [0]
  | block {type : BlockType} {e : List UInt8} (block : OfBlockType type e) :
      OfImmediate .block (.block type) e
  | number {n : Nat} {e : List UInt8} (number : Unsigned 32 n e) :
      OfImmediate .number (.number n) e
  | integer {width : Nat} {value : Int} {e : List UInt8} (integer : Signed width value e) :
      OfImmediate (.integer width) (.integer value) e
  | bits {n : Nat} {bytes : List UInt8} (size : bytes.length = n) :
      OfImmediate (.bits n) (.bits bytes) bytes
  | type {type : ValueType} {count e : List UInt8} (one : Unsigned 32 1 count)
      (known : OfType type e) : OfImmediate .type (.type type) (count ++ e)
  | access {alignment offset : Nat} {e e' : List UInt8} (first : Unsigned 32 alignment e)
      (second : Unsigned 32 offset e') : OfImmediate .access (.access alignment offset) (e ++ e')
  | labels {depths : List Nat} {default : Nat} {count e : List UInt8}
      (size : Unsigned 32 depths.length count)
      (entries : Sequence (Unsigned 32) (depths ++ [default]) e) :
      OfImmediate .labels (.labels depths default) (count ++ e)
  | delta {value : Int} {e : List UInt8} (delta : Signed 32 value e) :
      OfImmediate .delta (.integer value) e
  | deltas {deltas : List Int} {default : Int} {count e : List UInt8}
      (size : Unsigned 32 deltas.length count)
      (entries : Sequence (Signed 32) (deltas ++ [default]) e) :
      OfImmediate .deltas (.deltas deltas default) (count ++ e)
  | region {type : BlockType} {funclets : Nat} {e count : List UInt8} (block : OfBlockType type e)
      (size : Unsigned 32 funclets count) : OfImmediate .region (.region type funclets) (e ++ count)
  | header {params : List ValueType} {predecessors : Nat} {count e e' : List UInt8}
      (size : Unsigned 32 params.length count) (types : Sequence OfType params e)
      (calls : Unsigned 32 predecessors e') :
      OfImmediate .header (.header params predecessors) (count ++ e ++ e')

inductive OfLine : Line → List UInt8 → Prop where
  | mk {opcode : Opcode} {immediate : Immediate} {e : List UInt8}
      (listed : Opcode.ofByte? opcode.byte = some opcode)
      (operands : OfImmediate opcode.form.layout immediate e) :
      OfLine ⟨opcode, immediate⟩ (opcode.byte :: e)

inductive OfRun : Nat × ValueType → List UInt8 → Prop where
  | mk {n : Nat} {type : ValueType} {count e : List UInt8} (number : Unsigned 32 n count)
      (known : OfType type e) : OfRun (n, type) (count ++ e)

inductive OfLocals : List (Nat × ValueType) → List UInt8 → Prop where
  | mk {runs : List (Nat × ValueType)} {count e : List UInt8} (size : Unsigned 32 runs.length count)
      (declared : Sequence OfRun runs e) : OfLocals runs (count ++ e)

end Encoding

namespace Decode

def signatureOf (context : Context) : BlockType → Option Signature
  | .empty => some ⟨[], []⟩
  | .value type => some ⟨[], [type]⟩
  | .index number => context.types[number]?

def declared (runs : List (Nat × ValueType)) : List ValueType :=
  runs.flatMap fun run => List.replicate run.1 run.2

end Decode

end WasmFunclets
