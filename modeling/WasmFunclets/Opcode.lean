import WasmFunclets.ValueType

/-! Opcode bytes, their names, and what each demands of its immediates and operands. -/

namespace WasmFunclets

/-- Instructions of one form differ only in the byte they emit. -/
inductive Form where
  | unreachable | nop | block | loop | ifThen | elseThen
  | close | br | brIf | brTable | ret | call
  | funcletRegion | funcletSig | funcletCall | funcletCallIf | drop | select
  | selectTyped | funcletCallTable | localGet | localSet | localTee | globalGet
  | globalSet | memorySize | memoryGrow | i32Const | i64Const | f32Const
  | f64Const
  | load (natural : Nat) (type : ValueType)
  | store (natural : Nat) (type : ValueType)
  | unary (operand result : ValueType)
  | binary (operand result : ValueType)
  deriving DecidableEq, Repr

structure Opcode where
  byte : UInt8
  name : String
  form : Form
  deriving DecidableEq, Repr

namespace Opcode

open ValueType

def unreachableByte : UInt8 := 0x00
def ifThenByte : UInt8 := 0x04
def brIfByte : UInt8 := 0x0d
def brTableByte : UInt8 := 0x0e
def callByte : UInt8 := 0x10
def funcletSigByte : UInt8 := 0x17
def funcletCallByte : UInt8 := 0x18
def funcletCallIfByte : UInt8 := 0x19
def selectByte : UInt8 := 0x1b
def selectTypedByte : UInt8 := 0x1c
def funcletCallTableByte : UInt8 := 0x1d

def control : List Opcode := [
  ⟨unreachableByte, "unreachable", .unreachable⟩,
  ⟨0x01, "nop", .nop⟩,
  ⟨0x02, "block", .block⟩,
  ⟨0x03, "loop", .loop⟩,
  ⟨ifThenByte, "if", .ifThen⟩,
  ⟨0x05, "else", .elseThen⟩,
  ⟨0x0b, "end", .close⟩,
  ⟨0x0c, "br", .br⟩,
  ⟨brIfByte, "br_if", .brIf⟩,
  ⟨brTableByte, "br_table", .brTable⟩,
  ⟨0x0f, "return", .ret⟩,
  ⟨callByte, "call", .call⟩,
  ⟨0x16, "funclet_region", .funcletRegion⟩,
  ⟨funcletSigByte, "funclet_sig", .funcletSig⟩,
  ⟨funcletCallByte, "funclet_call", .funcletCall⟩,
  ⟨funcletCallIfByte, "funclet_call_if", .funcletCallIf⟩,
  ⟨0x1a, "drop", .drop⟩,
  ⟨selectByte, "select", .select⟩,
  ⟨selectTypedByte, "select", .selectTyped⟩,
  ⟨funcletCallTableByte, "funclet_call_table", .funcletCallTable⟩,
  ⟨0x20, "local.get", .localGet⟩,
  ⟨0x21, "local.set", .localSet⟩,
  ⟨0x22, "local.tee", .localTee⟩,
  ⟨0x23, "global.get", .globalGet⟩,
  ⟨0x24, "global.set", .globalSet⟩,
  ⟨0x3f, "memory.size", .memorySize⟩,
  ⟨0x40, "memory.grow", .memoryGrow⟩,
  ⟨0x41, "i32.const", .i32Const⟩,
  ⟨0x42, "i64.const", .i64Const⟩,
  ⟨0x43, "f32.const", .f32Const⟩,
  ⟨0x44, "f64.const", .f64Const⟩]

def memory : List Opcode := [
  ⟨0x28, "i32.load", .load 4 i32⟩,
  ⟨0x29, "i64.load", .load 8 i64⟩,
  ⟨0x2a, "f32.load", .load 4 f32⟩,
  ⟨0x2b, "f64.load", .load 8 f64⟩,
  ⟨0x2c, "i32.load8_s", .load 1 i32⟩,
  ⟨0x2d, "i32.load8_u", .load 1 i32⟩,
  ⟨0x2e, "i32.load16_s", .load 2 i32⟩,
  ⟨0x2f, "i32.load16_u", .load 2 i32⟩,
  ⟨0x30, "i64.load8_s", .load 1 i64⟩,
  ⟨0x31, "i64.load8_u", .load 1 i64⟩,
  ⟨0x32, "i64.load16_s", .load 2 i64⟩,
  ⟨0x33, "i64.load16_u", .load 2 i64⟩,
  ⟨0x34, "i64.load32_s", .load 4 i64⟩,
  ⟨0x35, "i64.load32_u", .load 4 i64⟩,
  ⟨0x36, "i32.store", .store 4 i32⟩,
  ⟨0x37, "i64.store", .store 8 i64⟩,
  ⟨0x38, "f32.store", .store 4 f32⟩,
  ⟨0x39, "f64.store", .store 8 f64⟩,
  ⟨0x3a, "i32.store8", .store 1 i32⟩,
  ⟨0x3b, "i32.store16", .store 2 i32⟩,
  ⟨0x3c, "i64.store8", .store 1 i64⟩,
  ⟨0x3d, "i64.store16", .store 2 i64⟩,
  ⟨0x3e, "i64.store32", .store 4 i64⟩]

def numeric : List Opcode := [
  ⟨0x45, "i32.eqz", .unary i32 i32⟩,
  ⟨0x46, "i32.eq", .binary i32 i32⟩,
  ⟨0x47, "i32.ne", .binary i32 i32⟩,
  ⟨0x48, "i32.lt_s", .binary i32 i32⟩,
  ⟨0x49, "i32.lt_u", .binary i32 i32⟩,
  ⟨0x4a, "i32.gt_s", .binary i32 i32⟩,
  ⟨0x4b, "i32.gt_u", .binary i32 i32⟩,
  ⟨0x4c, "i32.le_s", .binary i32 i32⟩,
  ⟨0x4d, "i32.le_u", .binary i32 i32⟩,
  ⟨0x4e, "i32.ge_s", .binary i32 i32⟩,
  ⟨0x4f, "i32.ge_u", .binary i32 i32⟩,
  ⟨0x50, "i64.eqz", .unary i64 i32⟩,
  ⟨0x51, "i64.eq", .binary i64 i32⟩,
  ⟨0x52, "i64.ne", .binary i64 i32⟩,
  ⟨0x53, "i64.lt_s", .binary i64 i32⟩,
  ⟨0x54, "i64.lt_u", .binary i64 i32⟩,
  ⟨0x55, "i64.gt_s", .binary i64 i32⟩,
  ⟨0x56, "i64.gt_u", .binary i64 i32⟩,
  ⟨0x57, "i64.le_s", .binary i64 i32⟩,
  ⟨0x58, "i64.le_u", .binary i64 i32⟩,
  ⟨0x59, "i64.ge_s", .binary i64 i32⟩,
  ⟨0x5a, "i64.ge_u", .binary i64 i32⟩,
  ⟨0x5b, "f32.eq", .binary f32 i32⟩,
  ⟨0x5c, "f32.ne", .binary f32 i32⟩,
  ⟨0x5d, "f32.lt", .binary f32 i32⟩,
  ⟨0x5e, "f32.gt", .binary f32 i32⟩,
  ⟨0x5f, "f32.le", .binary f32 i32⟩,
  ⟨0x60, "f32.ge", .binary f32 i32⟩,
  ⟨0x61, "f64.eq", .binary f64 i32⟩,
  ⟨0x62, "f64.ne", .binary f64 i32⟩,
  ⟨0x63, "f64.lt", .binary f64 i32⟩,
  ⟨0x64, "f64.gt", .binary f64 i32⟩,
  ⟨0x65, "f64.le", .binary f64 i32⟩,
  ⟨0x66, "f64.ge", .binary f64 i32⟩,
  ⟨0x67, "i32.clz", .unary i32 i32⟩,
  ⟨0x68, "i32.ctz", .unary i32 i32⟩,
  ⟨0x69, "i32.popcnt", .unary i32 i32⟩,
  ⟨0x6a, "i32.add", .binary i32 i32⟩,
  ⟨0x6b, "i32.sub", .binary i32 i32⟩,
  ⟨0x6c, "i32.mul", .binary i32 i32⟩,
  ⟨0x6d, "i32.div_s", .binary i32 i32⟩,
  ⟨0x6e, "i32.div_u", .binary i32 i32⟩,
  ⟨0x6f, "i32.rem_s", .binary i32 i32⟩,
  ⟨0x70, "i32.rem_u", .binary i32 i32⟩,
  ⟨0x71, "i32.and", .binary i32 i32⟩,
  ⟨0x72, "i32.or", .binary i32 i32⟩,
  ⟨0x73, "i32.xor", .binary i32 i32⟩,
  ⟨0x74, "i32.shl", .binary i32 i32⟩,
  ⟨0x75, "i32.shr_s", .binary i32 i32⟩,
  ⟨0x76, "i32.shr_u", .binary i32 i32⟩,
  ⟨0x77, "i32.rotl", .binary i32 i32⟩,
  ⟨0x78, "i32.rotr", .binary i32 i32⟩,
  ⟨0x79, "i64.clz", .unary i64 i64⟩,
  ⟨0x7a, "i64.ctz", .unary i64 i64⟩,
  ⟨0x7b, "i64.popcnt", .unary i64 i64⟩,
  ⟨0x7c, "i64.add", .binary i64 i64⟩,
  ⟨0x7d, "i64.sub", .binary i64 i64⟩,
  ⟨0x7e, "i64.mul", .binary i64 i64⟩,
  ⟨0x7f, "i64.div_s", .binary i64 i64⟩,
  ⟨0x80, "i64.div_u", .binary i64 i64⟩,
  ⟨0x81, "i64.rem_s", .binary i64 i64⟩,
  ⟨0x82, "i64.rem_u", .binary i64 i64⟩,
  ⟨0x83, "i64.and", .binary i64 i64⟩,
  ⟨0x84, "i64.or", .binary i64 i64⟩,
  ⟨0x85, "i64.xor", .binary i64 i64⟩,
  ⟨0x86, "i64.shl", .binary i64 i64⟩,
  ⟨0x87, "i64.shr_s", .binary i64 i64⟩,
  ⟨0x88, "i64.shr_u", .binary i64 i64⟩,
  ⟨0x89, "i64.rotl", .binary i64 i64⟩,
  ⟨0x8a, "i64.rotr", .binary i64 i64⟩,
  ⟨0x8b, "f32.abs", .unary f32 f32⟩,
  ⟨0x8c, "f32.neg", .unary f32 f32⟩,
  ⟨0x8d, "f32.ceil", .unary f32 f32⟩,
  ⟨0x8e, "f32.floor", .unary f32 f32⟩,
  ⟨0x8f, "f32.trunc", .unary f32 f32⟩,
  ⟨0x90, "f32.nearest", .unary f32 f32⟩,
  ⟨0x91, "f32.sqrt", .unary f32 f32⟩,
  ⟨0x92, "f32.add", .binary f32 f32⟩,
  ⟨0x93, "f32.sub", .binary f32 f32⟩,
  ⟨0x94, "f32.mul", .binary f32 f32⟩,
  ⟨0x95, "f32.div", .binary f32 f32⟩,
  ⟨0x96, "f32.min", .binary f32 f32⟩,
  ⟨0x97, "f32.max", .binary f32 f32⟩,
  ⟨0x98, "f32.copysign", .binary f32 f32⟩,
  ⟨0x99, "f64.abs", .unary f64 f64⟩,
  ⟨0x9a, "f64.neg", .unary f64 f64⟩,
  ⟨0x9b, "f64.ceil", .unary f64 f64⟩,
  ⟨0x9c, "f64.floor", .unary f64 f64⟩,
  ⟨0x9d, "f64.trunc", .unary f64 f64⟩,
  ⟨0x9e, "f64.nearest", .unary f64 f64⟩,
  ⟨0x9f, "f64.sqrt", .unary f64 f64⟩,
  ⟨0xa0, "f64.add", .binary f64 f64⟩,
  ⟨0xa1, "f64.sub", .binary f64 f64⟩,
  ⟨0xa2, "f64.mul", .binary f64 f64⟩,
  ⟨0xa3, "f64.div", .binary f64 f64⟩,
  ⟨0xa4, "f64.min", .binary f64 f64⟩,
  ⟨0xa5, "f64.max", .binary f64 f64⟩,
  ⟨0xa6, "f64.copysign", .binary f64 f64⟩,
  ⟨0xa7, "i32.wrap_i64", .unary i64 i32⟩,
  ⟨0xa8, "i32.trunc_f32_s", .unary f32 i32⟩,
  ⟨0xa9, "i32.trunc_f32_u", .unary f32 i32⟩,
  ⟨0xaa, "i32.trunc_f64_s", .unary f64 i32⟩,
  ⟨0xab, "i32.trunc_f64_u", .unary f64 i32⟩,
  ⟨0xac, "i64.extend_i32_s", .unary i32 i64⟩,
  ⟨0xad, "i64.extend_i32_u", .unary i32 i64⟩,
  ⟨0xae, "i64.trunc_f32_s", .unary f32 i64⟩,
  ⟨0xaf, "i64.trunc_f32_u", .unary f32 i64⟩,
  ⟨0xb0, "i64.trunc_f64_s", .unary f64 i64⟩,
  ⟨0xb1, "i64.trunc_f64_u", .unary f64 i64⟩,
  ⟨0xb2, "f32.convert_i32_s", .unary i32 f32⟩,
  ⟨0xb3, "f32.convert_i32_u", .unary i32 f32⟩,
  ⟨0xb4, "f32.convert_i64_s", .unary i64 f32⟩,
  ⟨0xb5, "f32.convert_i64_u", .unary i64 f32⟩,
  ⟨0xb6, "f32.demote_f64", .unary f64 f32⟩,
  ⟨0xb7, "f64.convert_i32_s", .unary i32 f64⟩,
  ⟨0xb8, "f64.convert_i32_u", .unary i32 f64⟩,
  ⟨0xb9, "f64.convert_i64_s", .unary i64 f64⟩,
  ⟨0xba, "f64.convert_i64_u", .unary i64 f64⟩,
  ⟨0xbb, "f64.promote_f32", .unary f32 f64⟩,
  ⟨0xbc, "i32.reinterpret_f32", .unary f32 i32⟩,
  ⟨0xbd, "i64.reinterpret_f64", .unary f64 i64⟩,
  ⟨0xbe, "f32.reinterpret_i32", .unary i32 f32⟩,
  ⟨0xbf, "f64.reinterpret_i64", .unary i64 f64⟩,
  ⟨0xc0, "i32.extend8_s", .unary i32 i32⟩,
  ⟨0xc1, "i32.extend16_s", .unary i32 i32⟩,
  ⟨0xc2, "i64.extend8_s", .unary i64 i64⟩,
  ⟨0xc3, "i64.extend16_s", .unary i64 i64⟩,
  ⟨0xc4, "i64.extend32_s", .unary i64 i64⟩]

def all : List Opcode := control ++ memory ++ numeric

def ofByte? (b : UInt8) : Option Opcode := all.find? fun row => row.byte == b

def nameOf (b : UInt8) : String := ((ofByte? b).map name).getD "<invalid>"

end Opcode

end WasmFunclets
