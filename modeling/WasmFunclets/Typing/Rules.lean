import WasmFunclets.Format

/-! The type system of the host instructions. A sequence has every type that the rules give it: code
behind a transfer can take and leave any operands, and operands below those that are used stay. -/

namespace WasmFunclets.Typing

structure Env where
  context : Context
  locals : List ValueType
  deriving DecidableEq, Repr

def Known (types : List ValueType) : Prop := ∀ type ∈ types, type.isValue = true

variable (env : Env)

/-- Single instructions, inside labels that carry operands of the given types, the innermost first. -/
inductive Single (labels : List (List ValueType)) :
    Line → List ValueType → List ValueType → Prop where
  | unreachable {opcode : Opcode} {before after : List ValueType} (form : opcode.form = .unreachable)
      (taken : Known before) (left : Known after) : Single labels ⟨opcode, .nothing⟩ before after
  | nop {opcode : Opcode} (form : opcode.form = .nop) : Single labels ⟨opcode, .nothing⟩ [] []
  | br {opcode : Opcode} {depth : Nat} {types before after : List ValueType}
      (form : opcode.form = .br) (label : labels[depth]? = some types) (taken : Known before)
      (left : Known after) : Single labels ⟨opcode, .number depth⟩ (before ++ types) after
  | brIf {opcode : Opcode} {depth : Nat} {types : List ValueType} (form : opcode.form = .brIf)
      (label : labels[depth]? = some types) :
      Single labels ⟨opcode, .number depth⟩ (types ++ [.i32]) types
  | brTable {opcode : Opcode} {depths : List Nat} {default : Nat}
      {types before after : List ValueType} (form : opcode.form = .brTable)
      (same : ∀ depth ∈ depths ++ [default], labels[depth]? = some types) (taken : Known before)
      (left : Known after) :
      Single labels ⟨opcode, .labels depths default⟩ (before ++ (types ++ [.i32])) after
  | ret {opcode : Opcode} {before after : List ValueType} (form : opcode.form = .ret)
      (taken : Known before) (left : Known after) :
      Single labels ⟨opcode, .nothing⟩ (before ++ env.context.signature.results) after
  | call {opcode : Opcode} {n : Nat} {callee : Signature} (form : opcode.form = .call)
      (function : env.context.functions[n]? = some callee) :
      Single labels ⟨opcode, .number n⟩ callee.params callee.results
  | drop {opcode : Opcode} {type : ValueType} (form : opcode.form = .drop)
      (known : type.isValue = true) : Single labels ⟨opcode, .nothing⟩ [type] []
  | select {opcode : Opcode} {type : ValueType} (form : opcode.form = .select)
      (numeric : type.isNumeric = true) :
      Single labels ⟨opcode, .nothing⟩ [type, type, .i32] [type]
  | selectTyped {opcode : Opcode} {type : ValueType} (form : opcode.form = .selectTyped) :
      Single labels ⟨opcode, .type type⟩ [type, type, .i32] [type]
  | localGet {opcode : Opcode} {n : Nat} {type : ValueType} (form : opcode.form = .localGet)
      (slot : env.locals[n]? = some type) : Single labels ⟨opcode, .number n⟩ [] [type]
  | localSet {opcode : Opcode} {n : Nat} {type : ValueType} (form : opcode.form = .localSet)
      (slot : env.locals[n]? = some type) : Single labels ⟨opcode, .number n⟩ [type] []
  | localTee {opcode : Opcode} {n : Nat} {type : ValueType} (form : opcode.form = .localTee)
      (slot : env.locals[n]? = some type) : Single labels ⟨opcode, .number n⟩ [type] [type]
  | globalGet {opcode : Opcode} {n : Nat} {global : GlobalType} (form : opcode.form = .globalGet)
      (found : env.context.globals[n]? = some global) :
      Single labels ⟨opcode, .number n⟩ [] [global.type]
  | globalSet {opcode : Opcode} {n : Nat} {global : GlobalType} (form : opcode.form = .globalSet)
      (found : env.context.globals[n]? = some global) (target : global.isMutable = true) :
      Single labels ⟨opcode, .number n⟩ [global.type] []
  | load {opcode : Opcode} {natural alignment offset : Nat} {type : ValueType}
      (form : opcode.form = .load natural type) (memory : env.context.hasMemory = true)
      (aligned : Nat.pow 2 alignment ≤ natural) :
      Single labels ⟨opcode, .access alignment offset⟩ [.i32] [type]
  | store {opcode : Opcode} {natural alignment offset : Nat} {type : ValueType}
      (form : opcode.form = .store natural type) (memory : env.context.hasMemory = true)
      (aligned : Nat.pow 2 alignment ≤ natural) :
      Single labels ⟨opcode, .access alignment offset⟩ [.i32, type] []
  | memorySize {opcode : Opcode} (form : opcode.form = .memorySize)
      (memory : env.context.hasMemory = true) : Single labels ⟨opcode, .nothing⟩ [] [.i32]
  | memoryGrow {opcode : Opcode} (form : opcode.form = .memoryGrow)
      (memory : env.context.hasMemory = true) : Single labels ⟨opcode, .nothing⟩ [.i32] [.i32]
  | i32Const {opcode : Opcode} {value : Int} (form : opcode.form = .i32Const) :
      Single labels ⟨opcode, .integer value⟩ [] [.i32]
  | i64Const {opcode : Opcode} {value : Int} (form : opcode.form = .i64Const) :
      Single labels ⟨opcode, .integer value⟩ [] [.i64]
  | f32Const {opcode : Opcode} {bytes : List UInt8} (form : opcode.form = .f32Const) :
      Single labels ⟨opcode, .bits bytes⟩ [] [.f32]
  | f64Const {opcode : Opcode} {bytes : List UInt8} (form : opcode.form = .f64Const) :
      Single labels ⟨opcode, .bits bytes⟩ [] [.f64]
  | unary {opcode : Opcode} {operand result : ValueType} (form : opcode.form = .unary operand result) :
      Single labels ⟨opcode, .nothing⟩ [operand] [result]
  | binary {opcode : Opcode} {operand result : ValueType}
      (form : opcode.form = .binary operand result) :
      Single labels ⟨opcode, .nothing⟩ [operand, operand] [result]

/-- Sequences of instructions. A label carries the results of its construct, that of a loop its
parameters. -/
inductive Derives : List (List ValueType) → List Line → List ValueType → List ValueType → Prop where
  | empty {labels : List (List ValueType)} : Derives labels [] [] []
  | frame {labels : List (List ValueType)} {code : List Line} {outer before after : List ValueType}
      (known : Known outer) (inner : Derives labels code before after) :
      Derives labels code (outer ++ before) (outer ++ after)
  | append {labels : List (List ValueType)} {first second : List Line}
      {before between after : List ValueType} (one : Derives labels first before between)
      (two : Derives labels second between after) : Derives labels (first ++ second) before after
  | single {labels : List (List ValueType)} {line : Line} {before after : List ValueType}
      (single : Single env labels line before after) : Derives labels [line] before after
  | block {labels : List (List ValueType)} {opcode last : Opcode} {type : BlockType}
      {signature : Signature} {code : List Line} (form : opcode.form = .block)
      (close : last.form = .close) (typed : Decode.signatureOf env.context type = some signature)
      (body : Derives (signature.results :: labels) code signature.params signature.results) :
      Derives labels (⟨opcode, .block type⟩ :: (code ++ [⟨last, .nothing⟩])) signature.params
        signature.results
  | loop {labels : List (List ValueType)} {opcode last : Opcode} {type : BlockType}
      {signature : Signature} {code : List Line} (form : opcode.form = .loop)
      (close : last.form = .close) (typed : Decode.signatureOf env.context type = some signature)
      (body : Derives (signature.params :: labels) code signature.params signature.results) :
      Derives labels (⟨opcode, .block type⟩ :: (code ++ [⟨last, .nothing⟩])) signature.params
        signature.results
  | ifThen {labels : List (List ValueType)} {opcode last : Opcode} {type : BlockType}
      {signature : Signature} {code : List Line} (form : opcode.form = .ifThen)
      (close : last.form = .close) (typed : Decode.signatureOf env.context type = some signature)
      (same : signature.params = signature.results)
      (body : Derives (signature.results :: labels) code signature.params signature.results) :
      Derives labels (⟨opcode, .block type⟩ :: (code ++ [⟨last, .nothing⟩]))
        (signature.params ++ [.i32]) signature.results
  | ifElse {labels : List (List ValueType)} {opcode middle last : Opcode} {type : BlockType}
      {signature : Signature} {code other : List Line} (form : opcode.form = .ifThen)
      (turn : middle.form = .elseThen) (close : last.form = .close)
      (typed : Decode.signatureOf env.context type = some signature)
      (body : Derives (signature.results :: labels) code signature.params signature.results)
      (else_ : Derives (signature.results :: labels) other signature.params signature.results) :
      Derives labels
        (⟨opcode, .block type⟩ :: (code ++ ⟨middle, .nothing⟩ :: (other ++ [⟨last, .nothing⟩])))
        (signature.params ++ [.i32]) signature.results

/-- The lines of a body: code that leaves the results of the function on the empty stack, and the end
of the function. -/
inductive DerivesBody (context : Context) (runs : List (Nat × ValueType)) : List Line → Prop where
  | mk {code : List Line} {last : Opcode} (close : last.form = .close)
      (derives : Derives ⟨context, context.signature.params ++ Decode.declared runs⟩
        [context.signature.results] code [] context.signature.results) :
      DerivesBody context runs (code ++ [⟨last, .nothing⟩])

end WasmFunclets.Typing
