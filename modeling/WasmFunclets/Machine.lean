import WasmFunclets.Context
import WasmFunclets.Instruction
import WasmFunclets.Opcode

/-! The plain typed stack machine that instruction sequences describe. It knows no more of the code
than how its constructs nest, decides conditional transfers as it is told, leaves the meaning of
operations open, and stops with a flaw where an operand, a label or an index is not what it has to
be. -/

namespace WasmFunclets

structure Located where
  offset : Nat
  instruction : Instruction
  deriving DecidableEq, Repr

/-- A construct around a place in the code; of a region, the funclet at hand and their number. -/
inductive Nest where
  | plain
  | region (funclet funclets : Nat)
  deriving DecidableEq, Repr

namespace Nest

/-- Goes on to the next funclet of a region, or leaves it behind the last one. -/
def nextFunclet (funclet funclets : Nat) (outer : List Nest) : List Nest :=
  if funclet + 1 < funclets then region (funclet + 1) funclets :: outer else outer

/-- The constructs around the place behind an instruction. What ends a block ends a funclet when it
stands directly in it. -/
def advance (nest : List Nest) (instruction : Instruction) : List Nest :=
  match instruction, nest with
  | .block _, nest | .loop _, nest | .ifThen _, nest => plain :: nest
  | .funcletRegion _ funclets, nest => region 0 funclets :: nest
  | .close, plain :: outer => outer
  | .close, region funclet funclets :: outer
  | .unreachable, region funclet funclets :: outer
  | .br _, region funclet funclets :: outer
  | .brTable _ _, region funclet funclets :: outer
  | .ret, region funclet funclets :: outer
  | .funcletCall _, region funclet funclets :: outer
  | .funcletCallTable _ _, region funclet funclets :: outer => nextFunclet funclet funclets outer
  | _, nest => nest

end Nest

namespace Machine

variable {V : Type}

structure Typed (V : Type) where
  type : ValueType
  datum : V
  deriving DecidableEq, Repr

inductive Action where
  | operation (opcode : UInt8) (immediate : UInt64)
  | constant (type : ValueType) (bits : UInt64)
  | project (index : Nat)
  deriving DecidableEq, Repr

structure Event (V : Type) where
  action : Action
  operands : List V
  deriving DecidableEq, Repr

/-- Where a branch to a label goes: behind its construct, or back to a start in the code. A region
is known by the offset of its instruction. -/
inductive Target where
  | behind
  | again (start : Nat)
  | funclets (start offset : Nat)
  deriving DecidableEq, Repr

structure Label where
  height : Nat
  signature : Signature
  target : Target
  deriving DecidableEq, Repr

def Label.types (l : Label) : List ValueType :=
  match l.target with
  | .again _ => l.signature.params
  | _ => l.signature.results

/-- The operand on top is the last one, the innermost label the first, the latest event the first. -/
structure Config (V : Type) where
  pc : Nat
  stack : List (Typed V)
  locals : List (Typed V)
  labels : List Label
  history : List (Event V)
  deriving DecidableEq, Repr

/-- What the machine runs: code with the types of its locals and the parameters of its funclets, by
the offset of their region. An event means a value, which may depend on all events before it. -/
structure Program (V : Type) where
  context : Context
  locals : List ValueType
  code : List Located
  params : Nat → Nat → Option (List ValueType)
  zero : ValueType → V
  meaning : List (Event V) → V

inductive Flaw where
  | underflow
  | wrongType
  | wrongResults
  | wrongParams
  | unknownLabel
  | unknownLocal
  | unknownGlobal
  | unknownFunction
  | outsideRegion
  | misplaced
  | endOfCode
  deriving DecidableEq, Repr

inductive Outcome (V : Type) where
  | running (config : Config V)
  | returned (results : List (Typed V)) (history : List (Event V))
  | trapped (history : List (Event V))
  deriving DecidableEq, Repr

namespace Config

def floor (c : Config V) : Nat := (c.labels.head?.map Label.height).getD 0

def next (c : Config V) : Config V := { c with pc := c.pc + 1 }

def push (c : Config V) (type : ValueType) (datum : V) : Config V :=
  { c with stack := c.stack ++ [⟨type, datum⟩] }

def take (c : Config V) (types : List ValueType) : Except Flaw (List (Typed V) × Config V) :=
  let kept := c.stack.length - types.length
  if c.stack.length < c.floor + types.length then .error .underflow
  else if (c.stack.drop kept).map Typed.type = types then
    .ok (c.stack.drop kept, { c with stack := c.stack.take kept })
  else .error .wrongType

/-- Takes all that is in reach, which has to have exactly the given types. -/
def takeAll (c : Config V) (types : List ValueType) : Except Flaw (List (Typed V) × Config V) :=
  if c.floor ≤ c.stack.length ∧ (c.stack.drop c.floor).map Typed.type = types then
    .ok (c.stack.drop c.floor, { c with stack := c.stack.take c.floor })
  else .error .wrongResults

def drop (c : Config V) : Except Flaw (Config V) :=
  if c.stack.length ≤ c.floor then .error .underflow
  else .ok { c with stack := c.stack.dropLast }

def topType (c : Config V) : ValueType := (c.stack.getLast?.map Typed.type).getD .null

end Config

namespace Program

variable (p : Program V)

def nestAt (pc : Nat) : List Nest :=
  (p.code.take pc).foldl (fun nest line => Nest.advance nest line.instruction) [.plain]

def instructionAt (pc : Nat) : Option Instruction := p.code[pc]?.map Located.instruction

def firstOf (holds : Nat → Bool) : Nat → Nat → Nat
  | 0, pc => pc
  | places + 1, pc => if holds pc then pc else firstOf holds places (pc + 1)

def seek (holds : Nat → Bool) (start : Nat) : Nat := firstOf holds (p.code.length - start) start

/-- The place behind all but so many of the constructs around an instruction. -/
def behind (pc labels : Nat) : Nat := p.seek (fun q => (p.nestAt q).length ≤ labels) (pc + 1)

def alternative (pc : Nat) : Nat :=
  p.seek (fun q => (p.nestAt q).length = (p.nestAt pc).length + 1 ∧
    (p.instructionAt q = some .elseThen ∨ p.instructionAt q = some .close)) (pc + 1)

/-- The start of a funclet of a region inside so many labels, whose first funclet has the given
start. -/
def funcletStart (start labels index : Nat) : Nat :=
  p.seek (fun q =>
    match p.nestAt q with
    | .region funclet _ :: outer => funclet = index ∧ outer.length = labels
    | _ => false) start

def perform (c : Config V) (action : Action) (operands : List V) : V × Config V :=
  let history := ⟨action, operands⟩ :: c.history
  (p.meaning history, { c with history })

def state (c : Config V) (opcode : UInt8) (operands : List V) (immediate : Nat) : Config V :=
  (p.perform c (.operation opcode (UInt64.ofNat immediate)) operands).2

def project (tuple : V) : Nat → List ValueType → Config V → Config V
  | _, [], c => c
  | index, type :: types, c =>
      let (value, c) := p.perform c (.project index) [tuple]
      project tuple (index + 1) types (c.push type value)

/-- Keeps the operands of the label's arity and unwinds to its height. -/
def branch (depth : Nat) (c : Config V) : Except Flaw (Outcome V) :=
  match c.labels[depth]? with
  | none => .error .unknownLabel
  | some label => do
      let (args, c) ← c.take label.types
      let stack := c.stack.take label.height ++ args
      let outer := c.labels.drop (depth + 1)
      if outer = [] then return .returned args c.history
      match label.target with
      | .again start => return .running { c with pc := start, stack, labels := label :: outer }
      | _ => return .running { c with pc := p.behind c.pc outer.length, stack, labels := outer }

/-- Passes all above the height of the innermost region to one of its funclets, among the labels
from some label on. -/
def transferWithin (index : Nat) (c : Config V) : List Label → Except Flaw (Outcome V)
  | [] => .error .outsideRegion
  | label :: outer =>
      match label.target with
      | .funclets start offset =>
          if p.params offset index = some ((c.stack.drop label.height).map Typed.type) then
            .ok (.running
              { c with pc := p.funcletStart start outer.length index, labels := label :: outer })
          else .error .wrongParams
      | _ => transferWithin index c outer

/-- Drops the labels inside the innermost region and goes to one of its funclets. -/
def transfer (index : Nat) (c : Config V) : Except Flaw (Outcome V) :=
  p.transferWithin index c c.labels

def leave (c : Config V) (pc : Nat) : Except Flaw (Outcome V) :=
  match c.labels with
  | [] => .error .unknownLabel
  | label :: outer => do
      let (results, _) ← c.takeAll label.signature.results
      if outer = [] then return .returned results c.history
      return .running { c with pc, labels := outer }

def close (c : Config V) : Except Flaw (Outcome V) :=
  match p.nestAt c.pc with
  | .region funclet funclets :: _ =>
      if funclet + 1 < funclets then p.transfer (funclet + 1) c else leave c (c.pc + 1)
  | _ => leave c (c.pc + 1)

def enter (c : Config V) (signature : Signature) (target : Target) : Except Flaw (Config V) := do
  let (_, rest) ← c.take signature.params
  return { c with labels := ⟨rest.stack.length, signature, target⟩ :: c.labels }

/-- Goes to the `else` of an `if`. Without one, the parameters have to be the results. -/
def skip (c : Config V) (signature : Signature) : Except Flaw (Outcome V) := do
  let c ← enter c signature .behind
  let pc := p.alternative c.pc
  if p.instructionAt pc = some .elseThen then return .running { c with pc := pc + 1 }
  else leave c (pc + 1)

def knowsGlobal (opcode : UInt8) (immediate : UInt64) : Bool :=
  match (Opcode.ofByte? opcode).map Opcode.form with
  | some .globalGet | some .globalSet => decide (immediate.toNat < p.context.globals.size)
  | _ => true

def call (index : Nat) (callee : Signature) (c : Config V) : Except Flaw (Outcome V) := do
  if p.context.functions[index]? ≠ some callee then throw .unknownFunction
  let (args, c) ← c.take callee.params
  let (value, c) :=
    p.perform c (.operation Opcode.callByte (UInt64.ofNat index)) (args.map Typed.datum)
  match callee.results with
  | [type] => return .running (c.push type value).next
  | results => return .running (p.project value 0 results c).next

def select (c : Config V) : Except Flaw (Outcome V) := do
  let (condition, c) ← c.take [.i32]
  let type := c.topType
  let (operands, c) ← c.take [type, type]
  if type.isNumeric = false then throw .wrongType
  let (value, c) :=
    p.perform c (.operation Opcode.selectByte 0) ((operands ++ condition).map Typed.datum)
  return .running (c.push type value).next

def selectTyped (type : ValueType) (c : Config V) : Except Flaw (Outcome V) := do
  let (condition, c) ← c.take [.i32]
  let (operands, c) ← c.take [type, type]
  let (value, c) :=
    p.perform c (.operation Opcode.selectTypedByte 0) ((operands ++ condition).map Typed.datum)
  return .running (c.push type value).next

def localOf (slot : Nat) (type : ValueType) (c : Config V) : Except Flaw (Typed V) :=
  match c.locals[slot]? with
  | some value => if value.type = type then .ok value else .error .unknownLocal
  | none => .error .unknownLocal

def localSet (slot : Nat) (type : ValueType) (c : Config V) : Except Flaw (Config V) := do
  let _ ← localOf slot type c
  let (values, c) ← c.take [type]
  return { c with locals := c.locals.take slot ++ values ++ c.locals.drop (slot + 1) }

def operation (opcode : UInt8) (params : List ValueType) (result : ValueType) (immediate : UInt64)
    (c : Config V) : Except Flaw (Outcome V) := do
  if p.knowsGlobal opcode immediate = false then throw .unknownGlobal
  let (args, c) ← c.take params
  let (value, c) := p.perform c (.operation opcode immediate) (args.map Typed.datum)
  if result = .null then return .running c.next
  return .running (c.push result value).next

/-- Takes the condition of a transfer, or the index into its targets, and states the transfer. -/
def condition (c : Config V) (opcode : UInt8) (immediate : Nat) : Except Flaw (Config V) := do
  let (values, c) ← c.take [.i32]
  return p.state c opcode (values.map Typed.datum) immediate

/-- One step. The decision is 0 for a conditional transfer that does not happen, and for a table the
number of the target, or of none but the default. -/
def execute (decision : Nat) (line : Located) (c : Config V) : Except Flaw (Outcome V) :=
  match line.instruction with
  | .unreachable => return .trapped (p.state c Opcode.unreachableByte [] 0).history
  | .nop => return .running c.next
  | .block signature => return .running (← enter c signature .behind).next
  | .loop signature => return .running (← enter c signature (.again (c.pc + 1))).next
  | .ifThen signature => do
      let c ← p.condition c Opcode.ifThenByte 0
      if decision = 0 then p.skip c signature
      else return .running (← enter c signature .behind).next
  | .elseThen => leave c (p.behind c.pc (c.labels.length - 1))
  | .close => p.close c
  | .br depth => p.branch depth c
  | .brIf depth => do
      let c ← p.condition c Opcode.brIfByte depth
      if decision = 0 then return .running c.next else p.branch depth c
  | .brTable depths default => do
      let c ← p.condition c Opcode.brTableByte depths.length
      p.branch (depths[decision]?.getD default) c
  | .ret => p.branch (c.labels.length - 1) c
  | .call index callee => p.call index callee c
  | .drop => return .running (← c.drop).next
  | .select => p.select c
  | .selectTyped type => p.selectTyped type c
  | .localGet slot type => return .running (c.push type (← localOf slot type c).datum).next
  | .localSet slot type => return .running (← localSet slot type c).next
  | .localTee slot type => do
      let c ← localSet slot type c
      return .running (c.push type (← localOf slot type c).datum).next
  | .constant type bits =>
      let (value, c) := p.perform c (.constant type bits) []
      return .running (c.push type value).next
  | .operation opcode params result immediate => p.operation opcode params result immediate c
  | .funcletRegion signature _ => do
      p.transfer 0 (← enter c signature (.funclets (c.pc + 1) line.offset)).next
  | .strayFuncletSig => throw .misplaced
  | .funcletCall index => p.transfer index (p.state c Opcode.funcletCallByte [] index)
  | .funcletCallIf index => do
      let c ← p.condition c Opcode.funcletCallIfByte index
      if decision = 0 then return .running c.next else p.transfer index c
  | .funcletCallTable targets default => do
      let c ← p.condition c Opcode.funcletCallTableByte targets.length
      p.transfer (targets[decision]?.getD default) c

def step (decision : Nat) (c : Config V) : Except Flaw (Outcome V) :=
  match p.code[c.pc]? with
  | some line => p.execute decision line c
  | none => .error .endOfCode

/-- As many steps as there are decisions, unless the machine returns or traps before. -/
def run : List Nat → Config V → Except Flaw (Outcome V)
  | [], c => .ok (.running c)
  | decision :: rest, c => do
      match ← p.step decision c with
      | .running c => run rest c
      | outcome => return outcome

def start (args : List (Typed V)) : Config V where
  pc := 0
  stack := []
  locals := args ++ (p.locals.drop args.length).map fun type => ⟨type, p.zero type⟩
  labels := [⟨0, ⟨[], p.context.signature.results⟩, .behind⟩]
  history := []

end Program

end Machine

end WasmFunclets
