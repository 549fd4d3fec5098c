import WasmFunclets.Instruction.Decode
import WasmFunclets.Ssa.Control

/-! The state of a validation: the cursor, the operand stack, the open frames and regions, and the
function under construction. -/

namespace WasmFunclets

/-- An `if` keeps what its `else` starts from. -/
inductive Construct where
  | function
  | block
  | loop
  | ifThen (condition : BlockId) (params : List ValueId)
  | ifElse
  | region
  deriving DecidableEq, Repr

/-- `outerUnreachable` says that this frame, or one between it and the innermost region, was entered
on a polymorphic stack. -/
structure Frame where
  signature : Signature
  mark : Mark
  target : BlockId
  construct : Construct
  outerUnreachable : Bool
  deriving DecidableEq, Repr

def Frame.labelTypes (f : Frame) : List ValueType :=
  if f.construct = .loop then f.signature.params else f.signature.results

/-- A region whose funclets are being produced; their arguments start at height `base`. -/
structure OpenRegion where
  signature : Signature
  depth : Nat
  offset : Nat
  graph : FuncletCalls
  blocks : Array BlockId
  exit : BlockId
  base : Nat
  deriving DecidableEq, Repr

structure Funclet where
  index : Nat
  params : List ValueType
  explicit : Bool
  declared : Nat
  observed : Nat
  sealed : Bool
  block : BlockId
  deriving DecidableEq, Repr

structure Region where
  signature : Signature
  depth : Nat
  offset : Nat
  funclets : List Funclet
  edges : Array CallEdge
  exit : BlockId
  deriving DecidableEq, Repr

namespace Validation

/-- The innermost frame is the last one, the innermost region the first, and closed regions come in
the order of their ends. `start` is the offset of the instruction at hand. -/
structure State where
  cursor : Cursor
  start : Nat
  decoded : Nat
  stack : TypedStack
  control : Array Frame
  regions : List OpenRegion
  closed : Array Region
  builder : Ssa.Builder
  current : BlockId
  exit : BlockId

/-- The frame that a branch to a label leaves, the innermost one at depth 0. -/
def State.frame? (s : State) (depth : Nat) : Option Frame :=
  if depth < s.control.size then s.control[s.control.size - 1 - depth]? else none

abbrev Step (α : Type) := Attempt State α

variable {α : Type}

def onCursor (change : Attempt Cursor α) : Step α :=
  within State.cursor (fun cursor s => { s with cursor }) change

def onStack (change : Attempt TypedStack α) : Step α :=
  within State.stack (fun stack s => { s with stack }) change

def onBuilder (change : Attempt Ssa.Builder α) : Step α :=
  within State.builder (fun builder s => { s with builder }) change

def onGraph (change : Attempt FuncletCalls α) : Step α := fun s =>
  match s.regions with
  | [] => .error (.broken .noOpenFrame) s
  | region :: outer =>
      let s := { s with regions := [] }
      match within OpenRegion.graph (fun graph r => { r with graph }) change region with
      | .ok a region => .ok a { s with regions := region :: outer }
      | .error e region => .error e { s with regions := region :: outer }

def innermost : Step Frame := do
  match (← get).frame? 0 with
  | some frame => pure frame
  | none => violate .noOpenFrame

def openRegion : Step OpenRegion := do
  match (← get).regions with
  | region :: _ => pure region
  | [] => violate .noOpenFrame

def labelled (depth : Nat) : Step Frame := do
  match (← get).frame? depth with
  | some frame => pure frame
  | none => reject (.unknown .label)

def pushFrame (signature : Signature) (mark : Mark) (target : BlockId) (construct : Construct) :
    Step Unit :=
  modify fun s =>
    let outerUnreachable :=
      match construct, s.frame? 0 with
      | .region, _ => false
      | _, none => false
      | _, some parent => parent.outerUnreachable || mark.polymorphic
    { s with control := s.control.push ⟨signature, mark, target, construct, outerUnreachable⟩ }

def popFrame : Step Unit := modify fun s => { s with control := s.control.pop }

def moveTo (block : BlockId) : Step Unit := modify fun s => { s with current := block }

def valueOf (operand : Operand) : Step ValueId :=
  match operand.value with
  | some id => pure id
  | none => onBuilder (Ssa.Builder.undef operand.type)

def valuesOf (operands : List Operand) : Step (List ValueId) := operands.mapM valueOf

def takeValues (types : List ValueType) : Step (List ValueId) := do
  valuesOf (← onStack (TypedStack.popTypes types))

def takeValue (type : ValueType) : Step ValueId := do
  return (← takeValues [type]).headD 0

def putValue (type : ValueType) (value : ValueId) : Step Unit :=
  onStack (TypedStack.push ⟨type, some value⟩)

def putValues (types : List ValueType) (values : List ValueId) : Step Unit :=
  onStack (TypedStack.pushAll (TypedStack.withValues types (values.map some)))

def shareValues (types : List ValueType) : Step (List ValueId) := do
  let values ← takeValues types
  putValues types values
  pure values

/-- Takes the results at the end of a frame, above which nothing may be left. -/
def takeAll (results : List ValueType) : Step (List ValueId) := do
  let stack := (← get).stack
  require (stack.holdsExactly results = true)
    (.resultMismatch results (stack.typesFrom stack.floor))
  takeValues results

def emit (opcode : UInt8) (type : ValueType) (operands : List ValueId) (immediate : UInt64) :
    Step ValueId := do
  let block := (← get).current
  onBuilder (Ssa.Builder.emit block opcode type operands immediate)

def emitStatement (opcode : UInt8) (operands : List ValueId) (immediate : Nat) : Step Unit := do
  let _ ← emit opcode .null operands (UInt64.ofNat immediate)

def branchTo (target : BlockId) (args : List ValueId) : Step Unit := do
  let block := (← get).current
  onBuilder (Ssa.Builder.connect block target args)

def followBlock (source : BlockId) : Step Unit := do
  let next ← onBuilder do
    let next ← Ssa.Builder.addBlock .body
    Ssa.Builder.connect source next []
    Ssa.Builder.sealBlock next
    pure next
  moveTo next

def fallThrough : Step Unit := do followBlock (← get).current

end Validation

end WasmFunclets
