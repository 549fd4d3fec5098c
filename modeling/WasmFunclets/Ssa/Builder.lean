import WasmFunclets.Ssa.Substitution
import WasmFunclets.Ssa.Value

/-! The state of a function under construction, its arenas and the values that need no lookup. -/

namespace WasmFunclets.Ssa

structure Builder where
  locals : Array ValueType
  paramCount : Nat
  values : Array Value
  blocks : Array Block
  substitution : Substitution
  replacedPhis : Nat
  deriving Inhabited

namespace Builder

def entryId : BlockId := 0

def ofLocals (locals : Array ValueType) (paramCount : Nat) : Builder :=
  ⟨locals, paramCount, #[], #[.entry], .empty, 0⟩

def arenaLimit : Nat := 4294967295

/-- The value that stands in for a replaced phi. Any other id stands for itself. -/
def representative (b : Builder) (id : ValueId) : ValueId := b.substitution.apply id

def isPhi (b : Builder) (id : ValueId) : Bool := (b.values[id]?.bind Value.phi?).isSome

def isLivePhi (b : Builder) (id : ValueId) : Bool := b.values[id]?.any Value.isLivePhi

def isCompletePhi (b : Builder) (id : ValueId) : Bool := b.values[id]?.any Value.isCompletePhi

def livePhis (b : Builder) : Nat := b.values.countP Value.isLivePhi

def argsOf (b : Builder) (block : Block) : List ValueId := block.argIds.map b.representative

def blockAt (id : BlockId) : Attempt Builder Block := do
  inRange (← get).blocks[id]?

def checkBlock (id : BlockId) : Attempt Builder Unit := do
  unless id < (← get).blocks.size do throw .outOfRange

def valueAt (id : ValueId) : Attempt Builder Value := do
  inRange (← get).values[id]?

def modifyBlock (id : BlockId) (change : Block → Block) : Attempt Builder Unit :=
  modify fun b => { b with blocks := b.blocks.modify id change }

def modifyPhi (id : ValueId) (change : Phi → Phi) : Attempt Builder Unit :=
  modify fun b => { b with values := b.values.modify id (Value.updatePhi change) }

def define (block : BlockId) (slot : Nat) (definition : Definition) : Attempt Builder Unit :=
  modifyBlock block fun b => { b with definitions := b.definitions.insert slot definition }

def defineAll (blocks : List BlockId) (slot : Nat) (definition : Definition) :
    Attempt Builder Unit :=
  blocks.forM fun block => define block slot definition

def addBlock (kind : BlockKind) : Attempt Builder BlockId := do
  let id := (← get).blocks.size
  modify fun b => { b with blocks := b.blocks.push (.fresh kind) }
  pure id

def addValue (type : ValueType) (block : Option BlockId) (content : Content) :
    Attempt Builder ValueId := do
  let id := (← get).values.size
  maintain (id < arenaLimit) .arenaExhausted
  modify fun b =>
    { b with
      values := b.values.push ⟨type, block, content⟩
      substitution := b.substitution.extend }
  pure id

def addPhi (block : BlockId) (type : ValueType) (role : PhiRole) : Attempt Builder ValueId :=
  addValue type (some block) (.phi ⟨role, #[], false, .empty, #[], none⟩)

def undef (type : ValueType) : Attempt Builder ValueId := addValue type none .undef

def undefs (types : List ValueType) : Attempt Builder (List ValueId) := types.mapM undef

def append (block : BlockId) (type : ValueType) (content : Content) : Attempt Builder ValueId := do
  let id ← addValue type (some block) content
  modifyBlock block fun b => { b with body := b.body.push id }
  pure id

def constant (block : BlockId) (type : ValueType) (bits : UInt64) : Attempt Builder ValueId := do
  checkBlock block
  append block type (.constant bits)

def project (block : BlockId) (tuple : ValueId) (index : Nat) (type : ValueType) :
    Attempt Builder ValueId := do
  checkBlock block
  append block type (.project ((← get).representative tuple) index)

def emit (block : BlockId) (opcode : UInt8) (type : ValueType) (operands : List ValueId)
    (immediate : UInt64) : Attempt Builder ValueId := do
  checkBlock block
  let b ← get
  let operands := operands.map b.representative
  maintain ((operands.all fun id => id < b.values.size) = true) .unknownOperand
  append block type (.op opcode operands immediate)

end Builder

end WasmFunclets.Ssa
