import WasmFunclets.Ssa.Local

/-! Block arguments, the edges that carry their values, and the sealing of blocks. -/

namespace WasmFunclets.Ssa.Builder

/-- Fills up a short list of values on the left: callers that are never reached supply only the
last arguments. -/
def pad (types : List ValueType) (args : List ValueId) : Attempt Builder (List ValueId) := do
  maintain (args.length ≤ types.length) .edgeTooLong
  return (← undefs (types.take (types.length - args.length))) ++ args

def feedAll (phis values : List ValueId) : Attempt Builder Unit :=
  (phis.zip values).forM fun (phi, value) => feed phi value

def addArguments (block : BlockId) : Nat → List ValueType → Attempt Builder Unit
  | _, [] => pure ()
  | index, type :: types => do
      let phi ← addPhi block type (.argument index)
      modifyBlock block fun b => { b with args := b.args.map (·.push phi) }
      addArguments block (index + 1) types

/-- Hands the values of the recorded edges to new arguments. -/
def adoptEdges (block : BlockId) (types : List ValueType) (phis : List ValueId) :
    Nat → List Predecessor → Attempt Builder Unit
  | _, [] => pure ()
  | index, pred :: rest => do
      let args ← pad types pred.args
      modifyBlock block fun b =>
        { b with predecessors := b.predecessors.modify index ({ · with args }) }
      feedAll phis args
      adoptEdges block types phis (index + 1) rest

def declareArguments (id : BlockId) (types : List ValueType) : Attempt Builder Unit := do
  let block ← blockAt id
  maintain (block.args.isNone ∧ block.isSealed = false) .argumentsDeclaredTwice
  modifyBlock id fun b => { b with args := some #[] }
  addArguments id 0 types
  adoptEdges id types (← blockAt id).argIds 0 block.predecessors.toList

def args (id : BlockId) : Attempt Builder (List ValueId) := do
  let block ← blockAt id
  return (← get).argsOf block

def connect (source id : BlockId) (args : List ValueId) : Attempt Builder Unit := do
  checkBlock source
  let block ← blockAt id
  maintain (block.isSealed = false) .sealedBlock
  let args ← match block.args with
    | none => pure args
    | some phis =>
        let b ← get
        let types := phis.toList.map fun phi => (b.values[phi]?.map Value.type).getD .null
        let args ← pad types args
        feedAll phis.toList args
        pure args
  modifyBlock id fun b => { b with predecessors := b.predecessors.push ⟨source, args⟩ }

/-- Gives a placeholder phi the definitions at the ends of all predecessors. -/
def completeLocal (slot : Nat) (phi : ValueId) (predecessors : List Predecessor) :
    Attempt Builder Unit := do
  predecessors.forM fun pred => do feed phi (← getLocal pred.block slot)
  modifyPhi phi fun p => { p with complete := true }
  let _ ← removeTrivial phi

def confirm (id : BlockId) (slot : Nat) (phi : ValueId) : Attempt Builder Unit := do
  let block ← blockAt id
  if block.definitions[slot]? = some (.placeholder phi) then
    define id slot (.final ((← get).representative phi))

def sealBlock (id : BlockId) : Attempt Builder Unit := do
  let block ← blockAt id
  unless block.isSealed do
    block.pending.forM fun (slot, phi) => completeLocal slot phi block.predecessors.toList
    block.pending.forM fun (slot, phi) => confirm id slot phi
    modifyBlock id fun b => { b with pending := #[] }
    block.argIds.forM fun phi => modifyPhi phi fun p => { p with complete := true }
    block.argIds.forM fun phi => do let _ ← removeTrivial phi
    modifyBlock id fun b => { b with isSealed := true }

end WasmFunclets.Ssa.Builder
