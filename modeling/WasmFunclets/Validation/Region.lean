import WasmFunclets.Validation.State

/-! Funclets are entered in index order, called, sealed at their last predecessor and recorded when
their region ends. -/

namespace WasmFunclets.Validation

def blockOf (region : OpenRegion) (index : Nat) : Step BlockId := inRange region.blocks[index]?

def completeFunclet (index : Nat) : Step Unit := do
  onGraph (FuncletCalls.markComplete index)
  let block ← blockOf (← openRegion) index
  onBuilder (Ssa.Builder.sealBlock block)

/-- Settles the parameters of the current funclet: by its header, which counts as an instruction,
for the first funclet as none, and for another by the calls from above. -/
def funcletParams (setting : Setting) (index : Nat) : Step (List ValueType) := do
  match ← onCursor (Decode.funcletHeader setting) with
  | some header =>
      modify fun s => { s with decoded := s.decoded + 1 }
      onGraph (FuncletCalls.declare index header.params header.predecessors true)
      pure header.params
  | none =>
      if index = 0 then
        onGraph (FuncletCalls.declare index [] 0 false)
        pure []
      else onGraph (FuncletCalls.infer index)

def startFunclet (setting : Setting) (index : Nat) : Step Unit := do
  modify fun s => { s with start := s.cursor.offset }
  onGraph (FuncletCalls.enter index)
  let params ← funcletParams setting index
  let frame ← innermost
  require (index ≠ 0 ∨ params = frame.signature.params)
    (.regionParams params frame.signature.params)
  let block ← blockOf (← openRegion) index
  onBuilder (Ssa.Builder.declareArguments block params)
  if ← onGraph (FuncletCalls.ready index) then completeFunclet index
  moveTo block
  let args ← onBuilder (Ssa.Builder.args block)
  onStack (TypedStack.reset (TypedStack.withValues params (args.map some)))

/-- All operands above the base of the region are arguments, also those below the floors of frames
inside it. -/
def regionOperands : Step (List Operand) := do
  let region ← openRegion
  inRange ((← get).stack.operandsFrom region.base)

def operandsUnreachable : Step Bool := do
  return (← get).stack.polymorphic || (← innermost).outerUnreachable

def transferTo (target : Nat) (args : List Operand) (polymorphic : Bool) : Step Unit := do
  let offset := (← get).start
  let last ← onGraph (FuncletCalls.call target (args.map Operand.type) polymorphic offset)
  let block ← blockOf (← openRegion) target
  branchTo block (← valuesOf args)
  if last then completeFunclet target

def OpenRegion.funclet {σ : Type} (region : OpenRegion) (index : Nat) : Attempt σ Funclet := do
  let node ← inRange region.graph.nodes[index]?
  match node.params with
  | none => violate .missingParams
  | some params =>
      let block ← inRange region.blocks[index]?
      return ⟨index, params, node.explicit, node.declared, node.observed, node.sealed, block⟩

def OpenRegion.record {σ : Type} (region : OpenRegion) : Attempt σ Region := do
  let funclets ← (List.range region.graph.size).mapM (OpenRegion.funclet region)
  return {
    signature := region.signature
    depth := region.depth
    offset := region.offset
    funclets
    edges := region.graph.edges
    exit := region.exit }

def closeRegion : Step Unit := do
  onGraph FuncletCalls.finish
  let region ← openRegion
  let frame ← innermost
  let results ← onBuilder do
    Ssa.Builder.sealBlock region.exit
    Ssa.Builder.args region.exit
  let record ← OpenRegion.record region
  modify fun s => { s with closed := s.closed.push record }
  onStack (TypedStack.leave frame.mark)
  moveTo region.exit
  putValues frame.signature.results results
  modify fun s => { s with regions := s.regions.tail }
  popFrame

def nextFunclet (setting : Setting) : Step Unit := do
  let graph := (← openRegion).graph
  if graph.current + 1 < graph.size then startFunclet setting (graph.current + 1)
  else closeRegion

/-- The current block has ended. In a frame inside a funclet what follows is unreachable. -/
def endBlock (setting : Setting) : Step Unit := do
  if (← innermost).construct = .region then nextFunclet setting
  else
    onStack TypedStack.becomePolymorphic
    let block ← onBuilder do
      let block ← Ssa.Builder.addBlock .body
      Ssa.Builder.sealBlock block
      pure block
    moveTo block

end WasmFunclets.Validation
