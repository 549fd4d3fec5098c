import WasmFunclets.Fault

/-! The calls between the funclets of a region: which are recorded, what parameters they agree on
and when a funclet has its last predecessor. -/

namespace WasmFunclets

/-- A backward call goes to an index that is not above the caller's. The arguments of a polymorphic
call come from an unreachable stack. -/
structure CallEdge where
  caller : Nat
  target : Nat
  args : List ValueType
  backward : Bool
  polymorphic : Bool
  offset : Nat
  checked : Bool
  deriving DecidableEq, Repr

structure FuncletNode where
  params : Option (List ValueType)
  explicit : Bool
  declared : Nat
  observed : Nat
  entered : Bool
  sealed : Bool
  incoming : Array Nat
  deriving DecidableEq, Repr, Inhabited

structure FuncletCalls where
  nodes : Array FuncletNode
  edges : Array CallEdge
  visited : Nat
  current : Nat
  deriving DecidableEq, Repr, Inhabited

namespace CallEdge

/-- The arguments are the parameters, or on a polymorphic edge their last ones; an argument of type
`any` fits each. -/
def agrees (edge : CallEdge) (params : List ValueType) : Bool :=
  let missing := params.length - edge.args.length
  decide (edge.args.length ≤ params.length)
    && (edge.polymorphic || edge.args.length == params.length)
    && (edge.args.zip (params.drop missing)).all fun (arg, param) => arg == param || arg == .any

end CallEdge

namespace FuncletNode

def fresh : FuncletNode := ⟨none, false, 0, 0, false, false, #[]⟩

def addCall (node : FuncletNode) (number : Nat) (backward : Bool) : FuncletNode :=
  { node with
    observed := if backward then node.observed + 1 else node.observed
    incoming := node.incoming.push number }

def ready (node : FuncletNode) : Bool :=
  node.entered && !node.sealed && node.params.isSome && node.observed == node.declared

end FuncletNode

namespace FuncletCalls

def ofSize? (funclets : Nat) : Option FuncletCalls :=
  if funclets = 0 then none else some ⟨Array.replicate funclets .fresh, #[], 0, 0⟩

def size (g : FuncletCalls) : Nat := g.nodes.size

def edgesTo (g : FuncletCalls) (node : FuncletNode) : List CallEdge :=
  node.incoming.toList.filterMap fun i => g.edges[i]?

def target? (g : FuncletCalls) (delta : Int) : Option Nat :=
  let index := g.current + delta
  if 0 ≤ index ∧ index < g.size then some index.toNat else none

def modifyNode (index : Nat) (change : FuncletNode → FuncletNode) : Attempt FuncletCalls Unit :=
  modify fun g => { g with nodes := g.nodes.modify index change }

def nodeAt (index : Nat) : Attempt FuncletCalls FuncletNode := do
  inRange (← get).nodes[index]?

def resolveDelta {σ : Type} (g : FuncletCalls) (delta : Int) : Attempt σ Nat :=
  match g.target? delta with
  | some index => pure index
  | none => reject (.deltaOutOfRange delta g.size)

/-- Makes a funclet the current one. Its forward predecessors are then complete. -/
def enter (index : Nat) : Attempt FuncletCalls Unit := do
  let g ← get
  maintain (index = g.visited ∧ index < g.size) .entryOrder
  modifyNode index fun node => { node with entered := true }
  modify fun g => { g with current := index, visited := g.visited + 1 }

/-- Checks the recorded calls in order and stops at the first that disagrees. -/
def checkIncoming (index : Nat) (params : List ValueType) : List Nat → Attempt FuncletCalls Unit
  | [] => pure ()
  | i :: rest => do
      match (← get).edges[i]? with
      | none => checkIncoming index params rest
      | some edge =>
          unless edge.checked do
            unless edge.agrees params do
              rejectIn index (.forwardCallMismatch edge.caller edge.offset params edge.args)
            modify fun g => { g with edges := g.edges.modify i ({ · with checked := true }) }
          checkIncoming index params rest

def declare (index : Nat) (params : List ValueType) (declared : Nat) (explicit : Bool) :
    Attempt FuncletCalls Unit := do
  let node ← nodeAt index
  maintain (node.entered ∧ node.params.isNone) .declarationOrder
  modifyNode index fun node =>
    { node with params := some params, declared := declared, explicit := explicit }
  checkIncoming index params node.incoming.toList

/-- Takes the parameters from the first call that is not polymorphic. -/
def infer (index : Nat) : Attempt FuncletCalls (List ValueType) := do
  let node ← nodeAt index
  maintain (node.entered ∧ node.params.isNone) .inferenceOrder
  match ((← get).edgesTo node).find? fun edge => !edge.polymorphic with
  | some edge =>
      modifyNode index fun node => { node with params := some edge.args }
      checkIncoming index edge.args node.incoming.toList
      pure edge.args
  | none =>
      rejectIn index (if node.incoming.isEmpty then .unreachableFunclet else .uninferableFunclet)

/-- What keeps a call from being recorded. -/
def checkCall (index : Nat) (target : FuncletNode) (edge : CallEdge) : Attempt FuncletCalls Unit :=
  if edge.backward then do
    unless target.observed ≠ target.declared do rejectIn index (.excessCalls target.declared)
    maintain (target.sealed = false) .sealedFunclet
    match target.params with
    | none => violate .missingParams
    | some params =>
        unless edge.agrees params do rejectIn index (.backwardCallMismatch params edge.args)
  else maintain (target.entered = false) .enteredTarget

/-- Records a call from the current funclet, and tells whether it was the target's last. -/
def call (index : Nat) (args : List ValueType) (polymorphic : Bool) (offset : Nat) :
    Attempt FuncletCalls Bool := do
  let g ← get
  let backward := decide (index ≤ g.current)
  let edge : CallEdge := ⟨g.current, index, args, backward, polymorphic, offset, backward⟩
  match g.nodes[index]? with
  | none => violate .unknownTarget
  | some target =>
      checkCall index target edge
      modifyNode index (·.addCall g.edges.size backward)
      modify fun g => { g with edges := g.edges.push edge }
      return backward && (← nodeAt index).ready

def ready (index : Nat) : Attempt FuncletCalls Bool := do
  return (← nodeAt index).ready

def markComplete (index : Nat) : Attempt FuncletCalls Unit := do
  let node ← nodeAt index
  unless node.sealed do
    maintain (node.ready = true) .sealedEarly
    modifyNode index fun node => { node with sealed := true }

def finishNodes (index : Nat) : List FuncletNode → Attempt FuncletCalls Unit
  | [] => pure ()
  | node :: rest => do
      unless node.observed = node.declared do
        rejectIn index (.missingCalls node.declared node.observed)
      maintain (node.sealed = true) .unsealedFunclet
      finishNodes (index + 1) rest

/-- Succeeds on a graph in which every funclet is sealed and every call checked. -/
def finish : Attempt FuncletCalls Unit := do
  let g ← get
  require (g.visited = g.size) .unfinishedRegion
  finishNodes 0 g.nodes.toList
  maintain (g.edges.all CallEdge.checked = true) .uncheckedCall

end FuncletCalls

end WasmFunclets
