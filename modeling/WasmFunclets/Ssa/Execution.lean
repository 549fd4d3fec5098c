import WasmFunclets.Machine
import WasmFunclets.Ssa.Builder

/-! How a function in SSA form runs, block by block. An edge hands all live phis of its target their
values at once, and every operand is read under the name that it stands for. Which edge is taken is left
open, and so is the meaning of the instructions. -/

namespace WasmFunclets.Ssa

open Machine (Action Event)

variable {V : Type}

def Value.action? (v : Value) : Option (Action × List ValueId) :=
  match v.content with
  | .op opcode operands immediate => some (.operation opcode immediate, operands)
  | .constant bits => some (.constant v.type bits, [])
  | .project tuple index => some (.project index, [tuple])
  | _ => none

/-- A place in a block, and what has been computed on the way there, the latest event first. -/
structure Point (V : Type) where
  block : BlockId
  position : Nat
  env : ValueId → Option V
  history : List (Event V)

namespace Point

variable (b : Builder) (meaning : List (Event V) → V)

def read (x : Point V) (id : ValueId) : Option V := x.env (b.representative id)

/-- Carries out the next instruction of the block. -/
def perform (x : Point V) : Option (Point V) := do
  let k ← b.blocks[x.block]?
  let id ← k.body[x.position]?
  let v ← b.values[id]?
  let (action, operands) ← v.action?
  let history := ⟨action, ← operands.mapM (x.read b)⟩ :: x.history
  return { x with
    position := x.position + 1
    env := fun i => if i = id then some (meaning history) else x.env i
    history }

/-- What a value is behind an edge of a block: a live phi of the block gets its operand for the edge. -/
def carried (target : BlockId) (edge : Nat) (x : Point V) (id : ValueId) : Option V :=
  match b.values[id]? with
  | some ⟨_, some home, .phi p⟩ =>
      if home = target ∧ p.replacement = none then p.operands[edge]?.bind (x.read b) else x.env id
  | _ => x.env id

/-- Goes from the end of a block to the start of another one by an edge between them. -/
def follow (target : BlockId) (edge : Nat) (x : Point V) : Option (Point V) := do
  let k ← b.blocks[x.block]?
  let l ← b.blocks[target]?
  let pred ← l.predecessors[edge]?
  if pred.block = x.block ∧ x.position = k.body.size then
    return ⟨target, 0, x.carried b target edge, x.history⟩
  else none

inductive Performs : Point V → Point V → Prop where
  | refl (x : Point V) : Performs x x
  | step {x y z : Point V} (next : x.perform b meaning = some y) (rest : Performs y z) : Performs x z

/-- Instructions of the block at hand, and then an edge to another block or none. -/
inductive GoesTo : Point V → Point V → Prop where
  | within {x y : Point V} (performs : x.Performs b meaning y) : GoesTo x y
  | across {x y z : Point V} {target : BlockId} {edge : Nat} (performs : x.Performs b meaning y)
      (follows : y.follow b target edge = some z) : GoesTo x z

def start (zero : ValueType → V) (args : List V) : Point V where
  block := Builder.entryId
  position := 0
  env id :=
    match b.values[id]? with
    | some ⟨_, _, .param slot⟩ => args[slot]?
    | some ⟨type, _, .zero⟩ => some (zero type)
    | _ => none
  history := []

end Point

end WasmFunclets.Ssa
