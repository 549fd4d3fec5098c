import Std.Data.TreeMap
import WasmFunclets.Ssa.UseList

/-! Values and blocks of a function in static single assignment form. -/

namespace WasmFunclets

abbrev BlockId := Nat

namespace Ssa

/-- What a phi stands for: an argument of its block, or a local at the start of it. -/
inductive PhiRole where
  | argument (index : Nat)
  | «local» (slot : Nat)
  deriving DecidableEq, Repr

def PhiRole.index : PhiRole → Nat
  | argument i => i
  | «local» slot => slot

/-- An operand for each predecessor of its block, in their order, once it is complete. The users
are the phis that got this one, or one that it stands for, as an operand, and the watchers are
those of them that may have become trivial when this one is replaced: replaced users are left out
when a list is handed on. -/
structure Phi where
  role : PhiRole
  operands : Array ValueId
  complete : Bool
  users : UseList
  watchers : Array ValueId
  replacement : Option ValueId
  deriving DecidableEq, Repr

inductive Content where
  | param (slot : Nat)
  | zero
  | undef
  | constant (bits : UInt64)
  | phi (phi : Phi)
  | op (opcode : UInt8) (operands : List ValueId) (immediate : UInt64)
  | project (tuple : ValueId) (index : Nat)
  deriving DecidableEq, Repr

/-- Only an undefined value belongs to no block. -/
structure Value where
  type : ValueType
  block : Option BlockId
  content : Content
  deriving DecidableEq, Repr

namespace Value

def phi? (v : Value) : Option Phi :=
  match v.content with
  | .phi p => some p
  | _ => none

def isLivePhi (v : Value) : Bool :=
  match v.content with
  | .phi p => p.replacement.isNone
  | _ => false

def isCompletePhi (v : Value) : Bool :=
  match v.content with
  | .phi p => p.complete
  | _ => false

def updatePhi (change : Phi → Phi) (v : Value) : Value :=
  match v with
  | ⟨type, block, .phi p⟩ => ⟨type, block, .phi (change p)⟩
  | v => v

def operands (v : Value) : List ValueId :=
  match v.content with
  | .phi p => p.operands.toList
  | .op _ operands _ => operands
  | .project tuple _ => [tuple]
  | _ => []

end Value

inductive BlockKind where
  | entry | body | join | loopHeader | funclet | exit
  deriving DecidableEq, Repr

/-- The value of a local at the end of a block; a placeholder waits for the block's last
predecessor. -/
inductive Definition where
  | final (value : ValueId)
  | placeholder (phi : ValueId)
  deriving DecidableEq, Repr

def Definition.value : Definition → ValueId
  | final v => v
  | placeholder phi => phi

structure Predecessor where
  block : BlockId
  args : List ValueId
  deriving DecidableEq, Repr

/-- A sealed block gets no further predecessors. -/
structure Block where
  kind : BlockKind
  isSealed : Bool
  predecessors : Array Predecessor
  args : Option (Array ValueId)
  body : Array ValueId
  definitions : Std.TreeMap Nat Definition
  pending : Array (Nat × ValueId)

namespace Block

def fresh (kind : BlockKind) : Block := ⟨kind, false, #[], none, #[], ∅, #[]⟩

def entry : Block := { fresh .entry with isSealed := true }

def argIds (b : Block) : List ValueId := (b.args.getD #[]).toList

end Block

end Ssa

end WasmFunclets
