import WasmFunclets.Ssa.Builder

/-! Phis get operands, and one that merges a single value is replaced by it. -/

namespace WasmFunclets.Ssa.Builder

def feed (phi operand : ValueId) : Attempt Builder Unit := do
  let b ← get
  let operand := b.representative operand
  maintain (operand < b.values.size) .unknownPhiOperand
  let isUse := decide (operand ≠ phi) && b.isPhi operand
  modifyPhi phi fun p => { p with operands := p.operands.push operand }
  if isUse then
    modifyPhi operand fun p =>
      { p with users := p.users.push phi, watchers := p.watchers.push phi }

/-- Adds an operand to what a phi merges, at most one value so far; fails at a second one. The phi
itself does not count. -/
def merge (b : Builder) (phi : ValueId) (same : Option ValueId) (operand : ValueId) :
    Option (Option ValueId) :=
  let value := b.representative operand
  if value = phi ∨ same = some value then some same
  else if same.isNone then some (some value)
  else none

/-- A trivial phi, the one value it merges if there is any, and the worklist below it. -/
structure Trivial where
  phi : ValueId
  type : ValueType
  same : Option ValueId
  rest : List ValueId

/-- The first phi of a worklist that is live and trivial. -/
def nextTrivial (b : Builder) : List ValueId → Option Trivial
  | [] => none
  | id :: rest =>
      match b.values[id]? with
      | some ⟨type, _, .phi p⟩ =>
          if p.replacement.isSome then b.nextTrivial rest
          else
            match p.operands.foldlM (b.merge id) none with
            | some same => some ⟨id, type, same, rest⟩
            | none => b.nextTrivial rest
      | _ => b.nextTrivial rest

/-- Replaces a phi, hands its users on to the replacement and returns the live ones. -/
def replace (phi same : ValueId) : Attempt Builder (Array ValueId) := do
  let (users, watchers) := match (← get).values[phi]?.bind Value.phi? with
    | some p => (p.users, p.watchers)
    | none => (.empty, #[])
  modifyPhi phi fun p =>
    { p with users := .empty, watchers := #[], replacement := some same }
  modify fun b =>
    { b with
      substitution := b.substitution.replace phi same
      replacedPhis := b.replacedPhis + 1 }
  let live := watchers.filter (← get).isLivePhi
  modifyPhi same fun p =>
    { p with users := p.users.append users, watchers := p.watchers ++ live }
  pure live

/-- Complete users of a replaced phi on top of a worklist, the last of them first. -/
def revisit (b : Builder) (users : Array ValueId) (worklist : List ValueId) : List ValueId :=
  users.foldl (fun work user => if b.isCompletePhi user then user :: work else work) worklist

/-- Replaces the trivial phis of a worklist, and those that become trivial in turn. -/
def replaceTrivial : Nat → List ValueId → Attempt Builder Unit
  | 0, _ => violate .stepsExhausted
  | fuel + 1, worklist => do
      match (← get).nextTrivial worklist with
      | none => pure ()
      | some trivial =>
          let same ← match trivial.same with
            | some value => pure value
            | none => undef trivial.type
          let users ← replace trivial.phi same
          replaceTrivial fuel ((← get).revisit users trivial.rest)

/-- Removes a phi if it is trivial, and returns what stands for it. Each replacement leaves a live
phi less. -/
def removeTrivial (phi : ValueId) : Attempt Builder ValueId := do
  replaceTrivial ((← get).values.size + 1) [phi]
  return (← get).representative phi

end WasmFunclets.Ssa.Builder
