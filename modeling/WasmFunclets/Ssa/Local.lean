import WasmFunclets.Ssa.Phi

/-! Locals are written to a block and read from it; a read of a block without a definition looks
through its predecessors. -/

namespace WasmFunclets.Ssa.Builder

/-- Where a walk up single predecessors ends. -/
inductive Halt where
  | defined (value : ValueId)
  | unsealed (block : BlockId)
  | entry (block : BlockId)
  | orphan (block : BlockId)
  | cycle
  | join (block : BlockId) (predecessors : List BlockId)
  deriving DecidableEq, Repr

structure Walk where
  halt : Halt
  chain : List BlockId
  deriving DecidableEq, Repr

/-- A walk that visits more blocks than there are goes round a cycle of single predecessors, which
the entry never reaches. -/
def walk (b : Builder) (slot : Nat) : Nat → BlockId → List BlockId → Walk
  | 0, _, chain => ⟨.cycle, chain⟩
  | fuel + 1, id, chain =>
      match b.blocks[id]? with
      | none => ⟨.cycle, chain⟩
      | some block =>
          match block.definitions[slot]? with
          | some definition => ⟨.defined (b.representative definition.value), chain⟩
          | none =>
              if !block.isSealed then ⟨.unsealed id, chain⟩
              else if block.kind = .entry then ⟨.entry id, chain⟩
              else
                match block.predecessors.toList with
                | [] => ⟨.orphan id, chain⟩
                | [pred] => b.walk slot fuel pred.block (id :: chain)
                | predecessors => ⟨.join id (predecessors.map Predecessor.block), chain⟩

/-- A block whose phi still collects operands, and the blocks that share its definition. -/
structure Merge where
  block : BlockId
  phi : ValueId
  waiting : List BlockId
  chain : List BlockId
  deriving DecidableEq, Repr

inductive Found where
  | value (value : ValueId)
  | merge (merge : Merge)
  deriving DecidableEq, Repr

/-- The value of a local that is not written before the end of the entry. -/
def initialValue (slot : Nat) (type : ValueType) : Attempt Builder ValueId := do
  addValue type (some entryId) (if slot < (← get).paramCount then .param slot else .zero)

/-- Finds the definition of a local at the end of a block, or makes one where the walk ends. The
phi of a join counts as its definition while its operands are collected, which ends a lookup that
comes back to it. -/
def find (slot : Nat) (type : ValueType) (start : BlockId) : Attempt Builder Found := do
  let b ← get
  let ⟨halt, chain⟩ := b.walk slot b.blocks.size start []
  let finish (value : ValueId) : Attempt Builder Found := do
    defineAll chain slot (.final value)
    pure (.value value)
  match halt with
  | .defined value => finish value
  | .unsealed block =>
      let phi ← addPhi block type (.local slot)
      modifyBlock block fun b => { b with pending := b.pending.push (slot, phi) }
      define block slot (.placeholder phi)
      finish phi
  | .entry block =>
      let value ← initialValue slot type
      define block slot (.final value)
      finish value
  | .orphan block =>
      let value ← undef type
      define block slot (.final value)
      finish value
  | .cycle => finish (← undef type)
  | .join block predecessors =>
      let phi ← addPhi block type (.local slot)
      define block slot (.final phi)
      pure (.merge ⟨block, phi, predecessors, chain⟩)

/-- Gives a phi the definitions at the ends of the waiting blocks, up to one that has to be merged
first: that merge, and the blocks behind it. -/
def gather (slot : Nat) (type : ValueType) (phi : ValueId) :
    List BlockId → Attempt Builder (Option (Merge × List BlockId))
  | [] => pure none
  | pred :: waiting => do
      match ← find slot type pred with
      | .value value =>
          feed phi value
          gather slot type phi waiting
      | .merge inner => pure (some (inner, waiting))

def complete (slot : Nat) (merge : Merge) : Attempt Builder ValueId := do
  modifyPhi merge.phi fun p => { p with complete := true }
  let same ← removeTrivial merge.phi
  defineAll (merge.block :: merge.chain) slot (.final same)
  pure same

/-- Works off a merge and those that wait for it. -/
def settle (slot : Nat) (type : ValueType) :
    Nat → Merge → List Merge → Attempt Builder ValueId
  | 0, _, _ => violate .stepsExhausted
  | fuel + 1, merge, outer => do
      match ← gather slot type merge.phi merge.waiting with
      | some (inner, waiting) => settle slot type fuel inner ({ merge with waiting } :: outer)
      | none =>
          let same ← complete slot merge
          match outer with
          | [] => pure same
          | next :: outer =>
              feed next.phi same
              settle slot type fuel next outer

/-- A block merges at most once in a lookup, and each merge is begun and completed. -/
def lookup (slot : Nat) (type : ValueType) (block : BlockId) : Attempt Builder ValueId := do
  match ← find slot type block with
  | .value value => pure value
  | .merge merge => settle slot type (2 * (← get).blocks.size) merge []

def setLocal (block : BlockId) (slot : Nat) (value : ValueId) : Attempt Builder Unit := do
  checkBlock block
  let b ← get
  maintain (slot < b.locals.size ∧ value < b.values.size) .unknownWrite
  define block slot (.final value)

def getLocal (id : BlockId) (slot : Nat) : Attempt Builder ValueId := do
  let block ← blockAt id
  match (← get).locals[slot]? with
  | none => violate .unknownRead
  | some type =>
      match block.definitions[slot]? with
      | some definition => return (← get).representative definition.value
      | none =>
          let value ← lookup slot type id
          return (← get).representative value

end WasmFunclets.Ssa.Builder
