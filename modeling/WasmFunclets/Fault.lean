import WasmFunclets.ValueType

/-! Why a body is refused, the invariants a caller can break, and changes of state that may fail. -/

namespace WasmFunclets

inductive ErrorKind where
  | malformedEncoding | structural | typeMismatch | predecessorCount | unresolvedSignature
  deriving DecidableEq, Repr

namespace ErrorKind

def name : ErrorKind → String
  | malformedEncoding => "MalformedEncoding"
  | structural => "StructuralError"
  | typeMismatch => "TypeMismatch"
  | predecessorCount => "PredecessorCountError"
  | unresolvedSignature => "UnresolvedSignature"

end ErrorKind

/-- What an index of a body can name. -/
inductive Entity where
  | type | label | memory | function | local | global
  deriving DecidableEq, Repr

def Entity.name : Entity → String
  | type => "type"
  | label => "label"
  | memory => "memory"
  | function => "function"
  | «local» => "local"
  | global => "global"

inductive Cause where
  | unexpectedEnd
  | lengthOutOfBounds
  | integerTooLarge
  | integerTooLong
  | invalidLocalType
  | tooManyLocals
  | invalidBlockType
  | invalidValueType
  | invalidAlignment
  | illegalOpcode
  | noFunclets
  | tooManyFunclets
  | zeroByteExpected
  | trailingBytes
  | unfinishedRegion
  | unknown (entity : Entity)
  | overAligned
  | deltaOutOfRange (delta : Int) (funclets : Nat)
  | elseWithoutIf
  | resultArity
  | immutableGlobal
  | signatureOutsideRegion
  | signatureNotFirst
  | callOutsideRegion
  | underflow (expected : Option ValueType)
  | operandMismatch (expected actual : List ValueType)
  | resultMismatch (expected actual : List ValueType)
  | regionParams (funclet region : List ValueType)
  | missingElse (results params : List ValueType)
  | selectOperands
  | forwardCallMismatch (caller offset : Nat) (params args : List ValueType)
  | backwardCallMismatch (params args : List ValueType)
  | excessCalls (declared : Nat)
  | missingCalls (declared observed : Nat)
  | unreachableFunclet
  | uninferableFunclet
  deriving DecidableEq, Repr

namespace Cause

def kind : Cause → ErrorKind
  | unexpectedEnd | lengthOutOfBounds | integerTooLarge | integerTooLong | invalidLocalType
  | tooManyLocals | invalidBlockType | invalidValueType | invalidAlignment | illegalOpcode
  | noFunclets | tooManyFunclets | zeroByteExpected | trailingBytes => .malformedEncoding
  | unfinishedRegion | unknown _ | overAligned | deltaOutOfRange _ _ | elseWithoutIf | resultArity
  | immutableGlobal | signatureOutsideRegion | signatureNotFirst | callOutsideRegion => .structural
  | underflow _ | operandMismatch _ _ | resultMismatch _ _ | regionParams _ _ | missingElse _ _
  | selectOperands | forwardCallMismatch _ _ _ _ | backwardCallMismatch _ _ => .typeMismatch
  | excessCalls _ | missingCalls _ _ => .predecessorCount
  | unreachableFunclet | uninferableFunclet => .unresolvedSignature

def message : Cause → String
  | unexpectedEnd => "unexpected end"
  | lengthOutOfBounds => "length out of bounds"
  | integerTooLarge => "integer too large"
  | integerTooLong => "integer representation too long"
  | invalidLocalType => "invalid local type"
  | tooManyLocals => "too many locals"
  | invalidBlockType => "invalid block type"
  | invalidValueType => "invalid value type"
  | invalidAlignment => "malformed memop flags"
  | illegalOpcode => "illegal opcode"
  | noFunclets => "funclet region must declare at least one funclet"
  | tooManyFunclets => "funclet count exceeds the remaining body"
  | zeroByteExpected => "zero byte expected"
  | trailingBytes => "unexpected bytes after function end"
  | unfinishedRegion => "funclet region ends before all funclets are produced"
  | unknown entity => "unknown " ++ entity.name
  | overAligned => "alignment must not be larger than natural"
  | deltaOutOfRange delta funclets =>
      "funclet call delta " ++ toString delta ++ " out of range for region of "
        ++ toString funclets ++ " funclets"
  | elseWithoutIf => "else must close an if"
  | resultArity => "invalid result arity"
  | immutableGlobal => "global is immutable"
  | signatureOutsideRegion => "funclet_sig outside of a funclet region"
  | signatureNotFirst => "funclet_sig must be the first instruction of a funclet"
  | callOutsideRegion => "funclet call outside of a funclet region"
  | underflow _ => "type mismatch: operand stack underflow"
  | operandMismatch _ _ => "type mismatch"
  | resultMismatch _ _ => "type mismatch stack vs. results"
  | regionParams _ _ => "funclet region parameters do not match the first funclet"
  | missingElse _ _ => "type mismatch params vs. results"
  | selectOperands => "type mismatch: select needs numeric operands"
  | forwardCallMismatch caller offset _ _ =>
      "funclet call from funclet " ++ toString caller ++ " at offset " ++ toString offset
        ++ " does not match funclet signature"
  | backwardCallMismatch _ _ => "backward funclet call does not match funclet signature"
  | excessCalls declared =>
      "funclet declares " ++ toString declared
        ++ " backward predecessors but is called from below more often"
  | missingCalls declared observed =>
      "funclet declares " ++ toString declared ++ " backward predecessors but "
        ++ toString observed ++ " were observed"
  | unreachableFunclet => "funclet has no signature and is not reachable from above"
  | uninferableFunclet => "funclet has no signature and is only reachable from unreachable code"

def types? : Cause → Option (List ValueType × List ValueType)
  | underflow expected => expected.map fun t => ([t], [])
  | operandMismatch expected actual | resultMismatch expected actual
  | regionParams expected actual | missingElse expected actual
  | forwardCallMismatch _ _ expected actual | backwardCallMismatch expected actual =>
      some (expected, actual)
  | _ => none

end Cause

structure ValidationError where
  cause : Cause
  funclet : Option Nat
  offset : Option Nat
  deriving DecidableEq, Repr

/-- Promises between the components; a body never breaks one, a careless caller can. -/
inductive BrokenInvariant where
  | arenaExhausted
  | argumentsDeclaredTwice
  | edgeTooLong
  | sealedBlock
  | unknownWrite
  | unknownRead
  | unknownPhiOperand
  | unknownOperand
  | emptyRegion
  | entryOrder
  | declarationOrder
  | inferenceOrder
  | unknownTarget
  | sealedFunclet
  | enteredTarget
  | sealedEarly
  | unsealedFunclet
  | uncheckedCall
  | missingParams
  | noOpenFrame
  | stepsExhausted
  deriving DecidableEq, Repr

namespace BrokenInvariant

def message : BrokenInvariant → String
  | arenaExhausted => "value arena exhausted"
  | argumentsDeclaredTwice => "block arguments declared twice"
  | edgeTooLong => "edge carries more values than the block accepts"
  | sealedBlock => "predecessor added to sealed block"
  | unknownWrite => "write of unknown local or value"
  | unknownRead => "read of unknown local"
  | unknownPhiOperand => "phi operand is not a value"
  | unknownOperand => "operation operand is not a value"
  | emptyRegion => "funclet region without funclets"
  | entryOrder => "funclets must be entered in index order"
  | declarationOrder => "funclet signature declared out of order"
  | inferenceOrder => "funclet signature inferred out of order"
  | unknownTarget => "funclet call target out of range"
  | sealedFunclet => "predecessor added to sealed funclet"
  | enteredTarget => "forward call to an entered funclet"
  | sealedEarly => "funclet sealed before its last predecessor"
  | unsealedFunclet => "funclet left unsealed"
  | uncheckedCall => "funclet call left unchecked"
  | missingParams => "funclet parameters unknown"
  | noOpenFrame => "no open frame"
  | stepsExhausted => "more steps than the state allows"

end BrokenInvariant

inductive Fault where
  | invalid (error : ValidationError)
  | broken (invariant : BrokenInvariant)
  | outOfRange
  deriving DecidableEq, Repr

/-- A change of a state that may fail; a failure keeps the changes made before it. -/
abbrev Attempt (σ α : Type) := EStateM Fault σ α

variable {σ τ α : Type}

def reject (cause : Cause) : Attempt σ α := throw (.invalid ⟨cause, none, none⟩)

def rejectIn (funclet : Nat) (cause : Cause) : Attempt σ α :=
  throw (.invalid ⟨cause, some funclet, none⟩)

def violate (invariant : BrokenInvariant) : Attempt σ α := throw (.broken invariant)

def require (p : Prop) [Decidable p] (cause : Cause) : Attempt σ Unit :=
  if p then pure () else reject cause

def maintain (p : Prop) [Decidable p] (invariant : BrokenInvariant) : Attempt σ Unit :=
  if p then pure () else violate invariant

def inRange (found : Option α) : Attempt σ α :=
  match found with
  | some a => pure a
  | none => throw .outOfRange

/-- Runs a change of one part of a state. The part is taken out meanwhile, so that it is updated
in place. -/
@[inline] def within [Inhabited τ] (part : σ → τ) (put : τ → σ → σ) (change : Attempt τ α) :
    Attempt σ α := fun s =>
  let t := part s
  let s := put default s
  match change t with
  | .ok a t => .ok a (put t s)
  | .error e t => .error e (put t s)

end WasmFunclets
