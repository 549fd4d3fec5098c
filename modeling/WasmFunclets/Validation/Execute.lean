import Std.Data.HashSet
import WasmFunclets.Validation.Region

/-! What each instruction does to the state of a validation. -/

namespace WasmFunclets.Validation

open Ssa (BlockKind)
open Ssa.Builder (addBlock declareArguments connect sealBlock)

def newTarget (kind : BlockKind) (types : List ValueType) : Step BlockId := onBuilder do
  let block ← addBlock kind
  declareArguments block types
  pure block

def openBlock (signature : Signature) : Step Unit := do
  let join ← newTarget .join signature.results
  let mark ← onStack (TypedStack.enter signature.params)
  pushFrame signature mark join .block

def openLoop (signature : Signature) : Step Unit := do
  let header ← newTarget .loopHeader signature.params
  branchTo header (← shareValues signature.params)
  let mark ← onStack (TypedStack.enter signature.params)
  moveTo header
  let args ← onBuilder (Ssa.Builder.args header)
  onStack (TypedStack.reset (TypedStack.withValues signature.params (args.map some)))
  pushFrame signature mark header .loop

def openIf (signature : Signature) : Step Unit := do
  let condition ← takeValue .i32
  let params ← shareValues signature.params
  emitStatement Opcode.ifThenByte [condition] 0
  let mark ← onStack (TypedStack.enter signature.params)
  let join ← newTarget .join signature.results
  let source := (← get).current
  fallThrough
  pushFrame signature mark join (.ifThen source params)

def openElse : Step Unit := do
  let frame ← innermost
  match frame.construct with
  | .ifThen condition params =>
      branchTo frame.target (← takeAll frame.signature.results)
      modify fun s => { s with control := s.control.pop.push { frame with construct := .ifElse } }
      followBlock condition
      onStack (TypedStack.reset
        (TypedStack.withValues frame.signature.params (params.map some)))
  | _ => reject .elseWithoutIf

/-- The end of a funclet falls through into the next one. -/
def closeFunclet (setting : Setting) (frame : Frame) : Step Unit := do
  let region ← openRegion
  let next := region.graph.current + 1
  if next < region.graph.size then
    transferTo next (← regionOperands) (← operandsUnreachable)
    nextFunclet setting
  else
    branchTo region.exit (← takeAll frame.signature.results)
    closeRegion

def closeLoop (frame : Frame) (results : List ValueId) : Step Unit := do
  onBuilder (sealBlock frame.target)
  onStack (TypedStack.leave frame.mark)
  putValues frame.signature.results results
  popFrame

def closeFunction (frame : Frame) (results : List ValueId) : Step Unit := do
  branchTo frame.target results
  onBuilder (sealBlock frame.target)
  popFrame

/-- Without an `else` the parameters are the results of the branch not taken. -/
def skipBranch (frame : Frame) (condition : BlockId) (params : List ValueId) : Step Unit := do
  let ⟨types, results⟩ := frame.signature
  require (types = results) (.missingElse results types)
  onBuilder (connect condition frame.target params)

def closeJoin (frame : Frame) (results : List ValueId) : Step Unit := do
  branchTo frame.target results
  onBuilder (sealBlock frame.target)
  onStack (TypedStack.leave frame.mark)
  moveTo frame.target
  putValues frame.signature.results (← onBuilder (Ssa.Builder.args frame.target))
  popFrame

def close (setting : Setting) : Step Unit := do
  let frame ← innermost
  match frame.construct with
  | .region => closeFunclet setting frame
  | .function => closeFunction frame (← takeAll frame.signature.results)
  | .loop => closeLoop frame (← takeAll frame.signature.results)
  | .ifThen condition params =>
      let results ← takeAll frame.signature.results
      skipBranch frame condition params
      closeJoin frame results
  | .block | .ifElse => closeJoin frame (← takeAll frame.signature.results)

def br (setting : Setting) (depth : Nat) : Step Unit := do
  let frame ← labelled depth
  branchTo frame.target (← shareValues frame.labelTypes)
  endBlock setting

def brIf (depth : Nat) : Step Unit := do
  let condition ← takeValue .i32
  let frame ← labelled depth
  let args ← shareValues frame.labelTypes
  emitStatement Opcode.brIfByte [condition] depth
  branchTo frame.target args
  fallThrough

/-- Every listed label must expect as many values as the default does, and gets one edge however
often it is listed. -/
def brTargets (expected : List ValueType) : List Nat → Std.HashSet BlockId → Step Unit
  | [], _ => pure ()
  | depth :: rest, seen => do
      let frame ← labelled depth
      require (frame.labelTypes.length = expected.length)
        (.operandMismatch expected frame.labelTypes)
      let args ← shareValues frame.labelTypes
      unless seen.contains frame.target do branchTo frame.target args
      brTargets expected rest (seen.insert frame.target)

def brTable (setting : Setting) (depths : List Nat) (default : Nat) : Step Unit := do
  let index ← takeValue .i32
  emitStatement Opcode.brTableByte [index] depths.length
  let frame ← labelled default
  brTargets frame.labelTypes (depths ++ [default]) ∅
  endBlock setting

def ret (setting : Setting) : Step Unit := do
  match (← get).control[0]? with
  | some function => branchTo (← get).exit (← shareValues function.signature.results)
  | none => violate .noOpenFrame
  endBlock setting

def pushResults (tuple : ValueId) : Nat → List ValueType → Step Unit
  | _, [] => pure ()
  | index, type :: types => do
      let block := (← get).current
      let value ← onBuilder (Ssa.Builder.project block tuple index type)
      putValue type value
      pushResults tuple (index + 1) types

def call (index : Nat) (callee : Signature) : Step Unit := do
  let args ← takeValues callee.params
  let immediate := UInt64.ofNat index
  match callee.results with
  | [type] => putValue type (← emit Opcode.callByte type args immediate)
  | results => pushResults (← emit Opcode.callByte .null args immediate) 0 results

def select : Step Unit := do
  let condition ← takeValue .i32
  let second ← onStack TypedStack.pop
  let first ← onStack <|
    if second.type = .any then TypedStack.pop else TypedStack.popType second.type
  let type := first.type
  require (type = .any ∨ type.isNumeric = true) .selectOperands
  let values ← valuesOf [first, second]
  putValue type (← emit Opcode.selectByte type (values ++ [condition]) 0)

def selectTyped (type : ValueType) : Step Unit := do
  let condition ← takeValue .i32
  let values ← takeValues [type, type]
  putValue type (← emit Opcode.selectTypedByte type (values ++ [condition]) 0)

def localGet (slot : Nat) (type : ValueType) : Step Unit := do
  let block := (← get).current
  putValue type (← onBuilder (Ssa.Builder.getLocal block slot))

def localSet (slot : Nat) (type : ValueType) : Step ValueId := do
  let value ← takeValue type
  let block := (← get).current
  onBuilder (Ssa.Builder.setLocal block slot value)
  pure value

def constant (type : ValueType) (bits : UInt64) : Step Unit := do
  let block := (← get).current
  putValue type (← onBuilder (Ssa.Builder.constant block type bits))

def operation (opcode : UInt8) (params : List ValueType) (result : ValueType)
    (immediate : UInt64) : Step Unit := do
  let value ← emit opcode result (← takeValues params) immediate
  unless result = .null do putValue result value

def funcletRegion (setting : Setting) (signature : Signature) (funclets : Nat) : Step Unit := do
  let depth := (← get).control.size
  let offset := (← get).start
  match FuncletCalls.ofSize? funclets with
  | none => violate .emptyRegion
  | some graph =>
      let blocks ← onBuilder ((List.replicate funclets BlockKind.funclet).mapM addBlock)
      let exit ← newTarget .join signature.results
      branchTo (blocks.headD 0) (← shareValues signature.params)
      let mark ← onStack (TypedStack.enter signature.params)
      pushFrame signature mark exit .region
      modify fun s =>
        { s with
          regions := ⟨signature, depth, offset, graph, blocks.toArray, exit, mark.height⟩
            :: s.regions }
      startFunclet setting 0

def strayFuncletSig : Step Unit := do
  reject (if (← get).regions.isEmpty then .signatureOutsideRegion else .signatureNotFirst)

def funcletCall (setting : Setting) (target : Nat) : Step Unit := do
  emitStatement Opcode.funcletCallByte [] target
  transferTo target (← regionOperands) (← operandsUnreachable)
  endBlock setting

def funcletCallIf (target : Nat) : Step Unit := do
  let condition ← takeValue .i32
  emitStatement Opcode.funcletCallIfByte [condition] target
  transferTo target (← regionOperands) (← operandsUnreachable)
  fallThrough

def callTargets (args : List Operand) (polymorphic : Bool) :
    List Nat → Std.HashSet Nat → Step Unit
  | [], _ => pure ()
  | target :: rest, seen => do
      unless seen.contains target do transferTo target args polymorphic
      callTargets args polymorphic rest (seen.insert target)

def funcletCallTable (setting : Setting) (targets : List Nat) (default : Nat) : Step Unit := do
  let index ← takeValue .i32
  emitStatement Opcode.funcletCallTableByte [index] targets.length
  let args ← regionOperands
  let polymorphic ← operandsUnreachable
  callTargets args polymorphic (targets ++ [default]) ∅
  endBlock setting

def execute (setting : Setting) : Instruction → Step Unit
  | .unreachable => do
      emitStatement Opcode.unreachableByte [] 0
      endBlock setting
  | .nop => pure ()
  | .block signature => openBlock signature
  | .loop signature => openLoop signature
  | .ifThen signature => openIf signature
  | .elseThen => openElse
  | .close => close setting
  | .br depth => br setting depth
  | .brIf depth => brIf depth
  | .brTable depths default => brTable setting depths default
  | .ret => ret setting
  | .call index callee => call index callee
  | .drop => do let _ ← onStack TypedStack.pop
  | .select => select
  | .selectTyped type => selectTyped type
  | .localGet slot type => localGet slot type
  | .localSet slot type => do let _ ← localSet slot type
  | .localTee slot type => do putValue type (← localSet slot type)
  | .constant type bits => constant type bits
  | .operation opcode params result immediate => operation opcode params result immediate
  | .funcletRegion signature funclets => funcletRegion setting signature funclets
  | .strayFuncletSig => strayFuncletSig
  | .funcletCall target => funcletCall setting target
  | .funcletCallIf target => funcletCallIf target
  | .funcletCallTable targets default => funcletCallTable setting targets default

end WasmFunclets.Validation
