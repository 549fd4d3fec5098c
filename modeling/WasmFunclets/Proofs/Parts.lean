import WasmFunclets.Proofs.Step

/-! What holds of the parts that instructions are made of holds of the instructions, up to the funclet
that an instruction may start in the end: nothing else in an instruction reads the bytes. -/

namespace WasmFunclets

/-- Whether an instruction may call funclets, as the end of a funclet calls the next one. -/
def Instruction.Calls : Instruction → Prop
  | .close | .funcletCall _ | .funcletCallIf _ | .funcletCallTable _ _ => True
  | _ => False

namespace Validation

open Attempt
open Ssa (BlockKind)

/-- What instructions look at in the innermost region, besides its calls. -/
structure RegionView where
  current : Nat
  size : Nat
  blocks : Array BlockId
  exit : BlockId
  base : Nat
  deriving DecidableEq, Repr

def OpenRegion.view (r : OpenRegion) : RegionView :=
  ⟨r.graph.current, r.graph.size, r.blocks, r.exit, r.base⟩

def regionView : Step RegionView := do return OpenRegion.view (← openRegion)

def recordCall (target : Nat) (args : List ValueType) (polymorphic : Bool) : Step Bool := do
  let offset := (← get).start
  onGraph (FuncletCalls.call target args polymorphic offset)

def enterRegion (region : Nat → OpenRegion) : Step Unit := do
  let offset := (← get).start
  modify fun s => { s with regions := region offset :: s.regions }

/-- A property of the parts of instructions that passes on to what is made of them, of instructions that
call funclets only where that is so. -/
structure Parts (calling : Prop) (P : ∀ {α : Type}, Step α → Prop) : Prop where
  pure : ∀ {α : Type} (a : α), P (pure a : Step α)
  throw : ∀ {α : Type} (e : Fault), P (throw e : Step α)
  bind : ∀ {α β : Type} {m : Step α} {f : α → Step β}, P m → (∀ a, P (f a)) → P (m >>= f)
  stack : ∀ {α : Type} (change : Attempt TypedStack α), P (onStack change)
  builder : ∀ {α : Type} (change : Attempt Ssa.Builder α), P (onBuilder change)
  control : ∀ change : Array Frame → Array Frame,
    P (modify fun s => { s with control := change s.control } : Step PUnit)
  move : ∀ block : BlockId, P (moveTo block)
  lookStack : P (do return (← get).stack : Step TypedStack)
  lookControl : P (do return (← get).control : Step (Array Frame))
  lookCurrent : P (do return (← get).current : Step BlockId)
  lookExit : P (do return (← get).exit : Step BlockId)
  lookRegion : P regionView
  lookRegions : P (do return (← get).regions.isEmpty : Step Bool)
  call : calling → ∀ target args polymorphic, P (recordCall target args polymorphic)
  complete : ∀ index : Nat, P (onGraph (FuncletCalls.markComplete index))
  enter : ∀ {funclets : Nat} {graph : FuncletCalls}, FuncletCalls.ofSize? funclets = some graph →
    ∀ signature depth blocks exit base, P (enterRegion fun offset =>
      ⟨signature, depth, offset, graph, blocks, exit, base⟩)
  close : P closeRegion

def openFunclets (signature : Signature) (funclets depth : Nat) (graph : FuncletCalls) :
    Step Unit := do
  let blocks ← onBuilder ((List.replicate funclets BlockKind.funclet).mapM Ssa.Builder.addBlock)
  let exit ← newTarget .join signature.results
  branchTo (blocks.headD 0) (← shareValues signature.params)
  let mark ← onStack (TypedStack.enter signature.params)
  pushFrame signature mark exit .region
  enterRegion fun offset => ⟨signature, depth, offset, graph, blocks.toArray, exit, mark.height⟩

def returnFrom (function : Frame) : Step Unit := do
  let args ← shareValues function.signature.results
  branchTo (← get).exit args

theorem bind_frozen {α β τ : Type} {view : State → τ} {m : Step α} {f g : α → Step β} {s : State}
    {seen : τ} (leaves : Leaves view m) (here : view s = seen)
    (same : ∀ a t, view t = seen → f a t = g a t) : (m >>= f) s = (m >>= g) s := by
  simp only [bind, EStateM.bind]
  cases ok : m s with
  | ok a t => exact same a t ((leaves.of_ok ok).trans here)
  | error e t => rfl

section Leaves

variable {α τ : Type} {view : State → τ}

theorem onStack_leaves (apart : ∀ s stack, view { s with stack } = view s)
    (change : Attempt TypedStack α) : Leaves view (onStack change) := fun s =>
  ends_within.mpr (ends_of_forall (fun _ t _ => apart s t) fun _ t _ => apart s t)

theorem onBuilder_leaves (apart : ∀ s builder, view { s with builder } = view s)
    (change : Attempt Ssa.Builder α) : Leaves view (onBuilder change) := fun s =>
  ends_within.mpr (ends_of_forall (fun _ t _ => apart s t) fun _ t _ => apart s t)

theorem shareValues_leaves (stack : ∀ s stack, view { s with stack } = view s)
    (builder : ∀ s builder, view { s with builder } = view s) (types : List ValueType) :
    Leaves view (shareValues types) := by
  refine along_bind (along_bind (onStack_leaves stack _) fun operands =>
    along_mapM fun operand _ => ?_) fun _ => along_bind (onStack_leaves stack _) fun _ =>
      along_pure _
  unfold valueOf
  split
  · exact along_pure _
  · exact onBuilder_leaves builder _

end Leaves

theorem ret_eq (setting : Setting) : ret setting = get >>= fun s =>
    (s.control[0]?).elim (violate .noOpenFrame) returnFrom >>= fun _ => endBlock setting := by
  funext s
  change ret setting s = ((s.control[0]?).elim (violate .noOpenFrame) returnFrom >>= fun _ =>
    endBlock setting) s
  unfold ret
  rw [show ∀ f : State → Step Unit, (get >>= f) s = f s s from fun _ => rfl]
  cases s.control[0]? with
  | none => rfl
  | some function =>
      rw [Option.elim_some, returnFrom, bind_assoc]
      exact bind_frozen (shareValues_leaves (fun _ _ => rfl) (fun _ _ => rfl) _)
        (rfl : s.exit = s.exit) fun args t same => by
          change (branchTo s.exit args >>= fun _ => endBlock setting) t =
            (branchTo t.exit args >>= fun _ => endBlock setting) t
          rw [same]

theorem funcletRegion_eq (setting : Setting) (signature : Signature) (funclets : Nat) :
    funcletRegion setting signature funclets = get >>= fun s =>
      (FuncletCalls.ofSize? funclets).elim (violate .emptyRegion)
        (openFunclets signature funclets s.control.size) >>= fun _ => startFunclet setting 0 := by
  funext s
  change funcletRegion setting signature funclets s = ((FuncletCalls.ofSize? funclets).elim
    (violate .emptyRegion) (openFunclets signature funclets s.control.size) >>= fun _ =>
      startFunclet setting 0) s
  unfold funcletRegion
  rw [show ∀ f : State → Step Unit, (get >>= f) s = f s s from fun _ => rfl,
    show ∀ f : State → Step Unit, (get >>= f) s = f s s from fun _ => rfl]
  cases FuncletCalls.ofSize? funclets with
  | none => rfl
  | some graph =>
      simp only [Option.elim_some, openFunclets, bind_assoc]
      refine bind_frozen (onBuilder_leaves (fun _ _ => rfl) _) (rfl : s.start = s.start)
        fun blocks t same => bind_frozen (onBuilder_leaves (fun _ _ => rfl) _) same
          fun exit t same => bind_frozen
            (shareValues_leaves (fun _ _ => rfl) (fun _ _ => rfl) _) same fun args t same => ?_
      refine bind_frozen (along_bind along_get fun _ => onBuilder_leaves (fun _ _ => rfl) _) same
        fun _ t same => bind_frozen (onStack_leaves (fun _ _ => rfl) _) same
          fun mark t same => bind_frozen (along_modify fun _ => rfl) same fun _ t same => ?_
      rw [← same]
      rfl

namespace Parts

variable {α β : Type} {calling : Prop} {P : ∀ {α : Type}, Step α → Prop}

theorem limit {calls : Prop} (parts : Parts calling P) (may : calls → calling) : Parts calls P :=
  { parts with call := fun calls => parts.call (may calls) }

theorem ite (_ : Parts calling P) {c : Prop} [Decidable c] {m n : Step α} (yes : P m)
    (no : P n) : P (if c then m else n) := by
  split
  · exact yes
  · exact no

theorem require (parts : Parts calling P) (p : Prop) [Decidable p] (cause : Cause) :
    P (require p cause : Step Unit) := parts.ite (parts.pure _) (parts.throw _)

theorem mapM (parts : Parts calling P) {items : List β} {f : β → Step α} (each : ∀ b, P (f b)) :
    P (items.mapM f) := by
  induction items with
  | nil => exact parts.pure _
  | cons item items ih =>
      rw [List.mapM_cons]
      exact parts.bind (each item) fun _ => parts.bind ih fun _ => parts.pure _

def frameIn (control : Array Frame) (depth : Nat) : Option Frame :=
  if depth < control.size then control[control.size - 1 - depth]? else none

theorem innermost_eq : innermost =
    ((do return (← get).control : Step (Array Frame)) >>= fun control =>
      (frameIn control 0).elim (violate .noOpenFrame) Pure.pure) := by
  funext s
  have look : s.frame? 0 = frameIn s.control 0 := rfl
  change Validation.innermost s =
    (frameIn s.control 0).elim (violate .noOpenFrame : Step Frame) Pure.pure s
  rw [Validation.innermost, show ∀ f : State → Step Frame, (get >>= f) s = f s s from fun _ => rfl]
  simp only [look]
  cases frameIn s.control 0 <;> rfl

theorem labelled_eq (depth : Nat) : labelled depth =
    ((do return (← get).control : Step (Array Frame)) >>= fun control =>
      (frameIn control depth).elim (reject (.unknown .label)) Pure.pure) := by
  funext s
  have look : s.frame? depth = frameIn s.control depth := rfl
  change Validation.labelled depth s =
    (frameIn s.control depth).elim (reject (.unknown .label) : Step Frame) Pure.pure s
  rw [Validation.labelled, show ∀ f : State → Step Frame, (get >>= f) s = f s s from fun _ => rfl]
  simp only [look]
  cases frameIn s.control depth <;> rfl

theorem elim (_ : Parts calling P) (found : Option α) {none : Step β} {some : α → Step β}
    (without : P none) (each : ∀ a, P (some a)) : P (found.elim none some) := by
  cases found
  · exact without
  · exact each _

theorem atStack (parts : Parts calling P) (f : TypedStack → Step β) (rest : ∀ stack, P (f stack)) :
    P (get >>= fun s => f s.stack) := parts.bind (f := f) parts.lookStack rest

theorem atCurrent (parts : Parts calling P) (f : BlockId → Step β) (rest : ∀ block, P (f block)) :
    P (get >>= fun s => f s.current) := parts.bind (f := f) parts.lookCurrent rest

theorem atRegions (parts : Parts calling P) (f : Bool → Step β) (rest : ∀ outside, P (f outside)) :
    P (get >>= fun s => f s.regions.isEmpty) := parts.bind (f := f) parts.lookRegions rest

theorem atExit (parts : Parts calling P) (f : BlockId → Step β) (rest : ∀ block, P (f block)) :
    P (get >>= fun s => f s.exit) := parts.bind (f := f) parts.lookExit rest

theorem innermost (parts : Parts calling P) : P innermost := by
  rw [innermost_eq]
  exact parts.bind parts.lookControl fun _ => parts.elim _ (parts.throw _) parts.pure

theorem labelled (parts : Parts calling P) (depth : Nat) : P (labelled depth) := by
  rw [labelled_eq]
  exact parts.bind parts.lookControl fun _ => parts.elim _ (parts.throw _) parts.pure

theorem inRange (parts : Parts calling P) (found : Option α) : P (inRange found : Step α) := by
  cases found
  · exact parts.throw _
  · exact parts.pure _

theorem atRegion (parts : Parts calling P) (f : RegionView → Step β) (rest : ∀ v, P (f v)) :
    P (openRegion >>= fun r => f (OpenRegion.view r)) := by
  have same : (openRegion >>= fun r => f (OpenRegion.view r)) = regionView >>= f := by
    simp [regionView]
  rw [same]
  exact parts.bind parts.lookRegion rest

theorem regionOperands (parts : Parts calling P) : P regionOperands :=
  parts.atRegion (fun v => do WasmFunclets.inRange ((← get).stack.operandsFrom v.base)) fun v =>
    parts.atStack (fun stack => WasmFunclets.inRange (stack.operandsFrom v.base)) fun _ =>
      parts.inRange _

theorem operandsUnreachable (parts : Parts calling P) : P operandsUnreachable :=
  parts.atStack
    (fun stack => do return stack.polymorphic || (← Validation.innermost).outerUnreachable)
    fun _ => parts.bind parts.innermost fun _ => parts.pure _

theorem branchTo (parts : Parts calling P) (target : BlockId) (args : List ValueId) :
    P (branchTo target args) :=
  parts.atCurrent (fun block => onBuilder (Ssa.Builder.connect block target args)) fun _ =>
    parts.builder _

theorem valuesOf (parts : Parts calling P) (operands : List Operand) : P (valuesOf operands) :=
  parts.mapM fun operand => by
    unfold valueOf
    split
    · exact parts.pure _
    · exact parts.builder _

theorem takeValues (parts : Parts calling P) (types : List ValueType) : P (takeValues types) :=
  parts.bind (parts.stack _) fun _ => parts.valuesOf _

theorem takeValue (parts : Parts calling P) (type : ValueType) : P (takeValue type) :=
  parts.bind (parts.takeValues _) fun _ => parts.pure _

theorem shareValues (parts : Parts calling P) (types : List ValueType) : P (shareValues types) :=
  parts.bind (parts.takeValues _) fun _ => parts.bind (parts.stack _) fun _ => parts.pure _

theorem takeAll (parts : Parts calling P) (results : List ValueType) : P (takeAll results) :=
  parts.atStack
    (fun stack => do
      WasmFunclets.require (stack.holdsExactly results = true)
        (.resultMismatch results (stack.typesFrom stack.floor))
      Validation.takeValues results)
    fun _ => parts.bind (parts.require _ _) fun _ => parts.takeValues _

theorem emit (parts : Parts calling P) (opcode : UInt8) (type : ValueType)
    (operands : List ValueId) (immediate : UInt64) : P (emit opcode type operands immediate) :=
  parts.atCurrent
    (fun block => onBuilder (Ssa.Builder.emit block opcode type operands immediate))
    fun _ => parts.builder _

theorem emitStatement (parts : Parts calling P) (opcode : UInt8) (operands : List ValueId)
    (immediate : Nat) : P (emitStatement opcode operands immediate) :=
  parts.bind (parts.emit _ _ _ _) fun _ => parts.pure _

theorem followBlock (parts : Parts calling P) (source : BlockId) : P (followBlock source) :=
  parts.bind (parts.builder _) fun _ => parts.move _

theorem fallThrough (parts : Parts calling P) : P fallThrough :=
  parts.atCurrent Validation.followBlock fun _ => parts.followBlock _

def pushed (signature : Signature) (mark : Mark) (target : BlockId) (construct : Construct)
    (control : Array Frame) : Array Frame :=
  let outerUnreachable :=
    match construct, frameIn control 0 with
    | .region, _ => false
    | _, none => false
    | _, some parent => parent.outerUnreachable || mark.polymorphic
  control.push ⟨signature, mark, target, construct, outerUnreachable⟩

theorem pushFrame_eq (signature : Signature) (mark : Mark) (target : BlockId)
    (construct : Construct) : pushFrame signature mark target construct =
      modify fun s => { s with control := pushed signature mark target construct s.control } := by
  refine congrArg modify (funext fun s => ?_)
  have look : s.frame? 0 = frameIn s.control 0 := rfl
  unfold pushed
  rewrite [look]
  cases construct <;> cases frameIn s.control 0 <;> rfl

theorem pushFrame (parts : Parts calling P) (signature : Signature) (mark : Mark)
    (target : BlockId) (construct : Construct) : P (pushFrame signature mark target construct) := by
  rw [pushFrame_eq]
  exact parts.control _

theorem popFrame (parts : Parts calling P) : P popFrame := parts.control Array.pop

theorem newTarget (parts : Parts calling P) (kind : BlockKind) (types : List ValueType) :
    P (newTarget kind types) := parts.builder _

theorem blockOf (parts : Parts calling P) (index : Nat) :
    P (openRegion >>= fun r => blockOf r index) :=
  parts.atRegion (fun v => WasmFunclets.inRange v.blocks[index]?) fun _ => parts.inRange _

theorem completeFunclet (parts : Parts calling P) (index : Nat) : P (completeFunclet index) := by
  have same : Validation.completeFunclet index = (do
      onGraph (FuncletCalls.markComplete index)
      let block ← openRegion >>= fun r => Validation.blockOf r index
      onBuilder (Ssa.Builder.sealBlock block)) := by
    simp only [Validation.completeFunclet, bind_assoc]
  rw [same]
  exact parts.bind (parts.complete index) fun _ => parts.bind (parts.blockOf index) fun _ =>
    parts.builder _

theorem transferTo (parts : Parts calling P) (may : calling) (target : Nat) (args : List Operand)
    (polymorphic : Bool) : P (transferTo target args polymorphic) := by
  have same : Validation.transferTo target args polymorphic = (do
      let last ← recordCall target (args.map Operand.type) polymorphic
      let block ← openRegion >>= fun r => Validation.blockOf r target
      Validation.branchTo block (← Validation.valuesOf args)
      if last then Validation.completeFunclet target) := by
    simp only [Validation.transferTo, recordCall, bind_assoc]
  rw [same]
  refine parts.bind (parts.call may _ _ _) fun last => parts.bind (parts.blockOf target) fun _ =>
    parts.bind (parts.valuesOf _) fun _ => parts.bind (parts.branchTo _ _) fun _ => ?_
  exact parts.ite (parts.completeFunclet _) (parts.pure _)

theorem openBlock (parts : Parts calling P) (signature : Signature) : P (openBlock signature) :=
  parts.bind (parts.newTarget _ _) fun _ => parts.bind (parts.stack _) fun _ =>
    parts.pushFrame _ _ _ _

theorem openLoop (parts : Parts calling P) (signature : Signature) : P (openLoop signature) :=
  parts.bind (parts.newTarget _ _) fun _ => parts.bind (parts.shareValues _) fun _ =>
    parts.bind (parts.branchTo _ _) fun _ => parts.bind (parts.stack _) fun _ =>
      parts.bind (parts.move _) fun _ => parts.bind (parts.builder _) fun _ =>
        parts.bind (parts.stack _) fun _ => parts.pushFrame _ _ _ _

theorem openIf (parts : Parts calling P) (signature : Signature) : P (openIf signature) :=
  parts.bind (parts.takeValue _) fun _ => parts.bind (parts.shareValues _) fun params =>
    parts.bind (parts.emitStatement _ _ _) fun _ => parts.bind (parts.stack _) fun mark =>
      parts.bind (parts.newTarget _ _) fun join => parts.atCurrent
        (fun source => do
          Validation.fallThrough
          Validation.pushFrame signature mark join (.ifThen source params))
        fun _ => parts.bind parts.fallThrough fun _ => parts.pushFrame _ _ _ _

theorem openElse (parts : Parts calling P) : P openElse := by
  refine parts.bind parts.innermost fun frame => ?_
  cases frame.construct with
  | ifThen condition params =>
      exact parts.bind (parts.takeAll _) fun _ => parts.bind (parts.branchTo _ _) fun _ =>
        parts.bind
          (parts.control fun control => control.pop.push { frame with construct := .ifElse })
          fun _ => parts.bind (parts.followBlock _) fun _ => parts.stack _
  | _ => exact parts.throw _

theorem closeLoop (parts : Parts calling P) (frame : Frame) (results : List ValueId) :
    P (closeLoop frame results) :=
  parts.bind (parts.builder _) fun _ => parts.bind (parts.stack _) fun _ =>
    parts.bind (parts.stack _) fun _ => parts.popFrame

theorem closeFunction (parts : Parts calling P) (frame : Frame) (results : List ValueId) :
    P (closeFunction frame results) :=
  parts.bind (parts.branchTo _ _) fun _ => parts.bind (parts.builder _) fun _ => parts.popFrame

theorem skipBranch (parts : Parts calling P) (frame : Frame) (condition : BlockId)
    (params : List ValueId) : P (skipBranch frame condition params) :=
  parts.bind (parts.require _ _) fun _ => parts.builder _

theorem closeJoin (parts : Parts calling P) (frame : Frame) (results : List ValueId) :
    P (closeJoin frame results) :=
  parts.bind (parts.branchTo _ _) fun _ => parts.bind (parts.builder _) fun _ =>
    parts.bind (parts.stack _) fun _ => parts.bind (parts.move _) fun _ =>
      parts.bind (parts.builder _) fun _ => parts.bind (parts.stack _) fun _ => parts.popFrame

theorem brIf (parts : Parts calling P) (depth : Nat) : P (brIf depth) :=
  parts.bind (parts.takeValue _) fun _ => parts.bind (parts.labelled _) fun _ =>
    parts.bind (parts.shareValues _) fun _ => parts.bind (parts.emitStatement _ _ _) fun _ =>
      parts.bind (parts.branchTo _ _) fun _ => parts.fallThrough

theorem brTargets (parts : Parts calling P) (expected : List ValueType) (depths : List Nat)
    (seen : Std.HashSet BlockId) : P (brTargets expected depths seen) := by
  induction depths generalizing seen with
  | nil => exact parts.pure _
  | cons depth depths ih =>
      exact parts.bind (parts.labelled _) fun _ => parts.bind (parts.require _ _) fun _ =>
        parts.bind (parts.shareValues _) fun _ => parts.ite (ih _)
          (parts.bind (parts.branchTo _ _) fun _ => ih _)

theorem pushResults (parts : Parts calling P) (tuple : ValueId) (index : Nat)
    (types : List ValueType) : P (pushResults tuple index types) := by
  induction types generalizing index with
  | nil => exact parts.pure _
  | cons type types ih =>
      exact parts.atCurrent
        (fun block => do
          let value ← onBuilder (Ssa.Builder.project block tuple index type)
          putValue type value
          Validation.pushResults tuple (index + 1) types)
        fun _ => parts.bind (parts.builder _) fun _ => parts.bind (parts.stack _) fun _ => ih _

theorem call_ (parts : Parts calling P) (index : Nat) (callee : Signature) :
    P (Validation.call index callee) := by
  refine parts.bind (parts.takeValues _) fun args => ?_
  dsimp only
  split
  · exact parts.bind (parts.emit _ _ _ _) fun _ => parts.stack _
  · exact parts.bind (parts.emit _ _ _ _) fun _ => parts.pushResults _ _ _

theorem select (parts : Parts calling P) : P select := by
  refine parts.bind (parts.takeValue _) fun _ => parts.bind (parts.stack _) fun second =>
    parts.bind ?_ fun _ => parts.bind (parts.require _ _) fun _ => parts.bind (parts.valuesOf _)
      fun _ => parts.bind (parts.emit _ _ _ _) fun _ => parts.stack _
  split <;> exact parts.stack _

theorem selectTyped (parts : Parts calling P) (type : ValueType) : P (selectTyped type) :=
  parts.bind (parts.takeValue _) fun _ => parts.bind (parts.takeValues _) fun _ =>
    parts.bind (parts.emit _ _ _ _) fun _ => parts.stack _

theorem localGet (parts : Parts calling P) (slot : Nat) (type : ValueType) :
    P (localGet slot type) :=
  parts.atCurrent
    (fun block => do putValue type (← onBuilder (Ssa.Builder.getLocal block slot)))
    fun _ => parts.bind (parts.builder _) fun _ => parts.stack _

theorem localSet (parts : Parts calling P) (slot : Nat) (type : ValueType) :
    P (localSet slot type) :=
  parts.bind (parts.takeValue _) fun value => parts.atCurrent
    (fun block => do
      onBuilder (Ssa.Builder.setLocal block slot value)
      return value)
    fun _ => parts.bind (parts.builder _) fun _ => parts.pure _

theorem constant (parts : Parts calling P) (type : ValueType) (bits : UInt64) :
    P (constant type bits) :=
  parts.atCurrent
    (fun block => do putValue type (← onBuilder (Ssa.Builder.constant block type bits)))
    fun _ => parts.bind (parts.builder _) fun _ => parts.stack _

theorem operation (parts : Parts calling P) (opcode : UInt8) (params : List ValueType)
    (result : ValueType) (immediate : UInt64) : P (operation opcode params result immediate) :=
  parts.bind (parts.takeValues _) fun _ => parts.bind (parts.emit _ _ _ _) fun _ =>
    parts.ite (parts.pure _) (parts.stack _)

theorem funcletCallIf (parts : Parts calling P) (may : calling) (target : Nat) : P (funcletCallIf target) :=
  parts.bind (parts.takeValue _) fun _ => parts.bind (parts.emitStatement _ _ _) fun _ =>
    parts.bind parts.regionOperands fun _ => parts.bind parts.operandsUnreachable fun _ =>
      parts.bind (parts.transferTo may _ _ _) fun _ => parts.fallThrough

theorem callTargets (parts : Parts calling P) (may : calling) (args : List Operand) (polymorphic : Bool)
    (targets : List Nat) (seen : Std.HashSet Nat) :
    P (callTargets args polymorphic targets seen) := by
  induction targets generalizing seen with
  | nil => exact parts.pure _
  | cons target targets ih =>
      exact parts.ite (ih _) (parts.bind (parts.transferTo may _ _ _) fun _ => ih _)

theorem strayFuncletSig (parts : Parts calling P) : P strayFuncletSig :=
  parts.atRegions (fun outside => reject (if outside = true then .signatureOutsideRegion
    else .signatureNotFirst)) fun _ => parts.throw _

theorem openFunclets (parts : Parts calling P) {funclets : Nat} {graph : FuncletCalls}
    (sized : FuncletCalls.ofSize? funclets = some graph) (signature : Signature) (depth : Nat) :
    P (openFunclets signature funclets depth graph) :=
  parts.bind (parts.builder _) fun _ => parts.bind (parts.newTarget _ _) fun _ =>
    parts.bind (parts.shareValues _) fun _ => parts.bind (parts.branchTo _ _) fun _ =>
      parts.bind (parts.stack _) fun _ => parts.bind (parts.pushFrame _ _ _ _) fun _ =>
        parts.enter sized _ _ _ _ _

theorem returnFrom (parts : Parts calling P) (function : Frame) : P (returnFrom function) :=
  parts.bind (parts.shareValues _) fun args => parts.atExit
    (fun exit => Validation.branchTo exit args) fun _ => parts.branchTo _ _

end Parts

def FromParts {α : Type} (calling : Prop) (m : Step α) : Prop :=
  ∀ P : (∀ {α : Type}, Step α → Prop), Parts calling P → P m

def startAt (setting : Setting) : Option Nat → Step Unit
  | none => pure ()
  | some index => startFunclet setting index

theorem FromParts.of_all {α : Type} {calling : Prop} {m : Step α} (made : FromParts calling m)
    {P : ∀ {α : Type}, Step α → Prop} (parts : Parts True P) : P m :=
  made _ (parts.limit fun _ => trivial)

/-- Parts, and behind them the start of a funclet, or nothing, as it is allowed. -/
def StartsLast (calling : Prop) (allowed : Option Nat → Prop) (m : Setting → Step Unit) : Prop :=
  ∃ lead : Step (Option Nat), FromParts calling lead ∧ (∀ s start t, lead s = .ok start t → allowed start) ∧
    ∀ setting, m setting = lead >>= startAt setting

section StartsLast

variable {α : Type} {m : Step α} {calling : Prop} {allowed : Option Nat → Prop}

theorem startsLast_start {index : Nat} (holds : allowed (some index)) :
    StartsLast calling allowed fun setting => startFunclet setting index := by
  refine ⟨pure (some index), fun _ parts => parts.pure _, fun s start t ok => ?_,
    fun _ => (pure_bind _ _).symm⟩
  rwa [← (pure_ok.mp ok).1]

theorem startsLast_parts {m : Step Unit} (holds : allowed none) (made : FromParts calling m) :
    StartsLast calling allowed fun _ => m := by
  refine ⟨m >>= fun _ => pure none, fun _ parts => parts.bind (made _ parts) fun _ => parts.pure _,
    fun s start t ok => ?_, fun setting => ?_⟩
  · obtain ⟨_, _, _, ok⟩ := bind_ok.mp ok
    rwa [← (pure_ok.mp ok).1]
  · rw [bind_assoc]
    exact (bind_pure m).symm

theorem startsLast_bind {f : α → Setting → Step Unit} (made : FromParts calling m)
    (rest : ∀ a, StartsLast calling allowed (f a)) :
    StartsLast calling allowed fun setting => m >>= fun a => f a setting := by
  refine ⟨m >>= fun a => (rest a).choose,
    fun _ parts => parts.bind (made _ parts) fun a => (rest a).choose_spec.1 _ parts,
    fun s start t ok => ?_, fun setting => ?_⟩
  · obtain ⟨a, u, _, ok⟩ := bind_ok.mp ok
    exact (rest a).choose_spec.2.1 u start t ok
  · rw [bind_assoc]
    exact congrArg _ (funext fun a => (rest a).choose_spec.2.2 setting)

theorem startsLast_ite {c : Prop} [Decidable c] {m n : Setting → Step Unit}
    (yes : StartsLast calling allowed m) (no : StartsLast calling allowed n) :
    StartsLast calling allowed fun setting => if c then m setting else n setting := by
  split
  · exact yes
  · exact no

theorem startsLast_atRegion {f : RegionView → Setting → Step Unit}
    (rest : ∀ v, StartsLast calling allowed (f v)) :
    StartsLast calling allowed fun setting => openRegion >>= fun r => f (OpenRegion.view r) setting := by
  have same (setting : Setting) : (openRegion >>= fun r => f (OpenRegion.view r) setting) =
      regionView >>= fun v => f v setting := by
    simp [regionView]
  simp only [same]
  exact startsLast_bind (fun _ parts => parts.lookRegion) rest

theorem startsLast_atControl {f : Array Frame → Setting → Step Unit}
    (rest : ∀ control, StartsLast calling allowed (f control)) :
    StartsLast calling allowed fun setting => get >>= fun s => f s.control setting :=
  startsLast_bind (m := do return (← get).control) (fun _ parts => parts.lookControl) rest

theorem nextFunclet_startsLast : StartsLast calling (· ≠ some 0) nextFunclet :=
  startsLast_atRegion
    (f := fun v setting =>
      if v.current + 1 < v.size then startFunclet setting (v.current + 1) else closeRegion)
    fun _ => startsLast_ite (startsLast_start (by simp))
      (startsLast_parts (by simp) fun _ parts => parts.close)

theorem endBlock_startsLast : StartsLast calling (· ≠ some 0) endBlock :=
  startsLast_bind (fun _ parts => parts.innermost) fun _ => startsLast_ite nextFunclet_startsLast <|
    startsLast_parts (by simp) fun _ parts => parts.bind (parts.stack _) fun _ =>
      parts.bind (parts.builder _) fun _ => parts.move _

theorem closeFunclet_startsLast (may : calling) (frame : Frame) :
    StartsLast calling (· ≠ some 0) fun setting => closeFunclet setting frame :=
  startsLast_atRegion
    (f := fun v setting => do
      if v.current + 1 < v.size then
        transferTo (v.current + 1) (← regionOperands) (← operandsUnreachable)
        nextFunclet setting
      else
        branchTo v.exit (← takeAll frame.signature.results)
        closeRegion)
    fun _ => startsLast_ite
      (startsLast_bind (fun _ parts => parts.regionOperands) fun _ => startsLast_bind
        (fun _ parts => parts.operandsUnreachable) fun _ => startsLast_bind
          (fun _ parts => parts.transferTo may _ _ _) fun _ => nextFunclet_startsLast)
      (startsLast_parts (by simp) fun _ parts => parts.bind (parts.takeAll _) fun _ =>
        parts.bind (parts.branchTo _ _) fun _ => parts.close)

theorem close_startsLast (may : calling) : StartsLast calling (· ≠ some 0) Validation.close := by
  refine startsLast_bind (fun _ parts => parts.innermost) fun frame => ?_
  cases frame.construct with
  | region => exact closeFunclet_startsLast may frame
  | function =>
      exact startsLast_parts (by simp) fun _ parts => parts.bind (parts.takeAll _) fun _ =>
        parts.closeFunction _ _
  | loop =>
      exact startsLast_parts (by simp) fun _ parts => parts.bind (parts.takeAll _) fun _ =>
        parts.closeLoop _ _
  | ifThen condition params =>
      exact startsLast_parts (by simp) fun _ parts => parts.bind (parts.takeAll _) fun _ =>
        parts.bind (parts.skipBranch _ _ _) fun _ => parts.closeJoin _ _
  | block | ifElse =>
      exact startsLast_parts (by simp) fun _ parts => parts.bind (parts.takeAll _) fun _ =>
        parts.closeJoin _ _

theorem br_startsLast (depth : Nat) : StartsLast calling (· ≠ some 0) fun setting => br setting depth :=
  startsLast_bind (fun _ parts => parts.labelled _) fun _ => startsLast_bind
    (fun _ parts => parts.shareValues _) fun _ => startsLast_bind
      (fun _ parts => parts.branchTo _ _) fun _ => endBlock_startsLast

theorem brTable_startsLast (depths : List Nat) (default : Nat) :
    StartsLast calling (· ≠ some 0) fun setting => brTable setting depths default :=
  startsLast_bind (fun _ parts => parts.takeValue _) fun _ => startsLast_bind
    (fun _ parts => parts.emitStatement _ _ _) fun _ => startsLast_bind
      (fun _ parts => parts.labelled _) fun _ => startsLast_bind
        (fun _ parts => parts.brTargets _ _ _) fun _ => endBlock_startsLast

theorem ret_startsLast : StartsLast calling (· ≠ some 0) ret := by
  rw [funext ret_eq]
  refine startsLast_atControl (f := fun control setting => (control[0]?).elim (violate .noOpenFrame)
    returnFrom >>= fun _ => endBlock setting) fun control => ?_
  exact startsLast_bind (fun _ parts => parts.elim _ (parts.throw _) fun _ => parts.returnFrom _)
    fun _ => endBlock_startsLast

theorem funcletCall_startsLast (may : calling) (target : Nat) :
    StartsLast calling (· ≠ some 0) fun setting => funcletCall setting target :=
  startsLast_bind (fun _ parts => parts.emitStatement _ _ _) fun _ => startsLast_bind
    (fun _ parts => parts.regionOperands) fun _ => startsLast_bind
      (fun _ parts => parts.operandsUnreachable) fun _ => startsLast_bind
        (fun _ parts => parts.transferTo may _ _ _) fun _ => endBlock_startsLast

theorem funcletCallTable_startsLast (may : calling) (targets : List Nat) (default : Nat) :
    StartsLast calling (· ≠ some 0) fun setting => funcletCallTable setting targets default :=
  startsLast_bind (fun _ parts => parts.takeValue _) fun _ => startsLast_bind
    (fun _ parts => parts.emitStatement _ _ _) fun _ => startsLast_bind
      (fun _ parts => parts.regionOperands) fun _ => startsLast_bind
        (fun _ parts => parts.operandsUnreachable) fun _ => startsLast_bind
          (fun _ parts => parts.callTargets may _ _ _ _) fun _ => endBlock_startsLast

theorem funcletRegion_startsLast (signature : Signature) (funclets : Nat) :
    StartsLast calling (· = some 0) fun setting => funcletRegion setting signature funclets := by
  simp only [funcletRegion_eq]
  refine startsLast_atControl (f := fun control setting => (FuncletCalls.ofSize? funclets).elim
    (violate .emptyRegion) (openFunclets signature funclets control.size) >>= fun _ =>
      startFunclet setting 0) fun control => ?_
  refine startsLast_bind (fun _ parts => ?_) fun _ => startsLast_start rfl
  cases sized : FuncletCalls.ofSize? funclets with
  | none => exact parts.throw _
  | some graph => exact parts.openFunclets sized _ _

/-- An instruction reads no bytes but those of the header of a funclet that it starts in the end, and
starts the first one of a region only where it opens the region. -/
theorem execute_startsLast (i : Instruction) :
    StartsLast i.Calls (fun start => start = some 0 ↔ ∃ signature funclets, i = .funcletRegion signature funclets)
      fun setting => execute setting i := by
  have later {m : Setting → Step Unit} (starts : StartsLast i.Calls (· ≠ some 0) m)
      (other : ∀ signature funclets, i ≠ .funcletRegion signature funclets) :
      StartsLast i.Calls (fun start => start = some 0 ↔
        ∃ signature funclets, i = .funcletRegion signature funclets) m := by
    obtain ⟨lead, made, allowed, same⟩ := starts
    refine ⟨lead, made, fun s start t ok => iff_of_false (allowed s start t ok) ?_, same⟩
    rintro ⟨signature, funclets, opens⟩
    exact other signature funclets opens
  have never {m : Step Unit} (made : FromParts i.Calls m) : StartsLast i.Calls (· ≠ some 0) fun _ => m :=
    startsLast_parts (by simp) made
  cases i with
  | funcletRegion signature funclets =>
      obtain ⟨lead, made, allowed, same⟩ := funcletRegion_startsLast signature funclets
      exact ⟨lead, made, fun s start t ok => iff_of_true (allowed s start t ok) ⟨_, _, rfl⟩, same⟩
  | unreachable =>
      refine later (startsLast_bind (fun _ parts => parts.emitStatement _ _ _) fun _ =>
        endBlock_startsLast) ?_
      simp
  | close => exact later (close_startsLast trivial) (by simp)
  | br depth => exact later (br_startsLast depth) (by simp)
  | brTable depths default => exact later (brTable_startsLast depths default) (by simp)
  | ret => exact later ret_startsLast (by simp)
  | funcletCall target => exact later (funcletCall_startsLast trivial target) (by simp)
  | funcletCallTable targets default =>
      exact later (funcletCallTable_startsLast trivial targets default) (by simp)
  | nop => exact later (never fun _ parts => parts.pure _) (by simp)
  | block signature => exact later (never fun _ parts => parts.openBlock signature) (by simp)
  | loop signature => exact later (never fun _ parts => parts.openLoop signature) (by simp)
  | ifThen signature => exact later (never fun _ parts => parts.openIf signature) (by simp)
  | elseThen => exact later (never fun _ parts => parts.openElse) (by simp)
  | brIf depth => exact later (never fun _ parts => parts.brIf depth) (by simp)
  | call index callee => exact later (never fun _ parts => parts.call_ index callee) (by simp)
  | drop =>
      exact later (never fun _ parts => parts.bind (parts.stack _) fun _ => parts.pure _) (by simp)
  | select => exact later (never fun _ parts => parts.select) (by simp)
  | selectTyped type => exact later (never fun _ parts => parts.selectTyped type) (by simp)
  | localGet slot type => exact later (never fun _ parts => parts.localGet slot type) (by simp)
  | localSet slot type =>
      refine later (never fun _ parts => ?_) (by simp)
      exact parts.bind (parts.localSet slot type) fun _ => parts.pure _
  | localTee slot type =>
      refine later (never fun _ parts => ?_) (by simp)
      exact parts.bind (parts.localSet slot type) fun _ => parts.stack _
  | constant type bits => exact later (never fun _ parts => parts.constant type bits) (by simp)
  | operation opcode params result immediate =>
      exact later (never fun _ parts => parts.operation opcode params result immediate) (by simp)
  | strayFuncletSig => exact later (never fun _ parts => parts.strayFuncletSig) (by simp)
  | funcletCallIf target => exact later (never fun _ parts => parts.funcletCallIf trivial target) (by simp)

end StartsLast

end Validation

end WasmFunclets
