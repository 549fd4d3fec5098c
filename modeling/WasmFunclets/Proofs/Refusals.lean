import WasmFunclets.Proofs.Decoding
import WasmFunclets.Proofs.Ssa.Look
import WasmFunclets.Proofs.Step

/-! How the parts of a validation fail: the body is refused, or the function under construction runs
out of ids. -/

namespace WasmFunclets

open Attempt

namespace TypedStack

variable {s : TypedStack} {α : Type}

def Refuses (m : Attempt TypedStack α) : Prop :=
  ∀ s, Ends m s (fun _ _ => True) fun e _ => e.IsRefusal

theorem popTypes_refuses (types : List ValueType) : Refuses (popTypes types) := by
  intro s
  simp [popTypes]

theorem leave_refuses (saved : Mark) : Refuses (leave saved) := fun _ => trivial

theorem becomePolymorphic_refuses : Refuses becomePolymorphic := fun _ => trivial

theorem reset_refuses (operands : List Operand) : Refuses (reset operands) := fun _ => trivial

theorem enter_refuses (params : List ValueType) : Refuses (enter params) := by
  intro s
  rw [enter, ends_bind]
  exact (popTypes_refuses params s).imp fun _ _ _ => trivial

theorem pop_refuses : Refuses pop := by
  intro s
  simp only [pop, ends_bind, ends_get, ends_ite]
  refine ⟨fun _ => ⟨fun _ => trivial, fun _ => Fault.isRefusal_invalid _⟩, fun _ => ?_⟩
  cases s.operands.back? with
  | none => exact Fault.isRefusal_invalid _
  | some operand => exact trivial

theorem popType_refuses (type : ValueType) : Refuses (popType type) := by
  intro s
  simp only [popType, ends_bind, ends_get, ends_ite, ends_require]
  refine ⟨fun _ => ⟨fun _ => trivial, fun _ => Fault.isRefusal_invalid _⟩, fun _ =>
    ⟨fun _ => (pop_refuses s).imp fun _ _ _ => trivial, fun _ => Fault.isRefusal_invalid _⟩⟩

end TypedStack

namespace Validation

variable {α : Type} {s : State} {Q : α → State → Prop}

def Refused (e : Fault) (t : State) : Prop := e.IsRefusal ∨ Ssa.Builder.Exhausted e t.builder

theorem ends_onBuilder {m : Attempt Ssa.Builder α}
    (ends : Ends m s.builder (fun a b => Q a { s with builder := b }) Ssa.Builder.Exhausted) :
    Ends (onBuilder m) s Q Refused :=
  ends_within.mpr (ends.mono (fun _ _ good => good) fun _ _ bad => .inr bad)

theorem ends_onStack {m : Attempt TypedStack α} (refuses : TypedStack.Refuses m)
    (good : ∀ a k, m s.stack = .ok a k → Q a { s with stack := k }) : Ends (onStack m) s Q Refused :=
  ends_within.mpr <| ends_of_forall good fun _ _ error => .inl ((refuses s.stack).of_error error)

theorem ends_onCursor {m : Attempt Cursor α} (reads : ReadsOnward m)
    (good : ∀ a c, m s.cursor = .ok a c → Q a { s with cursor := c }) :
    Ends (onCursor m) s Q Refused :=
  ends_within.mpr <| ends_of_forall good fun _ _ error => .inl ((reads s.cursor).of_error error).1

theorem ends_onGraph {m : Attempt FuncletCalls α} {region : OpenRegion} {outer : List OpenRegion}
    (regions : s.regions = region :: outer)
    (ends : Ends m region.graph
      (fun a graph => Q a { s with regions := { region with graph } :: outer }) fun e _ => e.IsRefusal) :
    Ends (onGraph m) s Q Refused := by
  refine ends_of_forall (fun a t ok => ?_) fun e t error => ?_
  · obtain ⟨_, _, graph, same, changed, rfl⟩ := onGraph_ok.mp ok
    cases regions.symm.trans same
    exact ends.of_ok changed
  · simp only [onGraph, regions, within] at error
    split at error
    · cases error
    · rename_i split
      split at split <;> cases split
      cases error
      exact .inl (ends.of_error ‹_›)

theorem ends_innermost {Q : Frame → State → Prop} {frame : Frame} (top : s.frame? 0 = some frame)
    (good : Q frame s) : Ends innermost s Q Refused := by
  rw [innermost, ends_bind, ends_get, top]
  exact good

theorem ends_openRegion {Q : OpenRegion → State → Prop} {region : OpenRegion}
    {outer : List OpenRegion} (regions : s.regions = region :: outer) (good : Q region s) :
    Ends openRegion s Q Refused := by
  rw [openRegion, ends_bind, ends_get, regions]
  exact good

theorem ends_labelled {Q : Frame → State → Prop} {depth : Nat}
    (good : ∀ frame, s.frame? depth = some frame → Q frame s) : Ends (labelled depth) s Q Refused := by
  rw [labelled, ends_bind, ends_get]
  cases found : s.frame? depth with
  | none => exact .inl (Fault.isRefusal_invalid _)
  | some frame => exact good frame found

theorem ends_demand {p : Prop} [Decidable p] {cause : Cause} {Q : Unit → State → Prop}
    (good : p → Q () s) : Ends (require p cause) s Q Refused :=
  ends_require.mpr ⟨good, fun _ => .inl (Fault.isRefusal_invalid _)⟩

theorem ends_refuse {cause : Cause} : Ends (reject cause : Step α) s Q Refused :=
  .inl (Fault.isRefusal_invalid _)

theorem ends_blockOf {Q : BlockId → State → Prop} {region : OpenRegion} {index : Nat}
    {block : BlockId} (place : region.blocks[index]? = some block) (good : Q block s) :
    Ends (blockOf region index) s Q Refused := by
  rw [blockOf, ends_inRange, place]
  exact ⟨fun _ same => Option.some.inj same ▸ good, fun absurd_ => by cases absurd_⟩

theorem ends_when {β : Type} {m : Step Bool} {c : Step Unit} {rest : Unit → Step β}
    {Q : β → State → Prop} {E : Fault → State → Prop}
    (ends : Ends (do if ← m then c) s (fun x t => Ends (rest x) t Q E) E) :
    Ends (m >>= fun last => if last then c >>= rest else rest ()) s Q E := by
  rw [ends_bind] at ends ⊢
  refine ends.imp fun last t ends => ?_
  cases last <;> simpa using ends

theorem onBuilder_bind {β : Type} (m : Attempt Ssa.Builder α) (f : α → Attempt Ssa.Builder β) :
    onBuilder (m >>= f) = onBuilder m >>= fun a => onBuilder (f a) := by
  funext s
  simp only [onBuilder, within, bind, EStateM.bind]
  cases m s.builder <;> rfl

theorem valueOf_eq (operand : Operand) : valueOf operand = onBuilder (supplyOne operand) := by
  unfold valueOf supplyOne
  cases operand.value <;> rfl

theorem valuesOf_eq (operands : List Operand) : valuesOf operands = onBuilder (supply operands) := by
  induction operands with
  | nil => rfl
  | cons operand operands ih =>
      rw [valuesOf_cons, supply_cons, onBuilder_bind, valueOf_eq]
      refine congrArg _ (funext fun value => ?_)
      rw [ih, onBuilder_bind]
      rfl

variable {types : List ValueType}

theorem ends_valuesOf {Q : List ValueId → State → Prop} {operands : List Operand}
    (ends : Ends (supply operands) s.builder (fun vs b => Q vs { s with builder := b })
      Ssa.Builder.Exhausted) : Ends (valuesOf operands) s Q Refused := by
  rw [valuesOf_eq]
  exact ends_onBuilder ends

theorem ends_takeValues {Q : List ValueId → State → Prop}
    (ends : s.stack.accepts types = true → Ends (supply (s.stack.taken types)) s.builder
      (fun vs b => Q vs { s with stack := s.stack.without types, builder := b })
      Ssa.Builder.Exhausted) : Ends (takeValues types) s Q Refused := by
  rw [takeValues, ends_bind]
  refine ends_onStack (TypedStack.popTypes_refuses types) fun ops k ok => ?_
  obtain ⟨accepted, rfl, rfl⟩ := TypedStack.popTypes_ok.mp ok
  exact ends_valuesOf (ends accepted)

theorem ends_putValue {Q : Unit → State → Prop} {type : ValueType} {value : ValueId}
    (good : Q () { s with stack := s.stack.extend [⟨type, some value⟩] }) :
    Ends (putValue type value) s Q Refused := good

theorem ends_putValues {Q : Unit → State → Prop} {values : List ValueId}
    (good : Q () { s with stack := s.stack.extend (operandsOf types values) }) :
    Ends (putValues types values) s Q Refused := good

theorem ends_emit {Q : ValueId → State → Prop} {opcode : UInt8} {type : ValueType}
    {operands : List ValueId} {immediate : UInt64}
    (ends : Ends (Ssa.Builder.emit s.current opcode type operands immediate) s.builder
      (fun v b => Q v { s with builder := b }) Ssa.Builder.Exhausted) :
    Ends (emit opcode type operands immediate) s Q Refused := by
  rw [emit, ends_bind, ends_get]
  exact ends_onBuilder ends

theorem ends_branchTo {Q : Unit → State → Prop} {block : BlockId} {args : List ValueId}
    (ends : Ends (Ssa.Builder.connect s.current block args) s.builder
      (fun _ b => Q () { s with builder := b }) Ssa.Builder.Exhausted) :
    Ends (branchTo block args) s Q Refused := by
  rw [branchTo, ends_bind, ends_get]
  exact ends_onBuilder ends

theorem ends_followBlock {Q : Unit → State → Prop} {source : BlockId}
    (ends : Ends (follower source) s.builder
      (fun block b => Q () { s with builder := b, current := block }) Ssa.Builder.Exhausted) :
    Ends (followBlock source) s Q Refused := by
  have same : followBlock source = onBuilder (follower source) >>= moveTo := rfl
  rw [same, ends_bind]
  exact ends_onBuilder ends

end Validation

end WasmFunclets
