import WasmFunclets.Proofs.Ssa.Stable

/-! A function under construction never refuses the body: what goes wrong in it is either a broken
invariant or an index out of range. -/

namespace WasmFunclets.Ssa.Builder

open Attempt

variable {α β : Type}

def NeverRefuses (m : Attempt Builder α) : Prop :=
  Along (fun b t => t.locals = b.locals) (fun e _ _ => ¬ e.IsRefusal) m

instance : Composes (fun b t : Builder => t.locals = b.locals) fun e _ _ => ¬ e.IsRefusal where
  refl _ := rfl
  trans first second := second.trans first
  fails _ unrefused := unrefused

theorem lasting_locals (locals : Array ValueType) :
    Lasting (fun e _ => ¬ e.IsRefusal) (fun _ => True) (fun b => b.locals = locals) where
  mishaps _ _ bad _ _ := bad
  stuck _ := by simp
  locals _ _ _ := trivial
  onBlocks _ same := same
  onPhis _ _ := along_modify fun _ same => same
  onValues _ _ _ := saves_get_bind fun _ _ =>
    along_bind (saves_maintain (fun _ _ bad _ _ => bad) _ _) fun _ =>
      along_bind (along_modify fun _ same => same) fun _ => along_pure _
  onSubstitution _ _ same := same
  trivials _ _ := trivial

theorem stable_locals (locals : Array ValueType) :
    Stable (fun e _ => ¬ e.IsRefusal) (fun _ => True) (fun b => b.locals = locals) :=
  (lasting_locals locals).stable

theorem addBlock_neverRefuses (kind : BlockKind) : NeverRefuses (addBlock kind) := fun b =>
  ((stable_locals b.locals).durable.addBlock kind).ends rfl

theorem declareArguments_neverRefuses (id : BlockId) (types : List ValueType) :
    NeverRefuses (declareArguments id types) := fun b =>
  (declareArguments_saves (stable_locals b.locals).durable id fun _ _ => trivial).ends rfl

theorem args_neverRefuses (id : BlockId) : NeverRefuses (args id) := fun b =>
  Along.ends (along_bind (blockAt_saves (stable_locals b.locals).mishaps id) fun _ =>
    saves_get_bind fun _ _ => along_pure _) rfl

theorem connect_neverRefuses (source id : BlockId) (values : List ValueId) :
    NeverRefuses (connect source id values) := fun b =>
  connect_saves (stable_locals b.locals).durable rfl source id values fun _ _ _ _ => trivial

theorem sealBlock_neverRefuses (id : BlockId) : NeverRefuses (sealBlock id) := fun b =>
  (sealBlock_saves (stable_locals b.locals).durable id).ends rfl

theorem getLocal_neverRefuses (id : BlockId) (slot : Nat) : NeverRefuses (getLocal id slot) := fun b =>
  (getLocal_saves (stable_locals b.locals) id slot).ends rfl

theorem setLocal_neverRefuses (id : BlockId) (slot : Nat) (value : ValueId) :
    NeverRefuses (setLocal id slot value) := fun b =>
  (setLocal_saves (stable_locals b.locals) id slot value).ends rfl

theorem emit_neverRefuses (id : BlockId) (opcode : UInt8) (type : ValueType) (operands : List ValueId)
    (immediate : UInt64) : NeverRefuses (emit id opcode type operands immediate) := fun b =>
  (emit_saves (stable_locals b.locals).durable id opcode operands immediate trivial).ends rfl

theorem constant_neverRefuses (id : BlockId) (type : ValueType) (bits : UInt64) :
    NeverRefuses (constant id type bits) := fun b =>
  (constant_saves (stable_locals b.locals).durable id bits trivial).ends rfl

theorem project_neverRefuses (id : BlockId) (tuple : ValueId) (index : Nat) (type : ValueType) :
    NeverRefuses (project id tuple index type) := fun b =>
  (project_saves (stable_locals b.locals).durable id tuple index trivial).ends rfl

theorem undef_neverRefuses (type : ValueType) : NeverRefuses (undef type) := fun b =>
  (undef_saves (stable_locals b.locals).durable trivial).ends rfl

end WasmFunclets.Ssa.Builder
