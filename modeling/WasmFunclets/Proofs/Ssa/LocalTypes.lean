import WasmFunclets.Proofs.Attempt
import WasmFunclets.Ssa.Control

/-! The types of the locals are fixed when a function is opened: no later change of it touches
them. The edges into a block are changed only where one is added or arguments are declared, and its
body only where an instruction is added to it. -/

namespace WasmFunclets.Ssa.Builder

open Attempt

def edges (b : Builder) (c : BlockId) : Option (Array Predecessor) :=
  b.blocks[c]?.map Block.predecessors

def bodyOf (b : Builder) (c : BlockId) : Array ValueId :=
  (b.blocks[c]?.map Block.body).getD #[]

/-- A change of a block that leaves its edges, its instructions and its arguments. -/
def Inner (change : Block → Block) : Prop :=
  ∀ k, (change k).predecessors = k.predecessors ∧ (change k).body = k.body ∧ (change k).args = k.args

/-- A view that shows neither values nor what blocks know of locals. -/
class HidesValues {α : Type} (view : Builder → α) : Prop where
  values : ∀ (b : Builder) (values : Array Value) (substitution : Substitution) (replaced : Nat),
    view { b with values := values, substitution := substitution, replacedPhis := replaced } = view b
  block : ∀ (b : Builder) (id : BlockId) (change : Block → Block), Inner change →
    view { b with blocks := b.blocks.modify id change } = view b

/-- A view that shows no bodies either. -/
class Bodiless {α : Type} (view : Builder → α) : Prop extends HidesValues view where
  body : ∀ (b : Builder) (id : BlockId) (change : Block → Block),
    (∀ k, (change k).predecessors = k.predecessors) →
      view { b with blocks := b.blocks.modify id change } = view b

/-- A view that shows no edges either. -/
class Edgeless {α : Type} (view : Builder → α) : Prop extends HidesValues view where
  edge : ∀ (b : Builder) (id : BlockId) (change : Block → Block),
    (∀ k, (change k).body = k.body) →
      view { b with blocks := b.blocks.modify id change } = view b

theorem map_modify {τ : Type} (blocks : Array Block) (id c : BlockId) {change : Block → Block}
    {part : Block → τ} (same : ∀ k, part (change k) = part k) :
    (blocks.modify id change)[c]?.map part = blocks[c]?.map part := by
  rw [Array.getElem?_modify]
  split
  · rw [Option.map_map]
    exact Option.map_congr fun k _ => same k
  · rfl

instance : Bodiless locals where
  values _ _ _ _ := rfl
  block _ _ _ _ := rfl
  body _ _ _ _ := rfl

instance : Edgeless locals where
  edge _ _ _ _ := rfl

def blockCount (b : Builder) : Nat := b.blocks.size

instance : Bodiless blockCount where
  values _ _ _ _ := rfl
  block _ _ _ _ := Array.size_modify
  body _ _ _ _ := Array.size_modify

instance : Edgeless blockCount where
  edge _ _ _ _ := Array.size_modify

instance : Bodiless edges where
  values _ _ _ _ := rfl
  block b id _ same := funext fun c => map_modify b.blocks id c fun k => (same k).1
  body b id _ same := funext fun c => map_modify b.blocks id c same

def argsAt (b : Builder) (c : BlockId) : Option (Array ValueId) := b.blocks[c]?.bind Block.args

instance : HidesValues argsAt where
  values _ _ _ _ := rfl
  block b id change same := funext fun c => by
    simp only [argsAt, Array.getElem?_modify]
    split
    · cases b.blocks[c]? with
      | none => rfl
      | some k => exact (same k).2.2
    · rfl

instance : Edgeless bodyOf where
  values _ _ _ _ := rfl
  block b id _ same := funext fun c =>
    congrArg (Option.getD · #[]) (map_modify b.blocks id c fun k => (same k).2.1)
  edge b id _ same := funext fun c => congrArg (Option.getD · #[]) (map_modify b.blocks id c same)

variable {α : Type} {view : Builder → α}

theorem addBlock_leaves (kind : BlockKind) : Leaves locals (addBlock kind) :=
  along_bind along_get fun _ => along_bind (along_modify fun _ => rfl) fun _ => along_pure _

theorem addBlock_bodyOf (kind : BlockKind) : Leaves bodyOf (addBlock kind) := by
  refine along_bind along_get fun _ => along_bind (along_modify fun b => ?_) fun _ => along_pure _
  funext c
  unfold bodyOf
  rw [Array.getElem?_push]
  split
  · rename_i new
    simp [new, Block.fresh]
  · rfl

theorem blockAt_leaves (id : BlockId) : Leaves view (blockAt id) :=
  along_bind along_get fun _ => leaves_inRange _

theorem checkBlock_leaves (id : BlockId) : Leaves view (checkBlock id) :=
  along_bind along_get fun _ => along_ite (along_pure _) (leaves_throw _)

theorem args_leaves (id : BlockId) : Leaves view (args id) :=
  along_bind (blockAt_leaves _) fun _ => along_bind along_get fun _ => along_pure _

section HidesValues

variable [HidesValues view]

theorem modifyBlock_leaves (id : BlockId) {change : Block → Block} (inner : Inner change) :
    Leaves view (modifyBlock id change) := along_modify fun b => HidesValues.block b id change inner

theorem define_leaves (block : BlockId) (slot : Nat) (definition : Definition) :
    Leaves view (define block slot definition) := modifyBlock_leaves _ fun _ => ⟨rfl, rfl, rfl⟩

theorem modifyPhi_leaves (id : ValueId) (change : Phi → Phi) :
    Leaves view (modifyPhi id change) := along_modify fun b => HidesValues.values b _ _ _

theorem addValue_leaves (type : ValueType) (block : Option BlockId) (content : Content) :
    Leaves view (addValue type block content) :=
  along_bind along_get fun _ => along_bind (leaves_maintain _ _) fun _ =>
    along_bind (along_modify fun b => HidesValues.values b _ _ _) fun _ => along_pure _

theorem undef_leaves (type : ValueType) : Leaves view (undef type) := addValue_leaves _ _ _

theorem addPhi_leaves (block : BlockId) (type : ValueType) (role : PhiRole) :
    Leaves view (addPhi block type role) := addValue_leaves _ _ _

theorem feed_leaves (phi operand : ValueId) : Leaves view (feed phi operand) :=
  along_bind along_get fun _ => along_bind (leaves_maintain _ _) fun _ =>
    along_bind (modifyPhi_leaves _ _) fun _ =>
      along_ite (modifyPhi_leaves _ _) (along_pure _)

theorem replace_leaves (phi same : ValueId) : Leaves view (replace phi same) := by
  intro s
  simp only [replace, modifyPhi, ends_bind, ends_get, ends_modify, ends_pure]
  exact HidesValues.values s _ _ _

theorem replaceTrivial_leaves (fuel : Nat) (worklist : List ValueId) :
    Leaves view (replaceTrivial fuel worklist) := by
  induction fuel generalizing worklist with
  | zero => exact leaves_throw _
  | succ fuel ih =>
      refine along_bind along_get fun b => ?_
      cases b.nextTrivial worklist with
      | none => exact along_pure _
      | some trivial =>
          have rest (same : ValueId) : Leaves view (do
              let users ← replace trivial.phi same
              replaceTrivial fuel ((← get).revisit users trivial.rest)) :=
            along_bind (replace_leaves _ _) fun _ => along_bind along_get fun _ => ih _
          dsimp only
          cases trivial.same with
          | none => exact along_bind (undef_leaves _) fun _ => rest _
          | some value => exact rest _

theorem removeTrivial_leaves (phi : ValueId) : Leaves view (removeTrivial phi) :=
  along_bind along_get fun _ => along_bind (replaceTrivial_leaves _ _) fun _ =>
    along_bind along_get fun _ => along_pure _

theorem defineAll_leaves (blocks : List BlockId) (slot : Nat) (definition : Definition) :
    Leaves view (defineAll blocks slot definition) :=
  along_forM fun _ _ => define_leaves _ _ _

theorem initialValue_leaves (slot : Nat) (type : ValueType) :
    Leaves view (initialValue slot type) :=
  along_bind along_get fun _ => addValue_leaves _ _ _

theorem find_leaves (slot : Nat) (type : ValueType) (start : BlockId) :
    Leaves view (find slot type start) := by
  refine along_bind along_get fun b => ?_
  have finish (chain : List BlockId) (value : ValueId) : Leaves view (do
      defineAll chain slot (.final value)
      pure (Found.value value)) :=
    along_bind (defineAll_leaves _ _ _) fun _ => along_pure _
  dsimp only
  split
  · exact finish _ _
  · exact along_bind (addPhi_leaves _ _ _) fun _ =>
      along_bind (modifyBlock_leaves _ fun _ => ⟨rfl, rfl, rfl⟩) fun _ =>
        along_bind (define_leaves _ _ _) fun _ => finish _ _
  · exact along_bind (initialValue_leaves _ _) fun _ =>
      along_bind (define_leaves _ _ _) fun _ => finish _ _
  · exact along_bind (undef_leaves _) fun _ =>
      along_bind (define_leaves _ _ _) fun _ => finish _ _
  · exact along_bind (undef_leaves _) fun _ => finish _ _
  · exact along_bind (addPhi_leaves _ _ _) fun _ =>
      along_bind (define_leaves _ _ _) fun _ => along_pure _

theorem gather_leaves (slot : Nat) (type : ValueType) (phi : ValueId) (waiting : List BlockId) :
    Leaves view (gather slot type phi waiting) := by
  induction waiting with
  | nil => exact along_pure _
  | cons pred waiting ih =>
      refine along_bind (find_leaves _ _ _) fun found => ?_
      cases found with
      | value value => exact along_bind (feed_leaves _ _) fun _ => ih
      | merge inner => exact along_pure _

theorem complete_leaves (slot : Nat) (merge : Merge) : Leaves view (complete slot merge) :=
  along_bind (modifyPhi_leaves _ _) fun _ => along_bind (removeTrivial_leaves _) fun _ =>
    along_bind (defineAll_leaves _ _ _) fun _ => along_pure _

theorem settle_leaves (slot : Nat) (type : ValueType) (fuel : Nat) (merge : Merge)
    (outer : List Merge) : Leaves view (settle slot type fuel merge outer) := by
  induction fuel generalizing merge outer with
  | zero => exact leaves_throw _
  | succ fuel ih =>
      refine along_bind (gather_leaves _ _ _ _) fun found => ?_
      cases found with
      | some inner => exact ih _ _
      | none =>
          refine along_bind (complete_leaves _ _) fun same => ?_
          cases outer with
          | nil => exact along_pure _
          | cons next outer => exact along_bind (feed_leaves _ _) fun _ => ih _ _

theorem lookup_leaves (slot : Nat) (type : ValueType) (block : BlockId) :
    Leaves view (lookup slot type block) := by
  refine along_bind (find_leaves _ _ _) fun found => ?_
  cases found with
  | value value => exact along_pure _
  | merge merge => exact along_bind along_get fun _ => settle_leaves _ _ _ _ _

theorem setLocal_leaves (block : BlockId) (slot : Nat) (value : ValueId) :
    Leaves view (setLocal block slot value) :=
  along_bind (checkBlock_leaves _) fun _ => along_bind along_get fun _ =>
    along_bind (leaves_maintain _ _) fun _ => define_leaves _ _ _

theorem getLocal_leaves (id : BlockId) (slot : Nat) : Leaves view (getLocal id slot) := by
  refine along_bind (blockAt_leaves _) fun block => along_bind along_get fun b => ?_
  cases b.locals[slot]? with
  | none => exact leaves_throw _
  | some type =>
      dsimp only
      cases block.definitions[slot]? with
      | some definition => exact along_bind along_get fun _ => along_pure _
      | none =>
          exact along_bind (lookup_leaves _ _ _) fun _ =>
            along_bind along_get fun _ => along_pure _

theorem pad_leaves (types : List ValueType) (args : List ValueId) :
    Leaves view (pad types args) :=
  along_bind (leaves_maintain _ _) fun _ =>
    along_bind (along_mapM fun _ _ => undef_leaves _) fun _ => along_pure _

theorem feedAll_leaves (phis values : List ValueId) : Leaves view (feedAll phis values) :=
  along_forM fun _ _ => feed_leaves _ _

theorem completeLocal_leaves (slot : Nat) (phi : ValueId) (predecessors : List Predecessor) :
    Leaves view (completeLocal slot phi predecessors) :=
  along_bind (along_forM fun _ _ => along_bind (getLocal_leaves _ _) fun _ => feed_leaves _ _)
    fun _ => along_bind (modifyPhi_leaves _ _) fun _ =>
      along_bind (removeTrivial_leaves _) fun _ => along_pure _

theorem confirm_leaves (id : BlockId) (slot : Nat) (phi : ValueId) :
    Leaves view (confirm id slot phi) :=
  along_bind (blockAt_leaves _) fun _ => along_ite
    (along_bind along_get fun _ => define_leaves _ _ _) (along_pure _)

theorem sealBlock_leaves (id : BlockId) : Leaves view (sealBlock id) := by
  refine along_bind (blockAt_leaves _) fun block => along_ite (along_pure _) ?_
  refine along_bind ?_ fun _ => along_bind ?_ fun _ => along_bind (modifyBlock_leaves _ fun _ => ⟨rfl, rfl, rfl⟩)
    fun _ => along_bind (along_forM fun _ _ => modifyPhi_leaves _ _) fun _ =>
      along_bind (along_forM fun _ _ => along_bind (removeTrivial_leaves _) fun _ =>
        along_pure _) fun _ => modifyBlock_leaves _ fun _ => ⟨rfl, rfl, rfl⟩
  · exact along_forM_array fun _ => completeLocal_leaves _ _ _
  · exact along_forM_array fun _ => confirm_leaves _ _ _

end HidesValues

section Bodiless

variable [Bodiless view]

theorem append_leaves (block : BlockId) (type : ValueType) (content : Content) :
    Leaves view (append block type content) :=
  along_bind (addValue_leaves _ _ _) fun _ =>
    along_bind (along_modify fun b => Bodiless.body b _ _ fun _ => rfl) fun _ => along_pure _

theorem constant_leaves (block : BlockId) (type : ValueType) (bits : UInt64) :
    Leaves view (constant block type bits) :=
  along_bind (checkBlock_leaves _) fun _ => append_leaves _ _ _

theorem project_leaves (block : BlockId) (tuple : ValueId) (index : Nat) (type : ValueType) :
    Leaves view (project block tuple index type) :=
  along_bind (checkBlock_leaves _) fun _ => along_bind along_get fun _ => append_leaves _ _ _

theorem emit_leaves (block : BlockId) (opcode : UInt8) (type : ValueType)
    (operands : List ValueId) (immediate : UInt64) :
    Leaves view (emit block opcode type operands immediate) :=
  along_bind (checkBlock_leaves _) fun _ => along_bind along_get fun _ =>
    along_bind (leaves_maintain _ _) fun _ => append_leaves _ _ _

end Bodiless

section Edgeless

variable [Edgeless view]

theorem modifyBlock_edges (id : BlockId) {change : Block → Block}
    (same : ∀ k, (change k).body = k.body) : Leaves view (modifyBlock id change) :=
  along_modify fun b => Edgeless.edge b id change same

theorem addArguments_leaves (block : BlockId) (index : Nat) (types : List ValueType) :
    Leaves view (addArguments block index types) := by
  induction types generalizing index with
  | nil => exact along_pure _
  | cons type types ih =>
      exact along_bind (addPhi_leaves _ _ _) fun _ =>
        along_bind (modifyBlock_edges _ fun _ => rfl) fun _ => ih _

theorem adoptEdges_leaves (block : BlockId) (types : List ValueType) (phis : List ValueId)
    (index : Nat) (edges : List Predecessor) :
    Leaves view (adoptEdges block types phis index edges) := by
  induction edges generalizing index with
  | nil => exact along_pure _
  | cons edge edges ih =>
      exact along_bind (pad_leaves _ _) fun _ => along_bind (modifyBlock_edges _ fun _ => rfl) fun _ =>
        along_bind (feedAll_leaves _ _) fun _ => ih _

theorem declareArguments_leaves (id : BlockId) (types : List ValueType) :
    Leaves view (declareArguments id types) :=
  along_bind (blockAt_leaves _) fun _ => along_bind (leaves_maintain _ _) fun _ =>
    along_bind (modifyBlock_edges _ fun _ => rfl) fun _ => along_bind (addArguments_leaves _ _ _) fun _ =>
      along_bind (blockAt_leaves _) fun _ => adoptEdges_leaves _ _ _ _ _

theorem connect_leaves (source id : BlockId) (args : List ValueId) :
    Leaves view (connect source id args) := by
  refine along_bind (checkBlock_leaves _) fun _ => along_bind (blockAt_leaves _) fun block =>
    along_bind (leaves_maintain _ _) fun _ => ?_
  cases block.args with
  | none => exact modifyBlock_edges _ fun _ => rfl
  | some phis =>
      exact along_bind along_get fun _ => along_bind (pad_leaves _ _) fun _ =>
        along_bind (feedAll_leaves _ _) fun _ => modifyBlock_edges _ fun _ => rfl

end Edgeless

end WasmFunclets.Ssa.Builder
