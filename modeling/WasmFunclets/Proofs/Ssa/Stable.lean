import WasmFunclets.Proofs.Ssa.LocalTypes
import WasmFunclets.Proofs.Ssa.Look

/-! What every operation on a function under construction keeps, also where it fails: it has to survive
five changes only, which all operations are made of. -/

namespace WasmFunclets

namespace Attempt

variable {σ α β : Type} {E : Fault → σ → Prop} {P : σ → Prop}

/-- What holds before the attempt holds at its end; if it fails, then as it may. -/
abbrev Saves (E : Fault → σ → Prop) (P : σ → Prop) (m : Attempt σ α) : Prop :=
  Along (fun s t => P s → P t) (fun e s t => P s → E e t) m

instance : Composes (fun s t => P s → P t) fun e s t => P s → E e t where
  refl _ before := before
  trans first second before := second (first before)
  fails first second before := second (first before)

/-- An attempt may fail where it has neither refused the body nor run out of steps. -/
def Mishaps (E : Fault → σ → Prop) (P : σ → Prop) : Prop :=
  ∀ e s, ¬ e.IsRefusal → e ≠ .broken .stepsExhausted → P s → E e s

abbrev Spared (spared : Fault → Prop) (P : σ → Prop) : Fault → σ → Prop := fun e s => spared e ∨ P s

theorem mishaps_spared {spared : Fault → Prop} : Mishaps (Spared spared P) P :=
  fun _ _ _ _ before => .inr before

theorem saves_throw (mishaps : Mishaps E P) {e : Fault} (bad : ¬ e.IsRefusal)
    (fits : e ≠ .broken .stepsExhausted) : Saves E P (throw e : Attempt σ α) :=
  along_throw fun s before => mishaps e s bad fits before

theorem saves_get_bind {f : σ → Attempt σ β} (rest : ∀ s, P s → Saves E P (f s)) :
    Saves E P (get >>= f) := along_of_ends fun s before => (rest s before).ends before

theorem saves_maintain (mishaps : Mishaps E P) (p : Prop) [Decidable p]
    (invariant : BrokenInvariant) (fits : invariant ≠ .stepsExhausted := by decide) :
    Saves E P (maintain p invariant : Attempt σ Unit) :=
  along_maintain p invariant fun s before => mishaps _ s (by simp) (by simpa using fits) before

theorem saves_inRange (mishaps : Mishaps E P) (found : Option α) :
    Saves E P (inRange found : Attempt σ α) :=
  along_inRange (fun s before => mishaps _ s (by simp) (by simp) before) found

end Attempt

/-- Blocks that agree on the definitions of locals and on the blocks they follow. -/
structure Ssa.Block.Tied (k l : Block) : Prop where
  definitions : l.definitions = k.definitions
  sources : l.predecessors.map Predecessor.block = k.predecessors.map Predecessor.block

/-- Blocks of which the later one, besides, waits for no further phis. -/
structure Ssa.Block.NoNewPending (k l : Block) : Prop extends k.Tied l where
  pending : ∀ entry ∈ l.pending, entry ∈ k.pending

namespace Ssa.Builder

open Attempt

/-- What is kept when blocks change, when a value of one of the given types is added, when a phi gets
an operand, and when phis are completed and, if trivial, removed. -/
structure Stable (E : Fault → Builder → Prop) (types : ValueType → Prop) (P : Builder → Prop) :
    Prop where
  mishaps : Mishaps E P
  stuck : ∀ {b : Builder}, P b → E (.broken .stepsExhausted) b
  locals : ∀ {b : Builder}, P b → ∀ type ∈ b.locals, types type
  onBlocks : ∀ {b : Builder} (blocks : Array Block), P b → P { b with blocks }
  addPhi : ∀ {type : ValueType} (block : BlockId) (role : PhiRole), types type →
    Saves E P (addPhi block type role)
  addValue : ∀ {type : ValueType} {content : Content} (home : Option BlockId), types type →
    (∀ p, content ≠ .phi p) → Saves E P (addValue type home content)
  feed : ∀ phi operand : ValueId, Saves E P (feed phi operand)
  finish : ∀ phi : ValueId, Saves E P (do
    modifyPhi phi fun p => { p with complete := true }
    removeTrivial phi)
  finishAll : ∀ phis : List ValueId, Saves E P (do
    phis.forM fun phi => modifyPhi phi fun p => { p with complete := true }
    phis.forM fun phi => do let _ ← removeTrivial phi)

variable {E : Fault → Builder → Prop} {types : ValueType → Prop} {P : Builder → Prop}

theorem blockAt_saves (mishaps : Mishaps E P) (id : BlockId) : Saves E P (blockAt id) :=
  saves_get_bind fun _ _ => saves_inRange mishaps _

theorem checkBlock_saves (mishaps : Mishaps E P) (id : BlockId) : Saves E P (checkBlock id) :=
  saves_get_bind fun _ _ => along_ite (along_pure _) (saves_throw mishaps (by simp) (by simp))

/-- A block that a walk stops at for want of a definition, and that gets a phi. -/
def Halt.open? : Halt → Option BlockId
  | .unsealed c => some c
  | .join c _ => some c
  | _ => none

theorem walk_open {b : Builder} {slot fuel : Nat} {start c : BlockId} {chain : List BlockId}
    (stops : (b.walk slot fuel start chain).halt.open? = some c) :
    ∃ k, b.blocks[c]? = some k ∧ k.definitions[slot]? = none := by
  induction fuel generalizing start chain with
  | zero => cases stops
  | succ fuel ih =>
      rw [walk] at stops
      cases present : b.blocks[start]? with
      | none =>
          rw [present] at stops
          cases stops
      | some k =>
          rw [present] at stops
          dsimp only at stops
          cases defined : k.definitions[slot]? with
          | some d =>
              rw [defined] at stops
              cases stops
          | none =>
              rw [defined] at stops
              dsimp only at stops
              split at stops
              · cases stops
                exact ⟨k, present, defined⟩
              · split at stops
                · cases stops
                · split at stops
                  · cases stops
                  · exact ih stops
                  · cases stops
                    exact ⟨k, present, defined⟩

/-- What is kept when a local is read: when a block gets a definition of it, when a new phi is the first
one that a block gets, when other values are added, and when phis get operands, are completed and
removed. -/
structure Readable (E : Fault → Builder → Prop) (types : ValueType → Prop) (slot : Nat)
    (P : Builder → Prop) : Prop where
  mishaps : Mishaps E P
  stuck : ∀ {b : Builder}, P b → E (.broken .stepsExhausted) b
  locals : ∀ {b : Builder}, P b → ∀ type ∈ b.locals, types type
  define : ∀ {b : Builder} (c : BlockId) (d : Definition), P b → P (b.onBlock c (Block.define slot d))
  wait : ∀ {b : Builder} {type : ValueType} {c : BlockId} {k : Block}, types type →
    b.blocks[c]? = some k → k.definitions[slot]? = none → P b →
      Ends (addPhi c type (.local slot)) b (fun phi t =>
        P ((t.onBlock c fun k => { k with pending := k.pending.push (slot, phi) }).onBlock c
          (Block.define slot (.placeholder phi)))) E
  join : ∀ {b : Builder} {type : ValueType} {c : BlockId} {k : Block}, types type →
    b.blocks[c]? = some k → k.definitions[slot]? = none → P b →
      Ends (addPhi c type (.local slot)) b (fun phi t =>
        P (t.onBlock c (Block.define slot (.final phi)))) E
  addValue : ∀ {type : ValueType} {content : Content} (home : Option BlockId), types type →
    (∀ p, content ≠ .phi p) → Saves E P (addValue type home content)
  feed : ∀ phi operand : ValueId, Saves E P (feed phi operand)
  finish : ∀ phi : ValueId, Saves E P (do
    modifyPhi phi fun p => { p with complete := true }
    removeTrivial phi)

theorem Stable.readable (stable : Stable E types P) (slot : Nat) : Readable E types slot P where
  mishaps := stable.mishaps
  stuck := stable.stuck
  locals := stable.locals
  define _ _ before := stable.onBlocks _ before
  wait allowed _ _ before := ((stable.addPhi _ _ allowed).ends before).imp fun _ _ after =>
    stable.onBlocks _ (stable.onBlocks _ after)
  join allowed _ _ before := ((stable.addPhi _ _ allowed).ends before).imp fun _ _ after =>
    stable.onBlocks _ after
  addValue := stable.addValue
  feed := stable.feed
  finish := stable.finish

namespace Readable

variable {slot : Nat} (readable : Readable E types slot P)
include readable

theorem defineAll (blocks : List BlockId) (d : Definition) :
    Saves E P (defineAll blocks slot d) :=
  along_forM fun c _ => along_modify fun _ => readable.define c d

theorem find {type : ValueType} (allowed : types type) (start : BlockId) :
    Saves E P (find slot type start) := by
  refine along_of_ends fun b before => ?_
  rw [Builder.find, ends_bind, ends_get]
  have opens {c : BlockId} (stops : (b.walk slot b.blocks.size start []).halt.open? = some c) :
      ∃ k, b.blocks[c]? = some k ∧ k.definitions[slot]? = none := walk_open stops
  generalize b.walk slot b.blocks.size start [] = w at opens ⊢
  obtain ⟨halt, chain⟩ := w
  dsimp only at opens ⊢
  have finish (value : ValueId) : Saves E P (do
      Builder.defineAll chain slot (.final value)
      pure (Found.value value)) :=
    along_bind (readable.defineAll _ _) fun _ => along_pure _
  have pin (c : BlockId) (value : ValueId) : Saves E P (do
      Builder.define c slot (.final value)
      Builder.defineAll chain slot (.final value)
      pure (Found.value value)) :=
    along_bind (along_modify fun _ => readable.define c _) fun _ => finish value
  cases halt with
  | defined value => exact (finish value).ends before
  | unsealed c =>
      obtain ⟨k, present, undefined⟩ := opens rfl
      rw [ends_bind]
      refine (readable.wait allowed present undefined before).imp fun phi t after => ?_
      rw [ends_bind, ends_modifyBlock, ends_bind, ends_define]
      exact (finish phi).ends after
  | entry c =>
      have initial : Saves E P (initialValue slot type) :=
        saves_get_bind fun _ _ => readable.addValue _ allowed fun p => by split <;> simp
      exact (along_bind initial (pin c)).ends before
  | orphan c => exact (along_bind (readable.addValue none allowed (by simp)) (pin c)).ends before
  | cycle => exact (along_bind (readable.addValue none allowed (by simp)) finish).ends before
  | join c preds =>
      obtain ⟨k, present, undefined⟩ := opens rfl
      rw [ends_bind]
      exact (readable.join allowed present undefined before).imp fun phi t after => after

theorem gather {type : ValueType} (allowed : types type) (phi : ValueId) (waiting : List BlockId) :
    Saves E P (gather slot type phi waiting) := by
  induction waiting with
  | nil => exact along_pure _
  | cons pred waiting ih =>
      refine along_bind (readable.find allowed _) fun found => ?_
      cases found with
      | value value => exact along_bind (readable.feed _ _) fun _ => ih
      | merge inner => exact along_pure _

theorem complete (merge : Merge) : Saves E P (complete slot merge) := by
  change Saves E P ((modifyPhi merge.phi _ >>= fun _ => removeTrivial merge.phi) >>= fun same =>
    Builder.defineAll (merge.block :: merge.chain) slot (.final same) >>= fun _ => pure same)
  exact along_bind (readable.finish _) fun _ => along_bind (readable.defineAll _ _) fun _ =>
    along_pure _

theorem settle {type : ValueType} (allowed : types type) (fuel : Nat) (merge : Merge)
    (outer : List Merge) : Saves E P (settle slot type fuel merge outer) := by
  induction fuel generalizing merge outer with
  | zero => exact along_throw fun _ before => readable.stuck before
  | succ fuel ih =>
      refine along_bind (readable.gather allowed _ _) fun found => ?_
      cases found with
      | some inner => exact ih _ _
      | none =>
          refine along_bind (readable.complete _) fun same => ?_
          cases outer with
          | nil => exact along_pure _
          | cons next outer => exact along_bind (readable.feed _ _) fun _ => ih _ _

theorem lookup {type : ValueType} (allowed : types type) (block : BlockId) :
    Saves E P (lookup slot type block) := by
  refine along_bind (readable.find allowed _) fun found => ?_
  cases found with
  | value value => exact along_pure _
  | merge merge => exact saves_get_bind fun _ _ => readable.settle allowed _ _ _

theorem getLocal (id : BlockId) : Saves E P (getLocal id slot) := by
  refine along_bind (blockAt_saves readable.mishaps _) fun block => saves_get_bind fun b before => ?_
  cases found : b.locals[slot]? with
  | none => exact saves_throw readable.mishaps (by simp) (by simp)
  | some type =>
      have allowed := readable.locals before type (Array.mem_of_getElem? found)
      dsimp only
      cases block.definitions[slot]? with
      | some definition => exact saves_get_bind fun _ _ => along_pure _
      | none =>
          exact along_bind (readable.lookup allowed _) fun _ =>
            saves_get_bind fun _ _ => along_pure _

end Readable

section Locals

variable (stable : Stable E types P)
include stable

theorem getLocal_saves (id : BlockId) (slot : Nat) : Saves E P (getLocal id slot) :=
  (stable.readable slot).getLocal id

theorem setLocal_saves (block : BlockId) (slot : Nat) (value : ValueId) :
    Saves E P (setLocal block slot value) :=
  along_bind (checkBlock_saves stable.mishaps _) fun _ => saves_get_bind fun _ _ =>
    along_bind (saves_maintain stable.mishaps _ _) fun _ => along_modify fun _ => stable.onBlocks _

end Locals

/-- What is kept by everything but writes to locals: when locals are read, when something else changes
in a block, when blocks, edges and values of the given types are added, and when phis get operands,
are completed and removed. -/
structure Durable (E : Fault → Builder → Prop) (types : ValueType → Prop) (P : Builder → Prop) :
    Prop where
  mishaps : Mishaps E P
  addBlock : ∀ kind : BlockKind, Saves E P (addBlock kind)
  onBlock : ∀ {b : Builder} (c : BlockId) {change : Block → Block}, (∀ k : Block, k.NoNewPending (change k)) →
    P b → P (b.onBlock c change)
  addEdge : ∀ {b : Builder} (c : BlockId) {edge : Predecessor}, edge.block < b.blocks.size →
    P b → P (b.onBlock c fun k => { k with predecessors := k.predecessors.push edge })
  addPhi : ∀ {type : ValueType} (block : BlockId) (role : PhiRole), types type →
    Saves E P (addPhi block type role)
  addValue : ∀ {type : ValueType} {content : Content} (home : Option BlockId), types type →
    (∀ p, content ≠ .phi p) → Saves E P (addValue type home content)
  feed : ∀ phi operand : ValueId, Saves E P (feed phi operand)
  finish : ∀ phi : ValueId, Saves E P (do
    modifyPhi phi fun p => { p with complete := true }
    removeTrivial phi)
  finishAll : ∀ phis : List ValueId, Saves E P (do
    phis.forM fun phi => modifyPhi phi fun p => { p with complete := true }
    phis.forM fun phi => do let _ ← removeTrivial phi)
  getLocal : ∀ (id : BlockId) (slot : Nat), Saves E P (getLocal id slot)
  confirm : ∀ (id : BlockId) (slot : Nat) (phi : ValueId), Saves E P (confirm id slot phi)

theorem noNewPending_carry (index : Nat) (args : List ValueId) (k : Block) :
    k.NoNewPending { k with predecessors := k.predecessors.modify index ({ · with args }) } where
  definitions := rfl
  sources := by
    refine Array.ext_getElem? fun i => ?_
    simp only [Array.getElem?_map, Array.getElem?_modify]
    split
    · cases k.predecessors[i]? <;> rfl
    · rfl
  pending _ := id

def count (b : Builder) : Nat := b.blocks.size

instance : HidesValues count where
  values _ _ _ _ := rfl
  block _ _ _ _ := Array.size_modify

theorem Stable.durable (stable : Stable E types P) : Durable E types P where
  mishaps := stable.mishaps
  addBlock _ := saves_get_bind fun _ _ => along_bind (along_modify fun _ => stable.onBlocks _) fun _ =>
    along_pure _
  onBlock _ _ _ before := stable.onBlocks _ before
  addEdge _ _ _ before := stable.onBlocks _ before
  addPhi := stable.addPhi
  addValue := stable.addValue
  feed := stable.feed
  finish := stable.finish
  finishAll := stable.finishAll
  getLocal := getLocal_saves stable
  confirm _ _ _ := along_bind (blockAt_saves stable.mishaps _) fun _ => along_ite
    (saves_get_bind fun _ _ => along_modify fun _ => stable.onBlocks _) (along_pure _)

section Operations

variable (durable : Durable E types P)
include durable

theorem Durable.modifyBlock (id : BlockId) {change : Block → Block}
    (calm : ∀ k : Block, k.NoNewPending (change k)) : Saves E P (modifyBlock id change) :=
  fun _ => durable.onBlock id calm

theorem undef_saves {type : ValueType} (allowed : types type) : Saves E P (undef type) :=
  durable.addValue none allowed (by simp)

theorem append_saves {type : ValueType} {content : Content} (block : BlockId) (allowed : types type)
    (noPhi : ∀ p, content ≠ .phi p) : Saves E P (append block type content) :=
  along_bind (durable.addValue _ allowed noPhi) fun _ =>
    along_bind (durable.modifyBlock _ fun _ => ⟨⟨rfl, rfl⟩, fun _ member => member⟩) fun _ => along_pure _

theorem constant_saves {type : ValueType} (block : BlockId) (bits : UInt64) (allowed : types type) :
    Saves E P (constant block type bits) :=
  along_bind (checkBlock_saves durable.mishaps _) fun _ => append_saves durable _ allowed (by simp)

theorem project_saves {type : ValueType} (block : BlockId) (tuple : ValueId) (index : Nat)
    (allowed : types type) : Saves E P (project block tuple index type) :=
  along_bind (checkBlock_saves durable.mishaps _) fun _ => saves_get_bind fun _ _ =>
    append_saves durable _ allowed (by simp)

theorem emit_saves {type : ValueType} (block : BlockId) (opcode : UInt8) (operands : List ValueId)
    (immediate : UInt64) (allowed : types type) :
    Saves E P (emit block opcode type operands immediate) :=
  along_bind (checkBlock_saves durable.mishaps _) fun _ => saves_get_bind fun _ _ =>
    along_bind (saves_maintain durable.mishaps _ _) fun _ => append_saves durable _ allowed (by simp)

theorem pad_saves {expected : List ValueType} (allowed : ∀ type ∈ expected, types type)
    (args : List ValueId) : Saves E P (pad expected args) :=
  along_bind (saves_maintain durable.mishaps _ _) fun _ => along_bind
    (along_mapM fun type member => undef_saves durable (allowed type (List.mem_of_mem_take member)))
    fun _ => along_pure _

theorem feedAll_saves (phis values : List ValueId) : Saves E P (feedAll phis values) :=
  along_forM fun _ _ => durable.feed _ _

theorem addArguments_saves (block : BlockId) (index : Nat) {expected : List ValueType}
    (allowed : ∀ type ∈ expected, types type) :
    Saves E P (addArguments block index expected) := by
  induction expected generalizing index with
  | nil => exact along_pure _
  | cons type rest ih =>
      exact along_bind (durable.addPhi _ _ (allowed type List.mem_cons_self)) fun _ =>
        along_bind (durable.modifyBlock _ fun _ => ⟨⟨rfl, rfl⟩, fun _ member => member⟩) fun _ =>
          ih _ fun type' member => allowed type' (List.mem_cons_of_mem _ member)

theorem adoptEdges_saves (block : BlockId) {expected : List ValueType}
    (allowed : ∀ type ∈ expected, types type) (phis : List ValueId) (index : Nat)
    (edges : List Predecessor) : Saves E P (adoptEdges block expected phis index edges) := by
  induction edges generalizing index with
  | nil => exact along_pure _
  | cons edge edges ih =>
      exact along_bind (pad_saves durable allowed _) fun _ =>
        along_bind (durable.modifyBlock _ (noNewPending_carry index _)) fun _ =>
          along_bind (feedAll_saves durable _ _) fun _ => ih _

theorem declareArguments_saves (id : BlockId) {expected : List ValueType}
    (allowed : ∀ type ∈ expected, types type) : Saves E P (declareArguments id expected) :=
  along_bind (blockAt_saves durable.mishaps _) fun _ =>
    along_bind (saves_maintain durable.mishaps _ _) fun _ =>
    along_bind (durable.modifyBlock _ fun _ => ⟨⟨rfl, rfl⟩, fun _ member => member⟩) fun _ =>
      along_bind (addArguments_saves durable _ _ allowed) fun _ =>
        along_bind (blockAt_saves durable.mishaps _) fun _ => adoptEdges_saves durable _ allowed _ _ _

/-- An edge to a block whose arguments have types for undefined values. -/
theorem connect_saves {b : Builder} (before : P b) (source id : BlockId) (args : List ValueId)
    (allowed : ∀ k, b.blocks[id]? = some k → ∀ phi ∈ k.argIds,
      types ((b.values[phi]?.map Value.type).getD .null)) :
    Ends (connect source id args) b (fun _ t => P t) E := by
  rw [connect, ends_bind]
  by_cases inside : source < b.blocks.size
  · rw [ends_checkBlock inside, ends_bind]
    cases present : b.blocks[id]? with
    | none =>
        rw [blockAt, ends_bind, ends_get, present]
        exact durable.mishaps _ _ (by simp) (by simp) before
    | some k =>
        rw [ends_blockAt present, ends_bind, ends_maintain]
        refine ⟨fun _ => ?_, fun _ => durable.mishaps _ _ (by simp) (by simp) before⟩
        cases given : k.args with
        | none => exact durable.addEdge id inside before
        | some ids =>
            have known : ∀ type ∈ ids.toList.map fun phi => (b.values[phi]?.map Value.type).getD .null,
                types type := by
              intro type member
              obtain ⟨phi, listed, rfl⟩ := List.mem_map.mp member
              exact allowed k present phi (by rw [Block.argIds, given]; exact listed)
            change Ends (pad _ args >>= fun args => feedAll ids.toList args >>= fun _ =>
              modifyBlock id _) b _ E
            have sizes {α : Type} {m : Attempt Builder α} (leaves : Leaves count m) (c : Builder) :
                Ends m c (fun _ t => t.blocks.size = c.blocks.size) fun _ t =>
                  t.blocks.size = c.blocks.size := leaves c
            rw [ends_bind]
            refine (((pad_saves durable known args).ends before).and (sizes (pad_leaves _ args) b)).mono
              (fun args t padded => ?_) fun _ _ bad => bad.1
            rw [ends_bind]
            refine (((feedAll_saves durable ids.toList args).ends padded.1).and
              (sizes (feedAll_leaves ids.toList args) t)).mono (fun _ u fed => ?_) fun _ _ bad => bad.1
            exact durable.addEdge id (by rwa [fed.2, padded.2]) fed.1
  · rw [checkBlock, ends_bind, ends_get, if_neg inside]
    exact durable.mishaps _ _ (by simp) (by simp) before

theorem completeLocal_saves (slot : Nat) (phi : ValueId) (predecessors : List Predecessor) :
    Saves E P (completeLocal slot phi predecessors) := by
  refine along_bind (along_forM fun _ _ => along_bind (durable.getLocal _ _) fun _ =>
    durable.feed _ _) fun _ => ?_
  change Saves E P ((modifyPhi phi _ >>= fun _ => removeTrivial phi) >>= fun _ => pure ())
  exact along_bind (durable.finish _) fun _ => along_pure _

theorem sealBlock_saves (id : BlockId) : Saves E P (sealBlock id) := by
  refine along_bind (blockAt_saves durable.mishaps _) fun block => along_ite (along_pure _) ?_
  have args : Saves E P ((block.argIds.forM (fun phi =>
      modifyPhi phi fun p => { p with complete := true }) >>= fun _ =>
        block.argIds.forM fun phi => removeTrivial phi >>= fun _ => pure ()) >>= fun _ =>
      modifyBlock id fun b => { b with isSealed := true }) :=
    along_bind (durable.finishAll _) fun _ =>
      durable.modifyBlock _ fun _ => ⟨⟨rfl, rfl⟩, fun _ member => member⟩
  rw [bind_assoc] at args
  exact along_bind (along_forM_array fun _ => completeLocal_saves durable _ _ _) fun _ =>
    along_bind (along_forM_array fun _ => durable.confirm _ _ _) fun _ =>
      along_bind (durable.modifyBlock _ fun _ => ⟨⟨rfl, rfl⟩, by simp⟩) fun _ => args

end Operations

/-- What is kept when a phi changes in any way, when a value of one of the given types is added and
when the substitution changes. -/
structure Lasting (E : Fault → Builder → Prop) (types : ValueType → Prop) (P : Builder → Prop) :
    Prop where
  mishaps : Mishaps E P
  stuck : ∀ {b : Builder}, P b → E (.broken .stepsExhausted) b
  locals : ∀ {b : Builder}, P b → ∀ type ∈ b.locals, types type
  onBlocks : ∀ {b : Builder} (blocks : Array Block), P b → P { b with blocks }
  onPhis : ∀ (id : ValueId) (change : Phi → Phi), Saves E P (modifyPhi id change)
  onValues : ∀ {type : ValueType} (home : Option BlockId) (content : Content), types type →
    Saves E P (addValue type home content)
  onSubstitution : ∀ {b : Builder} (substitution : Substitution) (replacedPhis : Nat), P b →
    P { b with substitution, replacedPhis }
  trivials : ∀ {b : Builder} {worklist : List ValueId} {trivial : Trivial}, P b →
    b.nextTrivial worklist = some trivial → types trivial.type

namespace Lasting

variable (lasting : Lasting E types P)
include lasting

theorem replace (phi same : ValueId) : Saves E P (replace phi same) :=
  saves_get_bind fun _ _ => by
    dsimp only
    exact along_bind (lasting.onPhis _ _) fun _ => along_bind
      (along_modify fun _ => lasting.onSubstitution _ _) fun _ =>
        saves_get_bind fun _ _ => along_bind (lasting.onPhis _ _) fun _ => along_pure _

theorem replaceTrivial (fuel : Nat) (worklist : List ValueId) :
    Saves E P (replaceTrivial fuel worklist) := by
  induction fuel generalizing worklist with
  | zero => exact along_throw fun _ before => lasting.stuck before
  | succ fuel ih =>
      refine saves_get_bind fun b before => ?_
      cases found : b.nextTrivial worklist with
      | none => exact along_pure _
      | some trivial =>
          have rest (same : ValueId) : Saves E P (do
              let users ← Builder.replace trivial.phi same
              Builder.replaceTrivial fuel ((← get).revisit users trivial.rest)) :=
            along_bind (lasting.replace _ _) fun _ => saves_get_bind fun _ _ => ih _
          dsimp only
          cases trivial.same with
          | none =>
              exact along_bind (lasting.onValues _ _ (lasting.trivials before found)) fun _ => rest _
          | some value => exact rest _

theorem removeTrivial (phi : ValueId) : Saves E P (removeTrivial phi) :=
  saves_get_bind fun _ _ => along_bind (lasting.replaceTrivial _ _) fun _ =>
    saves_get_bind fun _ _ => along_pure _

theorem stable : Stable E types P where
  mishaps := lasting.mishaps
  stuck := lasting.stuck
  locals := lasting.locals
  onBlocks := lasting.onBlocks
  addPhi _ _ allowed := lasting.onValues _ _ allowed
  addValue _ allowed _ := lasting.onValues _ _ allowed
  feed _ _ := saves_get_bind fun _ _ => along_bind (saves_maintain lasting.mishaps _ _) fun _ =>
    along_bind (lasting.onPhis _ _) fun _ => along_ite (lasting.onPhis _ _) (along_pure _)
  finish _ := along_bind (lasting.onPhis _ _) fun _ => lasting.removeTrivial _
  finishAll _ := along_bind (along_forM fun _ _ => lasting.onPhis _ _) fun _ =>
    along_forM fun _ _ => along_bind (lasting.removeTrivial _) fun _ => along_pure _

end Lasting

end Ssa.Builder

end WasmFunclets
