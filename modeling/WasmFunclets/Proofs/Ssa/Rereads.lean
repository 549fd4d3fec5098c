import WasmFunclets.Proofs.Ssa.Recalls
import WasmFunclets.Proofs.Ssa.Requests

/-! A local that has been read at the end of a block is read again as what then stands for the same
value, until the block writes it. -/

namespace WasmFunclets.Ssa.Builder

open Attempt

variable {α : Type} {b t u : Builder} {slot s : Nat} {c : BlockId} {v : ValueId}

/-- The attempt forgets no definition, whether it succeeds or fails, and does not run out of steps. -/
abbrev KeepsDefinitions (b : Builder) (m : Attempt Builder α) : Prop :=
  Saves (fun e t => e ≠ .broken .stepsExhausted ∧ b.Recalls t) (fun t => b.Recalls t) m

theorem keepsDefinitions_of {m : Attempt Builder α} (each : ∀ t, t.EdgesInside →
    Ends m t (fun _ u => t.Recalls u) fun e u => e ≠ .broken .stepsExhausted ∧ t.Recalls u) :
    b.KeepsDefinitions m :=
  along_of_ends fun t before => (each t before.toEdgesInside).mono (fun _ _ later => before.trans later)
    fun _ _ => And.imp_right before.trans

theorem Recalls.addBlock (steady : b.EdgesInside) (kind : BlockKind) :
    b.Recalls { b with blocks := b.blocks.push (.fresh kind) } where
  toAliased := steady.toAliased.congr rfl rfl
  pred_lt {c k} present pred member := by
    rw [Array.size_push]
    rw [Array.getElem?_push] at present
    split at present
    · cases present
      simp [Block.fresh] at member
    · exact Nat.lt_succ_of_lt (steady.pred_lt present pred member)
  locals := rfl
  count := by simp
  representative := steady.representative_idem
  definition {c s d} known := by
    obtain ⟨k, d', present, rest⟩ := definition_eq_some.mp known
    refine ⟨d, definition_eq_some.mpr ⟨k, d', ?_, rest⟩, rfl⟩
    rw [Array.getElem?_push, if_neg (Nat.ne_of_lt (lt_of_block present)), present]

theorem Recalls.addEdge (steady : b.EdgesInside) (c : BlockId) {edge : Predecessor}
    (inside : edge.block < b.blocks.size) :
    b.Recalls (b.onBlock c fun k => { k with predecessors := k.predecessors.push edge }) where
  toEdgesInside := by
    refine steady.onBlock c fun k before pred member => ?_
    rcases Array.mem_push.mp member with old | rfl
    · exact steady.pred_lt before pred old
    · exact inside
  locals := rfl
  count := Nat.le_of_eq (size_onBlock _ _).symm
  representative := steady.representative_idem
  definition known := by
    refine ⟨_, ?_, rfl⟩
    have same : ∀ k : Block, ({ k with predecessors := k.predecessors.push edge } : Block).definitions =
        k.definitions := fun _ => rfl
    rw [definition_onBlock c same]
    exact known

theorem addValue_keepsDefinitions {type : ValueType} (home : Option BlockId) {content : Content}
    (idle : ∀ p, content = .phi p → p.operands = #[] ∧ p.replacement = none) :
    b.KeepsDefinitions (addValue type home content) :=
  keepsDefinitions_of fun _ steady => (addValue_seeks steady idle).mono
    (fun _ _ added => (added.1.seeks steady).toRecalls) fun _ _ stumbles => ⟨stumbles.1, stumbles.2.toRecalls⟩

theorem removeTrivial_keepsDefinitions (phi : ValueId) : b.KeepsDefinitions (removeTrivial phi) :=
  keepsDefinitions_of fun _ steady => (removeTrivial_shifts steady.toAliased phi).mono
    (fun _ _ removed => (removed.1.seeks steady).toRecalls)
    fun _ _ failed => ⟨by simp [failed.1], (failed.2.seeks steady).toRecalls⟩

theorem finish_keepsDefinitions (phi : ValueId) :
    b.KeepsDefinitions (modifyPhi phi fun p => { p with complete := true }) :=
  keepsDefinitions_of fun _ steady => ((Shifts.finish steady.toAliased phi).seeks steady).toRecalls

theorem confirm_keepsDefinitions (c : BlockId) (slot : Nat) (phi : ValueId) :
    b.KeepsDefinitions (confirm c slot phi) := by
  refine keepsDefinitions_of fun t steady => ?_
  rw [confirm, ends_bind]
  cases present : t.blocks[c]? with
  | none =>
      rw [blockAt, ends_bind, ends_get, present]
      exact ⟨by simp, .refl steady⟩
  | some k =>
      rw [ends_blockAt present, ends_ite]
      refine ⟨fun waits => ?_, fun _ => .refl steady⟩
      rw [ends_bind, ends_get, ends_define]
      have inside : ∀ e ∈ [c], e < t.blocks.size := by simpa using lt_of_block present
      refine (Seeks.defining steady inside fun e member d known => ?_).toRecalls
      rw [List.mem_singleton.mp member, definition_of_block present, waits] at known
      cases known
      exact (steady.representative_idem phi).symm

theorem durable_recalls (b : Builder) :
    Durable (fun e t => e ≠ .broken .stepsExhausted ∧ b.Recalls t) (fun _ => True)
      (fun t => b.Recalls t) where
  mishaps _ _ _ fits before := ⟨fits, before⟩
  addBlock kind := keepsDefinitions_of fun _ steady => .addBlock steady kind
  onBlock c _ calm before := before.trans (.onBlock before.toEdgesInside c fun k => (calm k).toTied)
  addEdge c _ inside before := before.trans (.addEdge before.toEdgesInside c inside)
  addPhi _ _ _ := addValue_keepsDefinitions _ (by rintro _ ⟨⟩; exact ⟨rfl, rfl⟩)
  addValue home _ noPhi := addValue_keepsDefinitions home fun p same => absurd same (noPhi p)
  feed phi operand := keepsDefinitions_of fun _ steady => (feed_seeks steady phi operand).mono
    (fun _ _ shifts => (shifts.seeks steady).toRecalls) fun _ _ stumbles => ⟨stumbles.1, stumbles.2.toRecalls⟩
  finish phi := along_bind (finish_keepsDefinitions phi) fun _ => removeTrivial_keepsDefinitions phi
  finishAll phis := along_bind (along_forM fun _ _ => finish_keepsDefinitions _) fun _ =>
    along_forM fun _ _ => along_bind (removeTrivial_keepsDefinitions _) fun _ => along_pure _
  getLocal c slot := keepsDefinitions_of fun _ steady => (getLocal_seeks steady c slot).mono
    (fun _ _ read => read.1.toRecalls) fun _ _ stumbles => ⟨stumbles.1, stumbles.2.toRecalls⟩
  confirm := confirm_keepsDefinitions

theorem EdgesInside.write (steady : b.EdgesInside) (c : BlockId) (slot : Nat) (d : Definition) :
    (b.onBlock c (Block.define slot d)).EdgesInside := steady.onBlock c fun _ => steady.pred_lt

theorem setLocal_writes (b : Builder) (c : BlockId) (slot : Nat) (v : ValueId) :
    Ends (setLocal c slot v) b (fun _ t => c < b.blocks.size ∧
      t = b.onBlock c (Block.define slot (.final v))) fun _ t => t = b := by
  by_cases inside : c < b.blocks.size
  · rw [setLocal, ends_bind, ends_checkBlock inside, ends_bind, ends_get, ends_bind, ends_maintain]
    exact ⟨fun _ => ⟨inside, rfl⟩, fun _ => rfl⟩
  · rw [setLocal, ends_bind, checkBlock, ends_bind, ends_get, if_neg inside]
    exact rfl

/-- A local that is known at the end of a block, and the value that its definition stands for. -/
structure Holding (c : BlockId) (slot : Nat) (v : ValueId) (b : Builder) : Prop extends b.EdgesInside where
  known : slot < b.locals.size
  settled : b.StandsFor c slot v

theorem Recalls.holding (recalls : b.Recalls t) (holding : b.Holding c slot v) :
    t.Holding c slot v where
  toEdgesInside := recalls.toEdgesInside
  known := recalls.locals ▸ holding.known
  settled := recalls.standsFor holding.settled

theorem attempt_remembers (steady : b.EdgesInside) (request : Request)
    (silent : ∀ c slot value, request ≠ .setLocal c slot value) :
    Ends request.attempt b (fun _ t => b.Recalls t)
      fun e t => e ≠ .broken .stepsExhausted ∧ b.Recalls t :=
  (request.attempt_saves (durable_recalls b) fun c slot value write =>
    absurd write (silent c slot value)).ends (.refl steady)

theorem attempt_recalls (steady : b.EdgesInside) (request : Request)
    (silent : ∀ c slot value, request ≠ .setLocal c slot value) :
    b.Recalls (request.attempt.after b) :=
  Ends.after ((attempt_remembers steady request silent).mono (fun _ _ recalls => recalls)
    fun _ _ => And.right)

theorem EdgesInside.after (steady : b.EdgesInside) (request : Request) : (request.attempt.after b).EdgesInside := by
  by_cases write : ∃ c slot value, request = .setLocal c slot value
  · obtain ⟨c, slot, value, rfl⟩ := write
    refine Ends.after ((setLocal_writes b c slot value).mono ?_ ?_)
    · rintro _ _ ⟨_, rfl⟩
      exact steady.write c slot (.final value)
    · rintro _ _ rfl
      exact steady
  · exact (attempt_recalls steady request fun c slot value same =>
      write ⟨c, slot, value, same⟩).toEdgesInside

theorem Holding.after (holding : b.Holding c slot v) (request : Request)
    (other : ∀ value, request ≠ .setLocal c slot value) :
    (request.attempt.after b).Holding c slot v := by
  by_cases write : ∃ e s value, request = .setLocal e s value
  · obtain ⟨e, s, value, rfl⟩ := write
    refine Ends.after ((setLocal_writes b e s value).mono ?_ ?_)
    · rintro _ _ ⟨inside, rfl⟩
      obtain ⟨d, known, same⟩ := holding.settled
      refine ⟨holding.toEdgesInside.write e s (.final value), holding.known, d, ?_, same⟩
      rw [definition_define inside, if_neg, known]
      rintro ⟨rfl, rfl⟩
      exact other value rfl
    · rintro _ _ rfl
      exact holding
  · exact (attempt_recalls holding.toEdgesInside request fun e s value same =>
      write ⟨e, s, value, same⟩).holding holding

theorem EdgesInside.endured (steady : b.EdgesInside) (requests : List Request) : (b.endured requests).EdgesInside := by
  induction requests generalizing b with
  | nil => exact steady
  | cons request rest ih => exact ih (steady.after request)

theorem Holding.endured (holding : b.Holding c slot v) {requests : List Request}
    (unwritten : ∀ value, .setLocal c slot value ∉ requests) :
    (b.endured requests).Holding c slot v := by
  induction requests generalizing b with
  | nil => exact holding
  | cons request rest ih =>
      refine ih (holding.after request fun value same => ?_) fun value member =>
        unwritten value (List.mem_cons_of_mem _ member)
      exact unwritten value (same ▸ List.mem_cons_self)

theorem edgesInside_ofLocals (locals : Array ValueType) (paramCount : Nat) :
    (ofLocals locals paramCount).EdgesInside where
  toAliased := reduced_ofLocals.toAliased
  pred_lt present pred member := by
    obtain ⟨_, rfl⟩ := block_ofLocals present
    simp [Block.entry, Block.fresh] at member

theorem getLocal_holding (steady : b.EdgesInside) (read : getLocal c slot b = .ok v t) :
    t.Holding c slot v := by
  obtain ⟨seeks, known, d, defined, stands⟩ := (getLocal_seeks steady c slot).of_ok read
  refine ⟨seeks.toEdgesInside, seeks.locals ▸ known, d, defined, ?_⟩
  rw [← stands, seeks.toEdgesInside.representative_idem]

theorem Holding.read (holding : b.Holding c slot v) :
    getLocal c slot b = .ok (b.representative v) b := by
  obtain ⟨d, defined, same⟩ := holding.settled
  obtain ⟨k, definition, present, written, rfl⟩ := definition_eq_some.mp defined
  obtain ⟨type, typed⟩ : ∃ type, b.locals[slot]? = some type :=
    ⟨_, Array.getElem?_eq_getElem holding.known⟩
  have found : blockAt c b = .ok k b := by
    rw [blockAt, get_bind_ok, present]
    rfl
  rw [getLocal]
  refine bind_ok.mpr ⟨k, b, found, ?_⟩
  rw [get_bind_ok, typed]
  dsimp only
  rw [written, ← same]
  rfl

/-- Reads are stable: a local that has been read at the end of a block is read again as what then stands
for the same value, whatever has been asked for in between, unless it was to write this local at the
end of this block. The later read changes nothing. -/
theorem read_again (locals : Array ValueType) (paramCount : Nat) (earlier later : List Request)
    (read : getLocal c slot ((ofLocals locals paramCount).endured earlier) = .ok v t)
    (unwritten : ∀ value, .setLocal c slot value ∉ later) :
    getLocal c slot (t.endured later) = .ok ((t.endured later).representative v) (t.endured later) :=
  ((getLocal_holding ((edgesInside_ofLocals locals paramCount).endured earlier) read).endured unwritten).read

theorem read_again_sealed :
    ∃ t, getLocal 1 0 ((ofLocals #[.i32] 0).endured [.addBlock .join, .connect 0 1 []]) = .ok 0 t ∧
      (∀ value, .setLocal 1 0 value ∉ [Request.setLocal 0 0 9, .getLocal 0 0, .sealBlock 1]) ∧
      getLocal 1 0 (t.endured [.setLocal 0 0 9, .getLocal 0 0, .sealBlock 1]) =
        .ok 1 (t.endured [.setLocal 0 0 9, .getLocal 0 0, .sealBlock 1]) := by
  have unwritten : ∀ value,
      .setLocal 1 0 value ∉ [Request.setLocal 0 0 9, .getLocal 0 0, .sealBlock 1] := by simp
  have read : getLocal 1 0 ((ofLocals #[.i32] 0).endured [.addBlock .join, .connect 0 1 []]) =
      .ok 0 (after (getLocal 1 0)
        ((ofLocals #[.i32] 0).endured [.addBlock .join, .connect 0 1 []])) := rfl
  refine ⟨_, read, unwritten, ?_⟩
  rw [read_again #[.i32] 0 _ _ read unwritten]
  rfl

end WasmFunclets.Ssa.Builder
