import WasmFunclets.Proofs.Ssa.Additions
import WasmFunclets.Proofs.Ssa.Chains
import WasmFunclets.Proofs.Ssa.Climbs

/-! The construction comes to an end. No count of steps runs out, neither for what is asked of a builder
nor for the parts of that work, whatever has been done before. Where the walk up single predecessors
counts its steps, it does the same without a count, and a list of placeholders that is looked up again
at each step does not grow. -/

namespace WasmFunclets.Ssa.Builder

open Attempt

variable {b t : Builder} {slot : Nat} {c e : BlockId} {phi id : ValueId} {k : Block}

/-- What is asked of a builder, or a part of the work on it. A removal of trivial phis may be left after
any number of replacements. -/
inductive Move where
  | request (request : Request)
  | find (slot : Nat) (type : ValueType) (start : BlockId)
  | feed (phi operand : ValueId)
  | finish (phi : ValueId)
  | replaceTrivial (rounds : Nat) (worklist : List ValueId)
  | define (block : BlockId) (slot : Nat) (value : ValueId)

def Move.attempt : Move → Attempt Builder Unit
  | .request asked => asked.attempt
  | .find slot type start => do let _ ← Builder.find slot type start
  | .feed phi operand => Builder.feed phi operand
  | .finish phi => modifyPhi phi fun p => { p with complete := true }
  | .replaceTrivial rounds worklist => Builder.replaceTrivial rounds worklist
  | .define block slot value => Builder.define block slot (.final value)

def moved (b : Builder) (moves : List Move) : Builder :=
  moves.foldl (fun t move => move.attempt.after t) b

/-- A builder whose replacements are a forest, and whose blocks are in order. -/
structure ForestInOrder (b : Builder) : Prop extends b.Chained, b.BlocksInOrder

theorem ForestInOrder.kept {α : Type} {m : Attempt Builder α} (forest : b.ForestInOrder)
    (chained : Saves (fun _ t => t.Chained) Chained m)
    (inOrder : Saves (fun _ t => t.BlocksInOrder) BlocksInOrder m) : (m.after b).ForestInOrder := by
  have replacements := Ends.after (chained.ends forest.toChained)
  have blocks := Ends.after (inOrder.ends forest.toBlocksInOrder)
  exact ⟨replacements, blocks.pred_lt, blocks.noted⟩

theorem find_chained (slot : Nat) (type : ValueType) (start : BlockId) :
    Saves (fun _ t => t.Chained) Chained (find slot type start) :=
  (endures_chained.stable.readable slot).find trivial start

theorem find_inOrder (slot : Nat) (type : ValueType) (start : BlockId) :
    Saves (fun _ t => t.BlocksInOrder) BlocksInOrder (find slot type start) :=
  (readable_inOrder slot).find trivial start

theorem ForestInOrder.after (forest : b.ForestInOrder) (move : Move) : (move.attempt.after b).ForestInOrder := by
  have chains := endures_chained
  cases move with
  | request request => exact forest.kept (chains.attempt request) (attempt_inOrder request)
  | find slot type start =>
      have chained := find_chained slot type start
      have inOrder := find_inOrder slot type start
      exact forest.kept (along_bind chained fun _ => along_pure ())
        (along_bind inOrder fun _ => along_pure ())
  | feed phi operand =>
      exact forest.kept (chains.feed phi operand) (inOrder_of_keepsSites (feed_keepsSites phi operand))
  | finish phi =>
      exact forest.kept (chains.finishes phi) (inOrder_of_keepsSites (finish_keepsSites phi))
  | replaceTrivial rounds worklist =>
      refine forest.kept (chains.replaceTrivial rounds worklist) ?_
      exact inOrder_of_keepsSites (replaceTrivial_keepsSites rounds worklist)
  | define block slot value =>
      refine forest.kept (along_modify fun _ => chains.onBlocks _) ?_
      exact along_modify fun _ before => before.define block slot (.final value)

theorem ForestInOrder.moved (forest : b.ForestInOrder) (moves : List Move) : (b.moved moves).ForestInOrder := by
  induction moves generalizing b with
  | nil => exact forest
  | cons move rest ih => exact ih (forest.after move)

theorem forestInOrder_ofLocals (locals : Array ValueType) (paramCount : Nat) :
    (ofLocals locals paramCount).ForestInOrder :=
  have inOrder := inOrder_ofLocals locals paramCount
  ⟨chained_ofLocals locals paramCount, inOrder.pred_lt, inOrder.noted⟩

/-- Completes the placeholders of a block, the list of which is looked up again each time. -/
def completePending (c : BlockId) : Nat → Nat → Attempt Builder Unit
  | 0, _ => violate .stepsExhausted
  | fuel + 1, index => do
      let block ← blockAt c
      match block.pending[index]? with
      | none => pure ()
      | some (slot, phi) => do
          completeLocal slot phi block.predecessors.toList
          completePending c fuel (index + 1)

/-- The block still waits for what it waited for, and has a definition of all that. -/
structure Pends (c : BlockId) (k : Block) (b : Builder) : Prop extends b.Aliased where
  here : ∃ l : Block, b.blocks[c]? = some l ∧ l.pending = k.pending ∧
    l.predecessors = k.predecessors ∧ ∀ entry ∈ k.pending, l.definitions[entry.1]? ≠ none

theorem Pends.sameSites (pends : b.Pends c k) (sites : b.SameSites t) : t.Pends c k where
  toAliased := sites.aliased
  here := by
    rw [sites.blocks]
    exact pends.here

theorem Pends.adds (pends : b.Pends c k) (adds : b.Adds slot t) (listed : (slot, phi) ∈ k.pending) :
    t.Pends c k where
  toAliased := adds.aliased
  here := by
    obtain ⟨l, present, pending, preds, known⟩ := pends.here
    obtain ⟨m, later, abides⟩ := adds.block present
    exact ⟨m, later, (abides.pending (known _ listed)).trans pending, abides.predecessors.trans preds,
      fun entry member => abides.kept _ (known entry member)⟩

theorem pends_of_keepsSites {α : Type} {m : Attempt Builder α} (keeps : KeepsSites m) :
    Saves (fun _ t => t.Pends c k) (Pends c k) m :=
  along_of_ends fun _ pends => (keeps.ends pends.toAliased).mono (fun _ _ => pends.sameSites)
    fun _ _ => pends.sameSites

theorem completeLocal_pends (listed : (slot, phi) ∈ k.pending) (preds : List Predecessor) :
    Saves (fun _ t => t.Pends c k) (Pends c k) (completeLocal slot phi preds) := by
  have read (e : BlockId) : Saves (fun _ t => t.Pends c k) (Pends c k) (getLocal e slot) :=
    along_of_ends fun _ pends => (getLocal_adds pends.toAliased e slot).mono
      (fun _ _ adds => pends.adds adds listed) fun _ _ adds => pends.adds adds listed
  refine along_bind (along_forM fun pred _ => along_bind (read pred.block) fun _ =>
    pends_of_keepsSites (feed_keepsSites phi _)) fun _ => ?_
  exact along_bind (pends_of_keepsSites (finish_keepsSites phi)) fun _ =>
    along_bind (pends_of_keepsSites (removeTrivial_keepsSites phi)) fun _ => along_pure _

theorem bind_eq_of_ok {σ α β : Type} {m : Attempt σ α} {f : α → Attempt σ β} {s t : σ} {a : α}
    (done : m s = .ok a t) : (m >>= f) s = f a t := by
  simp only [bind, EStateM.bind, done]

theorem bind_eq_of_ends {σ α β : Type} {m : Attempt σ α} {f g : α → Attempt σ β} {s : σ}
    {E : Fault → σ → Prop} (ends : Ends m s (fun a t => f a t = g a t) E) :
    (m >>= f) s = (m >>= g) s := by
  simp only [bind, EStateM.bind]
  cases outcome : m s with
  | ok a t => exact ends.of_ok outcome
  | error e t => rfl

theorem completePending_from {index fuel : Nat} (pends : b.Pends c k)
    (inside : index ≤ k.pending.size) (enough : k.pending.size < index + fuel) :
    completePending c fuel index b = ((k.pending.toList.drop index).forM fun (slot, phi) =>
      completeLocal slot phi k.predecessors.toList) b := by
  induction fuel generalizing b index with
  | zero => omega
  | succ fuel ih =>
      obtain ⟨l, present, pending, preds, _⟩ := pends.here
      have found : blockAt c b = .ok l b := by
        rw [blockAt, get_bind_ok, present]
        rfl
      rw [completePending, bind_eq_of_ok found, pending, preds]
      cases entry : k.pending[index]? with
      | none =>
          have beyond : k.pending.toList.length ≤ index := Array.getElem?_eq_none_iff.mp entry
          rw [List.drop_of_length_le beyond]
          rfl
      | some entry' =>
          obtain ⟨slot, phi⟩ := entry'
          obtain ⟨below, same⟩ := Array.getElem?_eq_some_iff.mp entry
          have listed : (slot, phi) ∈ k.pending := Array.mem_of_getElem? entry
          have next : k.pending.toList.drop index = (slot, phi) :: k.pending.toList.drop (index + 1) := by
            rw [List.drop_eq_getElem_cons (Array.length_toList ▸ below), Array.getElem_toList, same]
          rw [next]
          exact bind_eq_of_ends (((completeLocal_pends listed _).ends pends).imp fun _ t later =>
            ih later below (by omega))

theorem completePending_eq {fuel : Nat} (inOrder : b.BlocksInOrder) (present : b.blocks[c]? = some k)
    (enough : k.pending.size < fuel) :
    completePending c fuel 0 b = (k.pending.forM fun (slot, phi) =>
      completeLocal slot phi k.predecessors.toList) b := by
  have pends : b.Pends c k :=
    ⟨inOrder.toAliased, k, present, rfl, rfl, inOrder.noted c k present⟩
  have listed : k.pending.forM (fun (slot, phi) => completeLocal slot phi k.predecessors.toList) =
      k.pending.toList.forM fun (slot, phi) => completeLocal slot phi k.predecessors.toList :=
    List.forM_toArray k.pending.toList _
  rw [listed]
  exact completePending_from pends (Nat.zero_le _) (by omega)

theorem EdgesInside.attempt_ends (steady : b.EdgesInside) {request : Request} {e : Fault}
    (failed : request.attempt b = .error e t) : e ≠ .broken .stepsExhausted := by
  by_cases write : ∃ c slot value, request = .setLocal c slot value
  · obtain ⟨c, slot, value, rfl⟩ := write
    have mishaps : Mishaps (fun e (_ : Builder) => e ≠ .broken .stepsExhausted) fun _ => True :=
      fun _ _ _ fits _ => fits
    have writes : Saves _ _ (setLocal c slot value) := along_bind (checkBlock_saves mishaps c) fun _ =>
      saves_get_bind fun _ _ => along_bind (saves_maintain mishaps _ .unknownWrite) fun _ =>
        along_modify fun _ _ => trivial
    exact (writes.ends trivial).of_error failed
  · have silent : ∀ c slot value, request ≠ .setLocal c slot value :=
      fun c slot value same => write ⟨c, slot, value, same⟩
    exact ((attempt_remembers steady request silent).of_error failed).1

/-- Construction terminates, whatever has been asked for before and wherever the work on it has been left.
Nothing that is asked for, and no removal of trivial phis, runs out of steps. Following replacements comes
to what stands for a value. The walk up single predecessors ends if it stops at the blocks it has passed,
and finds what the counted walk finds. The placeholders of a block that is sealed do not become more. A
read adds one phi to a block at most, and only where the local had no definition. -/
theorem construction_terminates {locals : Array ValueType} {paramCount : Nat} {moves : List Move}
    (reached : (ofLocals locals paramCount).moved moves = b) :
    (∀ request e t, Request.attempt request b = .error e t → e ≠ .broken .stepsExhausted) ∧
    (∀ phi e t, removeTrivial phi b = .error e t → e ≠ .broken .stepsExhausted) ∧
    (WellFounded fun next id => b.replacementOf id = some next) ∧
    (∀ id, b.LeadsTo id (b.representative id) ∧ b.replacementOf (b.representative id) = none) ∧
    (∀ slot, ∀ start < b.blocks.size, ∃ w, b.Climbs slot [] start w ∧ w.chain.Nodup ∧
      w.chain.length ≤ b.blocks.size ∧ (b.walk slot b.blocks.size start []).halt = w.halt ∧
      ∀ c, c ∈ (b.walk slot b.blocks.size start []).chain ↔ c ∈ w.chain) ∧
    (∀ c k fuel, b.blocks[c]? = some k → k.pending.size < fuel →
      completePending c fuel 0 b =
        (k.pending.forM fun (slot, phi) => completeLocal slot phi k.predecessors.toList) b) ∧
    (∀ c slot t, t = (getLocal c slot).after b →
      (∀ id, b.values.size ≤ id → t.isPhi id = true → ∃ home,
        t.siteAt id = some (.local slot, some home) ∧ home < b.blocks.size ∧
        b.definition home slot = none) ∧
      ∀ i j, b.values.size ≤ i → b.values.size ≤ j → t.isPhi i = true →
        t.siteAt i = t.siteAt j → i = j) := by
  have forest : b.ForestInOrder := reached ▸ (forestInOrder_ofLocals locals paramCount).moved moves
  have aliased := forest.toAliased
  have inOrder := forest.toBlocksInOrder
  refine ⟨fun request e t => inOrder.toEdgesInside.attempt_ends, ?_,
    ⟨fun id => (forest.leads id).acc (aliased.replacementOf_eq_none id)⟩,
    fun id => ⟨forest.leads id, aliased.replacementOf_eq_none id⟩, ?_,
    fun c k fuel present enough => completePending_eq inOrder present enough, ?_⟩
  · intro phi e t failed
    have exhausts := ((removeTrivial_shifts aliased phi).of_error failed).1
    simp [exhausts]
  · intro slot start inside
    exact climbs_of_trail inOrder.pred_lt inside .nil (by simp) (by simp) (by simp)
  · rintro c slot _ rfl
    have adds : b.Adds slot ((getLocal c slot).after b) := Ends.after (getLocal_adds aliased c slot)
    refine ⟨fun id out isPhi => adds.site_new out isPhi, fun i j out out' isPhi same => ?_⟩
    exact adds.apart out out' (isPhi_iff_siteAt.mp isPhi) same

/-- Two sealed blocks that lead to each other only, and an open loop that is being read. -/
def loopMoves : List Move :=
  [.request (.addBlock .join), .request (.addBlock .join), .request (.addBlock .loopHeader),
    .request (.connect 1 2 []), .request (.connect 2 1 []), .request (.sealBlock 1),
    .request (.sealBlock 2), .request (.connect 0 3 []), .request (.connect 3 3 []), .find 0 .i32 3]

theorem construction_terminates_loops : ∃ b t, (ofLocals #[.i32, .i32] 0).moved loopMoves = b ∧
    (∃ w, b.Climbs 0 [] 1 w ∧ w.halt = .cycle ∧ 1 ∈ w.chain ∧ 2 ∈ w.chain ∧ w.chain.length ≤ 4) ∧
    (∃ k, b.blocks[3]? = some k ∧ k.pending = #[(0, 0)] ∧
      completePending 3 2 0 b =
        (k.pending.forM fun (slot, phi) => completeLocal slot phi k.predecessors.toList) b) ∧
    t = (getLocal 3 1).after b ∧ b.values.size = 1 ∧ t.isPhi 1 = true ∧
    ∃ home, t.siteAt 1 = some (.local 1, some home) ∧ b.definition home 1 = none := by
  have data : let b := (ofLocals #[.i32, .i32] 0).moved loopMoves
      (b.walk 0 b.blocks.size 1 [] = ⟨.cycle, [2, 1, 2, 1]⟩ ∧ b.blocks.size = 4 ∧ b.values.size = 1) ∧
      b.blocks[3]?.map Block.pending = some #[(0, 0)] ∧
      ((getLocal 3 1).after b).isPhi 1 = true := by decide +kernel
  obtain ⟨b, reached⟩ : ∃ b, (ofLocals #[.i32, .i32] 0).moved loopMoves = b := ⟨_, rfl⟩
  dsimp only at data
  rw [reached] at data
  obtain ⟨⟨walk, count, size⟩, waits, isPhi⟩ := data
  obtain ⟨k, present, pending⟩ := Option.map_eq_some_iff.mp waits
  obtain ⟨_, _, _, _, climbs, completes, reads⟩ := construction_terminates reached
  obtain ⟨w, climbs, _, short, halt, passed⟩ := climbs 0 1 (by omega)
  obtain ⟨home, site, _, new⟩ := (reads 3 1 _ rfl).1 1 (by omega) isPhi
  rw [walk] at halt passed
  refine ⟨b, _, reached, ⟨w, climbs, halt.symm, ?_, ?_, by omega⟩,
    ⟨k, present, pending, completes 3 k 2 present ?_⟩, rfl, size, isPhi, home, site, new⟩
  · exact (passed 1).mp (by simp)
  · exact (passed 2).mp (by simp)
  · rw [pending]
    decide

end WasmFunclets.Ssa.Builder
