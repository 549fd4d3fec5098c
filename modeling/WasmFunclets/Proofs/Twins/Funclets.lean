import WasmFunclets.Proofs.Tables
import WasmFunclets.Proofs.Twins.States

/-! Twin validations stay twins: each instruction is carried out alike, a table of calls also if the other one
lists the same targets in another way. -/

namespace WasmFunclets.Validation

open Attempt
open TypedStack (sameTypes)

variable {α β : Type} {s t u v : State} {f g : Frame} {setting : Setting} {r q : OpenRegion}
variable {outer outer' : List OpenRegion} {args args' : List Operand} {polymorphic : Bool}
variable {targets others : List Nat}

theorem twins_openRegion :
    Mimics Twins openRegion openRegion fun r q s t => Twins s t ∧ r.Alike q :=
  mimics_of_ok fun {s t r u} twins ok => by
    obtain ⟨head, rfl⟩ := openRegion_ok.mp ok
    obtain ⟨outer, regions⟩ := List.head?_eq_some_iff.mp head
    have alike := twins.regions
    rw [regions] at alike
    obtain ⟨q, outer', first, -, regions'⟩ := List.forall₂_cons_left_iff.mp alike
    exact ⟨q, t, openRegion_ok.mpr ⟨by rw [regions']; rfl, rfl⟩, twins, first⟩

theorem twins_blockOf (alike : r.Alike q) (index : Nat) :
    Shadows Twins (blockOf r index) (blockOf q index) :=
  mimics_of_ok fun twins ok => by
    obtain ⟨found, rfl⟩ := blockOf_ok.mp ok
    have inside : index < q.blocks.size := alike.blocks ▸ (Array.getElem?_eq_some_iff.mp found).1
    exact ⟨_, _, blockOf_ok.mpr ⟨Array.getElem?_eq_getElem inside, rfl⟩, twins⟩

theorem twins_regionOperands : Mimics Twins regionOperands regionOperands
    fun a b s t => Twins s t ∧ b.map Operand.type = a.map Operand.type := by
  refine mimics_bind twins_openRegion fun r q => mimics_of_fact fun alike => ?_
  refine mimics_get fun s t twins => mimics_of_ok fun {s' t' a u} twins' ok => ?_
  obtain ⟨found, rfl⟩ := inRange_ok.mp ok
  obtain ⟨b, found', types⟩ := twins.stack.drop found
  rw [← alike.base] at found'
  exact ⟨b, t', inRange_ok.mpr ⟨found', rfl⟩, twins', types⟩

theorem twins_operandsUnreachable : Mimics Twins operandsUnreachable operandsUnreachable
    fun a b s t => Twins s t ∧ b = a := by
  refine mimics_get fun s t twins => ?_
  refine mimics_bind twins_innermost fun f g => mimics_of_fact fun shape => ?_
  refine mimics_pure fun _ _ later => ⟨later, ?_⟩
  rw [twins.stack.polymorphic, Frame.outer_of_shape shape]

theorem twins_onGraph {change : Attempt FuncletCalls α} {change' : Attempt FuncletCalls β}
    {R : α → β → Prop} (accounts : FuncletCalls.Accounts change)
    (accounts' : FuncletCalls.Accounts change')
    (alike : ∀ {g h k a}, g.Alike h → g.Accounted → h.Accounted → change g = .ok a k →
      ∃ b l, change' h = .ok b l ∧ R a b ∧ k.Alike l) :
    Mimics Twins (onGraph change) (onGraph change') fun a b s t => Twins s t ∧ R a b :=
  mimics_of_ok fun {s t a u} twins ok => by
    obtain ⟨r, outer, k, regions, changed, rfl⟩ := onGraph_ok.mp ok
    have all := twins.regions
    rw [regions] at all
    obtain ⟨q, outer', first, rest, regions'⟩ := List.forall₂_cons_left_iff.mp all
    obtain ⟨b, l, changed', same, later⟩ :=
      alike first.graph first.accounted first.accounted' changed
    have one := ((accounts _ first.accounted).of_ok changed).1
    have two := ((accounts' _ first.accounted').of_ok changed').1
    refine ⟨b, _, onGraph_ok.mpr ⟨q, outer', l, regions', changed', rfl⟩,
      { twins with regions := .cons ?_ rest }, same⟩
    exact { first with graph := later, accounted := one, accounted' := two }

theorem twins_request {change : Attempt FuncletCalls Unit} (accounts : FuncletCalls.Accounts change)
    (alike : ∀ {g h k}, g.Alike h → g.Accounted → h.Accounted → change g = .ok () k →
      ∃ l, change h = .ok () l ∧ k.Alike l) :
    Shadows Twins (onGraph change) (onGraph change) := by
  intro s t twins a u ok
  refine (twins_onGraph (R := fun _ _ => True) accounts accounts (fun same one two ok => ?_) s t twins a u
    ok).imp fun _ _ reached => reached.1
  obtain ⟨l, ok', later⟩ := alike same one two ok
  exact ⟨(), l, ok', trivial, later⟩

theorem twins_ready (index : Nat) :
    Mimics Twins (onGraph (FuncletCalls.ready index)) (onGraph (FuncletCalls.ready index))
      fun a b s t => Twins s t ∧ b = a := by
  refine twins_onGraph (FuncletCalls.ready_accounts index) (FuncletCalls.ready_accounts index)
    fun {g h k a} alike _ _ ok => ?_
  simp only [FuncletCalls.ready, FuncletCalls.nodeAt, bind_ok, get_ok, inRange_ok, pure_ok] at ok ⊢
  obtain ⟨node, _, ⟨_, _, ⟨rfl, rfl⟩, present, rfl⟩, rfl, rfl⟩ := ok
  obtain ⟨other, present', same⟩ := alike.lookup present
  exact ⟨_, h, ⟨other, h, ⟨h, h, ⟨rfl, rfl⟩, present', rfl⟩, rfl, rfl⟩,
    (congrArg FuncletNode.ready same :), alike⟩

theorem twins_completeFunclet (index : Nat) :
    Shadows Twins (completeFunclet index) (completeFunclet index) := by
  refine mimics_bind (twins_request (FuncletCalls.markComplete_accounts index) fun alike _ _ ok =>
    alike.markComplete ok) fun _ _ => ?_
  refine mimics_bind twins_openRegion fun r q => mimics_of_fact fun alike => ?_
  refine mimics_bind (twins_blockOf alike index) fun _ _ => ?_
  exact shadows_builder stackRelation_twins (Ssa.Builder.sealBlock_neverRefuses _)
    (Ssa.Builder.sealBlock_neverRefuses _)

def transferAll (args : List Operand) (polymorphic : Bool) : List Nat → Step Unit
  | [] => pure ()
  | target :: rest => do
      transferTo target args polymorphic
      transferAll args polymorphic rest

theorem callTargets_eq (args : List Operand) (polymorphic : Bool) (targets : List Nat)
    (seen : Std.HashSet Nat) : callTargets args polymorphic targets seen =
      transferAll args polymorphic (targets.filter fun target => !seen.contains target).eraseDups := by
  induction targets generalizing seen with
  | nil => rfl
  | cons target rest ih =>
      rw [eraseDups_unseen, callTargets, ih]
      split <;> rfl

def callTable (setting : Setting) (targets : List Nat) (default : Nat) : Step Unit := do
  let index ← takeValue .i32
  emitStatement Opcode.funcletCallTableByte [index] targets.length
  let args ← regionOperands
  let polymorphic ← operandsUnreachable
  transferAll args polymorphic (targets ++ [default]).eraseDups
  endBlock setting

theorem funcletCallTable_eq (setting : Setting) (targets : List Nat) (default : Nat) :
    funcletCallTable setting targets default = callTable setting targets default := by
  simp only [funcletCallTable, callTable, callTargets_eq, Std.HashSet.contains_empty, Bool.not_false,
    List.filter_true]

def Callable (r : OpenRegion) (args : List Operand) (polymorphic : Bool) (targets : List Nat) : Prop :=
  ∀ target ∈ targets, target < r.blocks.size ∧
    r.graph.Receives target (args.map Operand.type) polymorphic

def calling (r : OpenRegion) (args : List Operand) (polymorphic : Bool) (offset : Nat)
    (targets : List Nat) : OpenRegion :=
  { r with graph := r.graph.tookAll targets (args.map Operand.type) polymorphic offset }

/-- What calls to the targets do beside the function under construction. -/
def Dispatched (s : State) (r : OpenRegion) (outer : List OpenRegion) (args : List Operand)
    (polymorphic : Bool) (targets : List Nat) (t : State) : Prop :=
  Near { s with regions := calling r args polymorphic s.start targets :: outer } t ∧ t.stack = s.stack

theorem ends_transferTo {target : Nat} (regions : s.regions = r :: outer)
    (callable : Callable r args polymorphic [target]) :
    Ends (transferTo target args polymorphic) s (fun _ t => Dispatched s r outer args polymorphic [target] t)
      fun e _ => ¬ e.IsRefusal := by
  obtain ⟨inside, receives⟩ := callable target List.mem_cons_self
  obtain ⟨last, k, called, done⟩ := receives.call s.start
  have block := Array.getElem?_eq_getElem inside
  change Ends (get >>= fun s => onGraph _ >>= fun last => _) s _ _
  rw [ends_bind, ends_get]
  refine ends_bind_of_ok (onGraph_ok.mpr ⟨r, outer, k, regions, called, rfl⟩) ?_
  refine ends_bind_of_ok (openRegion_ok.mpr ⟨rfl, rfl⟩) ?_
  refine ends_bind_of_ok (blockOf_ok.mpr ⟨block, rfl⟩) ?_
  rw [ends_bind]
  refine (aloof_valuesOf args _).imp fun values u one => ?_
  rw [ends_bind]
  refine (aloof_branchTo _ values u).imp fun _ v two => ?_
  have near := one.1.trans two.1
  have stack := two.2.trans one.2
  split
  · rename_i last
    rw [if_pos last] at done
    have open_ : v.regions = { r with graph := k } :: outer := near.regions
    refine ends_bind_of_ok (onGraph_ok.mpr ⟨_, _, _, open_, done, rfl⟩) ?_
    refine ends_bind_of_ok (openRegion_ok.mpr ⟨rfl, rfl⟩) ?_
    refine ends_bind_of_ok (blockOf_ok.mpr ⟨block, rfl⟩) ?_
    refine (aloof_onBuilder (Ssa.Builder.sealBlock_neverRefuses _) _).imp fun _ w three => ?_
    refine ⟨⟨?_, three.1.locals.trans near.locals⟩, three.2.trans stack⟩
    rw [three.1.same, near.same]
    rfl
  · rename_i last
    rw [if_neg last] at done
    subst done
    exact ⟨near, stack⟩

theorem callable_after {target : Nat} {offset : Nat} (fresh : target ∉ targets) :
    Callable (calling r args polymorphic offset [target]) args polymorphic targets ↔
      Callable r args polymorphic targets := by
  refine forall₂_congr fun other member => and_congr_right fun _ => ?_
  exact FuncletCalls.receives_took fun same => fresh (same ▸ member)

theorem Dispatched.cons {target : Nat}
    (first : Dispatched s r outer args polymorphic [target] t)
    (rest : Dispatched t (calling r args polymorphic s.start [target]) outer args polymorphic targets u) :
    Dispatched s r outer args polymorphic (target :: targets) u := by
  refine ⟨⟨?_, rest.1.locals.trans first.1.locals⟩, rest.2.trans first.2⟩
  rw [rest.1.same, first.1.same]
  rfl

theorem ends_transferAll (regions : s.regions = r :: outer) (different : targets.Nodup)
    (callable : Callable r args polymorphic targets) :
    Ends (transferAll args polymorphic targets) s
      (fun _ t => Dispatched s r outer args polymorphic targets t) fun e _ => ¬ e.IsRefusal := by
  induction targets generalizing s r with
  | nil =>
      have same : calling r args polymorphic s.start [] :: outer = s.regions := regions.symm
      refine ⟨⟨?_, rfl⟩, rfl⟩
      rw [same]
  | cons target rest ih =>
      obtain ⟨fresh, different⟩ := List.nodup_cons.mp different
      rw [transferAll, ends_bind]
      refine (ends_transferTo regions fun other member => ?_).imp fun _ u first => ?_
      · exact callable other (List.mem_singleton.mp member ▸ List.mem_cons_self)
      · have later : u.regions = calling r args polymorphic s.start [target] :: outer :=
          first.1.regions
        refine (ih later different ((callable_after fresh).mpr fun other member => ?_)).imp
          fun _ v rest => first.cons rest
        exact callable other (List.mem_cons_of_mem _ member)

theorem callable_of_transferAll (regions : s.regions = r :: outer) (different : targets.Nodup)
    (ok : transferAll args polymorphic targets s = .ok () t) :
    Callable r args polymorphic targets := by
  induction targets generalizing s r with
  | nil => exact fun target member => absurd member List.not_mem_nil
  | cons target rest ih =>
      obtain ⟨fresh, different⟩ := List.nodup_cons.mp different
      obtain ⟨_, u, transferred, ok⟩ := bind_ok.mp ok
      obtain ⟨r', outer', last, graph, block, _, _, _, regions', called, found, -⟩ :=
        transferTo_ok.mp transferred
      obtain ⟨rfl, rfl⟩ := List.cons.inj (regions.symm.trans regions')
      have first : Callable r args polymorphic [target] := fun other member => by
        rw [List.mem_singleton.mp member]
        exact ⟨(Array.getElem?_eq_some_iff.mp found).1, FuncletCalls.receives_of_call called⟩
      have after := (ends_transferTo regions first).of_ok transferred
      have later : u.regions = calling r args polymorphic s.start [target] :: outer :=
        after.1.regions
      have others := (callable_after fresh).mp (ih later different ok)
      exact List.forall_mem_cons.mpr ⟨first target List.mem_cons_self, others⟩

/-- Calls to the same funclets, in whatever order they come. -/
theorem twins_transferAll (types : args'.map Operand.type = args.map Operand.type)
    (different : targets.Nodup) (different' : others.Nodup) (same : ∀ i, i ∈ others ↔ i ∈ targets)
    (some_ : targets ≠ []) :
    Shadows Twins (transferAll args polymorphic targets) (transferAll args' polymorphic others) := by
  intro s t twins _ u ok
  obtain ⟨r, outer, regions⟩ : ∃ r outer, s.regions = r :: outer := by
    obtain ⟨target, rest, rfl⟩ := List.exists_cons_of_ne_nil some_
    obtain ⟨_, _, transferred, _⟩ := bind_ok.mp ok
    obtain ⟨r, outer, _, _, _, _, _, _, regions, _⟩ := transferTo_ok.mp transferred
    exact ⟨r, outer, regions⟩
  have all := twins.regions
  rw [regions] at all
  obtain ⟨q, outer', first, rest, regions'⟩ := List.forall₂_cons_left_iff.mp all
  have callable := callable_of_transferAll regions different ok
  have callable' : Callable q args' polymorphic others := fun i member => by
    obtain ⟨inside, receives⟩ := callable i ((same i).mp member)
    rw [types, first.blocks]
    exact ⟨inside, first.graph.receives receives⟩
  have called := (ends_transferAll regions different callable).of_ok ok
  refine (ends_transferAll regions' different' callable').imp fun _ v called' => ?_
  have alike : (calling r args polymorphic s.start targets).Alike
      (calling q args' polymorphic t.start others) := { first with
    graph := by
      rw [calling, calling, types]
      exact first.graph.tookAll different different' same
    accounted := first.accounted.tookAll different fun i member => (callable i member).2
    accounted' := first.accounted'.tookAll different' fun i member => (callable' i member).2 }
  have before : Twins { s with regions := calling r args polymorphic s.start targets :: outer }
      { t with regions := calling q args' polymorphic t.start others :: outer' } :=
    { twins with regions := .cons alike rest }
  refine stackRelation_twins.kept before ⟨called.1, called'.1, trivial, trivial, ?_⟩
  rw [called.2, called'.2]
  exact twins.stack

theorem transferAll_single (args : List Operand) (polymorphic : Bool) (target : Nat) :
    transferAll args polymorphic [target] = transferTo target args polymorphic := by
  simp [transferAll]

theorem twins_transferTo (types : args'.map Operand.type = args.map Operand.type) (target : Nat) :
    Shadows Twins (transferTo target args polymorphic) (transferTo target args' polymorphic) := by
  rw [← transferAll_single, ← transferAll_single]
  exact twins_transferAll types (List.nodup_singleton target) (List.nodup_singleton target)
    (fun _ => Iff.rfl) (List.cons_ne_nil _ _)

theorem twins_callOut {k k' : List Operand → Bool → Step Unit}
    (calls : ∀ args args' polymorphic, args'.map Operand.type = args.map Operand.type →
      Shadows Twins (k args polymorphic) (k' args' polymorphic)) :
    Shadows Twins (regionOperands >>= fun args => operandsUnreachable >>= k args)
      (regionOperands >>= fun args => operandsUnreachable >>= k' args) := by
  refine mimics_bind twins_regionOperands fun args args' => mimics_of_fact fun types => ?_
  refine mimics_bind twins_operandsUnreachable fun a b => mimics_of_fact fun same => ?_
  rw [same]
  exact calls args args' a types

theorem twins_funcletHeader : Mimics Twins (onCursor (Decode.funcletHeader setting))
    (onCursor (Decode.funcletHeader setting)) fun a b s t => Twins s t ∧ b = a :=
  mimics_of_ok fun {s t header u} twins ok => by
    obtain ⟨d, read, rfl⟩ := onCursor_ok.mp ok
    cases header with
    | none =>
        obtain ⟨rfl, other⟩ := Decode.funcletHeader_none.mp read
        rw [← twins.rest] at other
        exact ⟨none, _, onCursor_ok.mpr ⟨_, Decode.funcletHeader_none.mpr ⟨rfl, other⟩, rfl⟩, twins, rfl⟩
    | some header =>
        obtain ⟨e, written, split, _⟩ := Decode.funcletHeader_some.mp read
        rw [← twins.rest] at split
        exact ⟨some header, _, onCursor_ok.mpr ⟨⟨t.cursor.offset + e.length, d.rest⟩,
          Decode.funcletHeader_some.mpr ⟨e, written, split, rfl⟩, rfl⟩, { twins with rest := rfl }, rfl⟩

theorem twins_modify {change change' : State → State}
    (twins : ∀ {s t}, Twins s t → Twins (change s) (change' t)) :
    Shadows Twins (modify change) (modify change') :=
  mimics_of_ok fun before ok => by
    obtain rfl := modify_ok.mp ok
    exact ⟨(), _, modify_ok.mpr rfl, twins before⟩

theorem twins_declare (index : Nat) (params : List ValueType) (declared : Nat) (explicit : Bool) :
    Shadows Twins (onGraph (FuncletCalls.declare index params declared explicit))
      (onGraph (FuncletCalls.declare index params declared explicit)) :=
  twins_request (FuncletCalls.declare_accounts index params declared explicit)
    fun alike one two ok => alike.declare one two ok

theorem twins_funcletParams (index : Nat) :
    Mimics Twins (funcletParams setting index) (funcletParams setting index)
      fun a b s t => Twins s t ∧ b = a := by
  refine mimics_bind twins_funcletHeader fun a b => mimics_of_fact fun same => ?_
  rw [same]
  cases a with
  | some header =>
      refine mimics_bind (twins_modify fun twins => { twins with }) fun _ _ => ?_
      exact mimics_bind (twins_declare _ _ _ _) fun _ _ => mimics_pure fun _ _ twins => ⟨twins, rfl⟩
  | none =>
      dsimp only
      split
      · exact mimics_bind (twins_declare _ _ _ _) fun _ _ => mimics_pure fun _ _ twins => ⟨twins, rfl⟩
      · refine twins_onGraph (FuncletCalls.infer_accounts index) (FuncletCalls.infer_accounts index)
          fun alike one two ok => ?_
        obtain ⟨l, ok', later⟩ := alike.infer one two ok
        exact ⟨_, l, ok', rfl, later⟩

theorem twins_startFunclet (index : Nat) :
    Shadows Twins (startFunclet setting index) (startFunclet setting index) := by
  refine mimics_bind (twins_modify fun twins => { twins with }) fun _ _ => ?_
  refine mimics_bind (twins_request (FuncletCalls.enter_accounts index) fun alike _ _ ok =>
    alike.enter ok) fun _ _ => ?_
  refine mimics_bind (twins_funcletParams index) fun params params' => mimics_of_fact fun same => ?_
  rw [same]
  refine mimics_bind twins_innermost fun f g => mimics_of_fact fun shape => ?_
  rw [Frame.signature_of_shape shape]
  refine mimics_bind (mimics_require id) fun _ _ => ?_
  refine mimics_bind twins_openRegion fun r q => mimics_of_fact fun alike => ?_
  refine mimics_bind (twins_blockOf alike index) fun block block' => ?_
  refine mimics_bind (shadows_builder stackRelation_twins (Ssa.Builder.declareArguments_neverRefuses _ _)
    (Ssa.Builder.declareArguments_neverRefuses _ _)) fun _ _ => ?_
  refine mimics_bind (twins_ready index) fun a b => mimics_of_fact fun same => ?_
  rw [same]
  have arguments : Shadows Twins
      (do
        moveTo block
        let args ← onBuilder (Ssa.Builder.args block)
        onStack (TypedStack.reset (TypedStack.withValues params (args.map some))))
      (do
        moveTo block'
        let args ← onBuilder (Ssa.Builder.args block')
        onStack (TypedStack.reset (TypedStack.withValues params (args.map some)))) :=
    mimics_bind (shadows_of_aloof stackRelation_twins (aloof_moveTo _) (aloof_moveTo _)) fun _ _ =>
      mimics_bind (shadows_builder stackRelation_twins (Ssa.Builder.args_neverRefuses _)
        (Ssa.Builder.args_neverRefuses _)) fun _ _ => shadows_reset stackRelation_twins _ _ _
  dsimp only
  split
  · exact mimics_bind (twins_completeFunclet index) fun _ _ => arguments
  · exact arguments

theorem twins_closeRegion : Shadows Twins closeRegion closeRegion := by
  refine mimics_bind (twins_request FuncletCalls.finish_accounts fun {g h k} alike _ _ ok => ?_)
    fun _ _ => ?_
  · obtain ⟨finished, rfl⟩ := alike.finish ok
    exact ⟨h, finished, alike⟩
  refine mimics_bind twins_openRegion fun r q => mimics_of_fact fun alike => ?_
  refine mimics_bind twins_innermost fun f g => mimics_of_fact fun shape => ?_
  have never (exit : BlockId) : Ssa.Builder.NeverRefuses (do
      Ssa.Builder.sealBlock exit
      Ssa.Builder.args exit) :=
    along_bind (Ssa.Builder.sealBlock_neverRefuses _) fun _ => Ssa.Builder.args_neverRefuses _
  refine mimics_bind (shadows_builder stackRelation_twins (never _) (never _)) fun _ _ => ?_
  refine mimics_bind (twins_record alike) fun record other => mimics_of_fact fun same => ?_
  refine mimics_bind (twins_modify fun twins => { twins with closed := ?_ }) fun _ _ => ?_
  · rw [Array.toList_push, Array.toList_push]
    exact List.rel_append twins.closed (.cons same .nil)
  refine mimics_bind (twins_leave shape) fun _ _ => ?_
  refine mimics_bind (shadows_of_aloof stackRelation_twins (aloof_moveTo _) (aloof_moveTo _)) fun _ _ => ?_
  rw [Frame.signature_of_shape shape]
  refine mimics_bind (shadows_putValues stackRelation_twins _ _ _) fun _ _ => ?_
  refine mimics_bind (twins_modify fun twins => { twins with regions := ?_ }) fun _ _ => twins_popFrame
  rw [← List.drop_one, ← List.drop_one]
  exact List.forall₂_drop 1 twins.regions

theorem twins_nextFunclet : Shadows Twins (nextFunclet setting) (nextFunclet setting) := by
  refine mimics_bind twins_openRegion fun r q => mimics_of_fact fun alike => ?_
  dsimp only
  rw [alike.graph.current, alike.graph.size]
  split
  · exact twins_startFunclet _
  · exact twins_closeRegion

theorem twins_closeFunclet (shape : g.shape = f.shape) :
    Shadows Twins (closeFunclet setting f) (closeFunclet setting g) := by
  refine mimics_bind twins_openRegion fun r q => mimics_of_fact fun alike => ?_
  dsimp only
  rw [alike.graph.current, alike.graph.size]
  split
  · exact twins_callOut fun args args' polymorphic types =>
      mimics_bind (twins_transferTo types _) fun _ _ => twins_nextFunclet
  · rw [Frame.signature_of_shape shape]
    refine mimics_bind (shadows_takeAll stackRelation_twins _) fun _ _ => ?_
    exact mimics_bind (shadows_branchTo stackRelation_twins _ _ _ _) fun _ _ => twins_closeRegion

/-- Twin validations in step. -/
def twinning (setting : Setting) : Pairing setting where
  comparison := sameTypes
  Held := Twins
  Inward m m' s t := Twins s t ∧ m' = m
  Within f g s t := Twins s t ∧ g.shape = f.shape
  Outward := Twins
  held := stackRelation_twins
  inward _ _ := stackRelation_twins.and _
  within_ _ _ := stackRelation_twins.and _
  outward := stackRelation_twins
  inside within_ := within_.1
  alike within_ := Frame.alike_of_shape within_.2
  labelled := twins_labelled
  function {s t} twins := by
    have same := congrArg (Option.map Frame.signature) (twins.frames 0)
    rwa [Option.map_map, Option.map_map] at same
  innermost := twins_innermost
  enter := twins_enter
  pushFrame _ _ _ alike _ := twins_pushFrame _ _ _ (Construct.kind_of_alike alike)
  turn _ _ := fun s t within_ => twins_turn within_.2 s t within_.1
  leave _ := fun s t within_ => twins_leave within_.2 s t within_.1
  ends within_ _ := within_.1
  popFrame := twins_popFrame
  nextFunclet _ := fun s t within_ => twins_nextFunclet s t within_.1
  closeFunclet _ := fun s t within_ => twins_closeFunclet within_.2 s t within_.1

theorem nodup_eraseDups (targets : List Nat) : targets.eraseDups.Nodup := by
  generalize size : targets.length = n
  induction n using Nat.strongRecOn generalizing targets with
  | ind n ih =>
      cases targets with
      | nil => exact List.nodup_nil
      | cons target rest =>
          rw [List.eraseDups_cons]
          have fewer := List.length_filter_le (fun other => !other == target) rest
          rw [List.length_cons] at size
          refine List.nodup_cons.mpr ⟨fun member => ?_, ih _ (by omega) _ rfl⟩
          simp at member

theorem twins_funcletCallTable {default default' : Nat}
    (same : ∀ i, i ∈ others ++ [default'] ↔ i ∈ targets ++ [default]) :
    Shadows Twins (funcletCallTable setting targets default)
      (funcletCallTable setting others default') := by
  rw [funcletCallTable_eq, funcletCallTable_eq]
  refine mimics_bind (shadows_takeValue stackRelation_twins _) fun _ _ => ?_
  refine mimics_bind (shadows_emitStatement stackRelation_twins _ _ _ _ _ _) fun _ _ => ?_
  refine twins_callOut fun args args' polymorphic types => ?_
  refine mimics_bind (twins_transferAll types (nodup_eraseDups _) (nodup_eraseDups _)
    (fun i => ?_) ?_) fun _ _ => (twinning setting).shadows_endBlock
  · rw [List.mem_eraseDups, List.mem_eraseDups, same]
  · exact List.ne_nil_of_mem (List.mem_eraseDups.mpr (List.mem_append_right _ List.mem_cons_self))

theorem twins_funcletRegion (signature : Signature) (funclets : Nat) :
    Shadows Twins (funcletRegion setting signature funclets)
      (funcletRegion setting signature funclets) := by
  refine mimics_get fun s t twins => ?_
  refine mimics_get fun s' t' _ => ?_
  rw [twins.size]
  cases sized : FuncletCalls.ofSize? funclets with
  | none => exact mimics_of_failure violate_ok.mp
  | some graph =>
      dsimp only
      have never : Ssa.Builder.NeverRefuses
          ((List.replicate funclets Ssa.BlockKind.funclet).mapM Ssa.Builder.addBlock) :=
        along_mapM fun kind _ => Ssa.Builder.addBlock_neverRefuses kind
      have count {s u : State} {blocks : List BlockId}
          (ok : onBuilder ((List.replicate funclets Ssa.BlockKind.funclet).mapM Ssa.Builder.addBlock) s =
            .ok blocks u) : blocks.length = funclets := by
        obtain ⟨b, added, rfl⟩ := onBuilder_ok.mp ok
        rw [length_of_mapM_ok added, List.length_replicate]
      refine mimics_bind ((shadows_builder stackRelation_twins never never).results count count) fun _ _ => ?_
      refine mimics_of_fact fun lengths => ?_
      refine mimics_bind (shadows_of_aloof stackRelation_twins (aloof_newTarget _ _) (aloof_newTarget _ _))
        fun _ _ => ?_
      refine mimics_bind (shadows_shareValues stackRelation_twins _) fun _ _ => ?_
      refine mimics_bind (shadows_branchTo stackRelation_twins _ _ _ _) fun _ _ => ?_
      refine mimics_bind (twins_enter _) fun mark mark' => mimics_of_fact fun marks => ?_
      rw [marks]
      refine mimics_bind (fun s t twins => twins_pushFrame _ _ _ rfl s t ⟨twins, rfl⟩) fun _ _ => ?_
      refine mimics_bind (twins_modify fun twins => { twins with regions := .cons ?_ twins.regions })
        fun _ _ => twins_startFunclet 0
      have accounted := FuncletCalls.accounted_of_size sized
      refine ⟨rfl, rfl, rfl, ?_, .refl graph, accounted, accounted⟩
      rw [List.size_toArray, List.size_toArray, lengths.1, lengths.2]

theorem twins_execute (i : Instruction) : Shadows Twins (execute setting i) (execute setting i) := by
  cases i with
  | funcletRegion signature funclets => exact twins_funcletRegion signature funclets
  | strayFuncletSig => exact mimics_get fun _ _ _ => mimics_of_failure reject_ok.mp
  | funcletCall target =>
      refine mimics_bind (shadows_emitStatement stackRelation_twins _ _ _ _ _ _) fun _ _ => ?_
      exact twins_callOut fun args args' polymorphic types =>
        mimics_bind (twins_transferTo types _) fun _ _ => (twinning setting).shadows_endBlock
  | funcletCallIf target =>
      refine mimics_bind (shadows_takeValue stackRelation_twins _) fun _ _ => ?_
      refine mimics_bind (shadows_emitStatement stackRelation_twins _ _ _ _ _ _) fun _ _ => ?_
      exact twins_callOut fun args args' polymorphic types =>
        mimics_bind (twins_transferTo types _) fun _ _ =>
          shadows_of_aloof stackRelation_twins aloof_fallThrough aloof_fallThrough
  | funcletCallTable targets default => exact twins_funcletCallTable fun _ => Iff.rfl
  | _ => exact (twinning setting).shadows_host rfl

end WasmFunclets.Validation
