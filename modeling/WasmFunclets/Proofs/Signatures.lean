import WasmFunclets.Proofs.Accounts
import WasmFunclets.Proofs.Ahead
import WasmFunclets.Proofs.Ssa.NeverRefuses

/-! The two ways in which a funclet gets its parameters: from its header, and from the calls to it. -/

namespace WasmFunclets

open Attempt

theorem Attempt.Ends.fails {σ α : Type} {m : Attempt σ α} {s : σ} {E : Fault → σ → Prop}
    (ends : Ends m s (fun _ _ => False) E) : ∃ e t, m s = .error e t ∧ E e t := by
  cases outcome : m s with
  | ok a t => exact (ends.of_ok outcome).elim
  | error e t => exact ⟨e, t, rfl, ends.of_error outcome⟩

namespace FuncletCalls

variable {g h : FuncletCalls} {index declared : Nat} {params : List ValueType} {explicit : Bool}
variable {node : FuncletNode}

theorem checkIncoming_nodes {numbers : List Nat} (nodes : Array FuncletNode)
    (ok : checkIncoming index params numbers g = .ok () h) :
    checkIncoming index params numbers { g with nodes } = .ok () { h with nodes } := by
  induction numbers generalizing g with
  | nil =>
      obtain ⟨_, rfl⟩ := pure_ok.mp ok
      rfl
  | cons n rest ih =>
      rw [checkIncoming, get_bind_ok] at ok ⊢
      cases present : g.edges[n]? with
      | none =>
          simp only [present] at ok ⊢
          exact ih ok
      | some edge =>
          simp only [present] at ok ⊢
          by_cases checked : edge.checked = true
          · simp only [checked, if_true] at ok ⊢
            exact ih ok
          · by_cases agrees : edge.agrees params = true
            · simp only [checked, agrees, if_true, Bool.false_eq_true, if_false] at ok ⊢
              exact ih ok
            · simp [checked, agrees] at ok

theorem checkIncoming_same {numbers : List Nat}
    (ok : checkIncoming index params numbers g = .ok () h) : h = { g with edges := h.edges } ∧
      SameCalls g.edges h.edges := by
  obtain ⟨same, edges, _⟩ := (checkIncoming_ends params numbers g).of_ok ok
  refine ⟨same, Array.ext_getElem? fun n => ?_⟩
  rw [Array.getElem?_map, Array.getElem?_map, edges, Option.map_map]
  refine congrArg (g.edges[n]?.map ·) (funext fun edge => ?_)
  dsimp only [Function.comp]
  split <;> rfl

/-- A funclet with its parameters, its declared calls and where it has them from. -/
def settled (g : FuncletCalls) (index : Nat) (change : FuncletNode → FuncletNode)
    (edges : Array CallEdge) : FuncletCalls :=
  { g with nodes := g.nodes.modify index change, edges }

/-- The funclet waits for parameters, and the calls to it agree with the given ones. -/
structure AwaitsParams (g : FuncletCalls) (index : Nat) (node : FuncletNode) (params : List ValueType)
    (edges : Array CallEdge) : Prop where
  present : g.nodes[index]? = some node
  entered : node.entered = true
  undeclared : node.params = none
  agree : checkIncoming index params node.incoming.toList g = .ok () { g with edges }

theorem AwaitsParams.same {edges : Array CallEdge} (awaits : g.AwaitsParams index node params edges) :
    SameCalls g.edges edges := (checkIncoming_same awaits.agree).2

theorem declare_ok : declare index params declared explicit g = .ok () h ↔
    ∃ node edges, g.AwaitsParams index node params edges ∧
      h = g.settled index (fun node => { node with params := some params, declared, explicit })
        edges := by
  simp only [declare, nodeAt, modifyNode, bind_ok, get_ok, inRange_ok, maintain_ok, modify_ok]
  constructor
  · rintro ⟨node, _, ⟨_, _, ⟨rfl, rfl⟩, present, rfl⟩, _, _, ⟨⟨entered, undeclared⟩, rfl⟩, _, _, rfl, ok⟩
    have back := checkIncoming_nodes g.nodes ok
    obtain ⟨same, _⟩ := checkIncoming_same ok
    refine ⟨node, h.edges, ⟨present, entered, Option.isNone_iff_eq_none.mp undeclared, ?_⟩, same⟩
    exact back.trans (by rw [same])
  · rintro ⟨node, edges, ⟨present, entered, undeclared, agree⟩, rfl⟩
    exact ⟨node, g, ⟨g, g, ⟨rfl, rfl⟩, present, rfl⟩, (), g, ⟨⟨entered, by simp [undeclared]⟩, rfl⟩,
      (), _, rfl, checkIncoming_nodes _ agree⟩

/-- The first call that is not polymorphic settles the parameters. -/
theorem infer_ok : infer index g = .ok params h ↔
    ∃ node edges edge, g.AwaitsParams index node params edges ∧
      (g.edgesTo node).find? (fun edge => !edge.polymorphic) = some edge ∧ edge.args = params ∧
        h = g.settled index (fun node => { node with params := some params }) edges := by
  simp only [infer, nodeAt, modifyNode, bind_ok, get_ok, inRange_ok, maintain_ok]
  constructor
  · rintro ⟨node, _, ⟨_, _, ⟨rfl, rfl⟩, present, rfl⟩, _, _, ⟨⟨entered, undeclared⟩, rfl⟩, _, _,
      ⟨rfl, rfl⟩, ok⟩
    cases found : (g.edgesTo node).find? fun edge => !edge.polymorphic with
    | none => simp [found] at ok
    | some edge =>
      simp only [found, bind_ok, modify_ok, pure_ok] at ok
      obtain ⟨_, _, rfl, _, _, ok, rfl, rfl⟩ := ok
      have back := checkIncoming_nodes g.nodes ok
      obtain ⟨same, _⟩ := checkIncoming_same ok
      refine ⟨node, _, edge, ⟨present, entered, Option.isNone_iff_eq_none.mp undeclared, ?_⟩, found,
        rfl, same⟩
      exact back.trans (by rw [same])
  · rintro ⟨node, edges, edge, ⟨present, entered, undeclared, agree⟩, found, rfl, rfl⟩
    refine ⟨node, g, ⟨g, g, ⟨rfl, rfl⟩, present, rfl⟩, (), g, ⟨⟨entered, by simp [undeclared]⟩, rfl⟩,
      g, g, ⟨rfl, rfl⟩, ?_⟩
    simp only [found, bind_ok, modify_ok, pure_ok]
    exact ⟨(), _, rfl, (), _, checkIncoming_nodes _ agree, trivial, rfl⟩

theorem infer_error (present : g.nodes[index]? = some node) (entered : node.entered = true)
    (undeclared : node.params = none) (polymorphic : ∀ edge ∈ g.edgesTo node, edge.polymorphic = true) :
    infer index g = .error (.invalid ⟨if node.incoming.isEmpty then .unreachableFunclet
      else .uninferableFunclet, some index, none⟩) g := by
  have none_ : (g.edgesTo node).find? (fun edge => !edge.polymorphic) = none := by
    simpa [List.find?_eq_none] using polymorphic
  have ends : Ends (infer index) g (fun _ _ => False) fun e h => e = .invalid ⟨if node.incoming.isEmpty
      then .unreachableFunclet else .uninferableFunclet, some index, none⟩ ∧ h = g := by
    simp only [infer, nodeAt, ends_bind, ends_get, ends_inRange, ends_maintain, present]
    refine ⟨?_, by simp⟩
    rintro _ ⟨⟩
    exact ⟨fun _ => by rw [none_]; exact ⟨rfl, rfl⟩, fun out => absurd ⟨entered, by simp [undeclared]⟩ out⟩
  obtain ⟨_, _, failed, rfl, rfl⟩ := ends.fails
  exact failed

theorem AwaitsParams.calls {edges : Array CallEdge} (awaits : g.AwaitsParams index node params edges) :
    (g.edgesTo node).map CallEdge.unchecked =
      (node.incoming.toList.filterMap fun n => edges[n]?).map CallEdge.unchecked := by
  have same : SameCalls g.edges edges := (checkIncoming_same awaits.agree).2
  have each (calls : Array CallEdge) : (node.incoming.toList.filterMap fun n => calls[n]?).map
      CallEdge.unchecked = node.incoming.toList.filterMap fun n => (calls.map CallEdge.unchecked)[n]? := by
    rw [List.map_filterMap]
    refine List.filterMap_congr fun n _ => ?_
    rw [Array.getElem?_map]
  rw [edgesTo, each, each, same]

end FuncletCalls

namespace Validation

variable {setting other : Setting} {s t u : State} {i : Instruction} {c d : Cursor}
variable {index : Nat} {header : Option Decode.FuncletHeader} {params : List ValueType}

theorem onGraph_error {α : Type} {change : Attempt FuncletCalls α} {r : OpenRegion}
    {outer : List OpenRegion} {e : Fault} (regions : s.regions = r :: outer)
    (failed : change r.graph = .error e r.graph) : onGraph change s = .error e s := by
  simp only [onGraph, regions, within, failed]
  rw [← regions]

theorem step_fetched (decoded : Decode.instruction (scopeOf setting s) s.cursor = .ok i c) :
    step setting s = execute setting i (s.fetched c) := by
  have some_ : s.cursor.isEmpty = false := by
    obtain ⟨⟨e, written, split, _⟩, _⟩ := Decode.instruction_ok.mp decoded
    rw [Cursor.isEmpty, split]
    cases e with
    | nil => exact absurd written Decode.not_ofInstruction_nil
    | cons => rfl
  have fetched : fetch setting s = .ok i { s with start := s.cursor.offset, cursor := c } := by
    simp only [fetch, scope, bind_ok, modify_ok, get_ok, require_ok, onCursor_ok, pure_ok]
    exact ⟨(), _, rfl, _, _, ⟨rfl, rfl⟩, (), _, ⟨by simp [some_], rfl⟩, scopeOf setting s, _,
      ⟨_, _, ⟨rfl, rfl⟩, rfl, rfl⟩, c, decoded, rfl⟩
  rw [step_eq]
  simp only [bind, EStateM.bind, fetched]
  rfl

theorem startFunclet_settles
    (entered : onGraph (FuncletCalls.enter index) { s with start := s.cursor.offset } = .ok () u)
    (read : Decode.funcletHeader setting s.cursor = .ok header d) :
    startFunclet setting index s =
      (settleFunclet index header >>= beginFunclet index) (u.moved d (s.decoded + counted header)) := by
  have reads : onCursor (Decode.funcletHeader setting) u = .ok header (u.moved d u.decoded) := by
    refine onCursor_ok.mpr ⟨d, ?_, rfl⟩
    rwa [(((blind_onGraph _).ends _).of_ok entered).1]
  have count : u.decoded = s.decoded := (((blind_onGraph _).ends _).of_ok entered).2
  have noted : (modify fun s => { s with start := s.cursor.offset } : Step PUnit) s =
      .ok () { s with start := s.cursor.offset } := rfl
  rw [startFunclet_eq]
  simp only [bind, EStateM.bind, noted, entered, reads]
  rw [← count]
  rfl

structure Starting (setting : Setting) (s : State) (i : Instruction) (c : Cursor) (index : Nat)
    (u : State) : Prop where
  decoded : Decode.instruction (scopeOf setting s) s.cursor = .ok i c
  first : index = 0 ↔ ∃ signature funclets, i = .funcletRegion signature funclets
  cursor : u.cursor = c
  count : u.decoded = s.decoded + 1
  starts : ∀ other d n, execute other i ((s.fetched c).moved d n) = startFunclet other index (u.moved d n)

theorem starting_of_header (ok : step setting s = .ok () t) (two : t.decoded = s.decoded + 2) :
    ∃ i c index u, Starting setting s i c index u := by
  obtain ⟨i, c, decoded, executed⟩ := step_ok_iff.mp ok
  obtain ⟨lead, made, allowed, same⟩ := execute_startsLast i
  have blind : Blind lead := made.of_all blind_parts
  rw [show execute setting i = _ from same setting] at executed
  obtain ⟨start, u, led, started⟩ := bind_ok.mp executed
  have count : u.decoded = s.decoded + 1 := blind.decoded led
  cases start with
  | none =>
      obtain ⟨-, rfl⟩ := pure_ok.mp started
      omega
  | some index =>
      refine ⟨i, c, index, u, decoded, ?_, blind.cursor led, count, fun other d n => ?_⟩
      · simpa using allowed _ _ _ led
      · rw [show execute other i = _ from same other]
        simp only [bind, EStateM.bind, blind.of_ok led d n]
        rfl

theorem Starting.step (starting : Starting setting s i c index u) :
    Validation.step setting s = startFunclet setting index u := by
  have starts := starting.starts setting c (s.decoded + 1)
  rw [step_fetched starting.decoded]
  have same : u.moved c (s.decoded + 1) = u := by
    rw [← starting.cursor, ← starting.count, State.moved_self]
  rwa [same] at starts

/-- The funclet at hand and the recorded calls, with the parameters of the funclets and the calls to
each of them. -/
structure CallView where
  current : Nat
  edges : Array CallEdge
  nodes : Array (Option (List ValueType) × Array Nat)

def callView (g : FuncletCalls) : CallView :=
  ⟨g.current, g.edges, g.nodes.map fun node => (node.params, node.incoming)⟩

def State.calls (s : State) : List CallView := s.regions.map fun r => callView r.graph

theorem markComplete_calls (index : Nat) :
    Leaves callView (FuncletCalls.markComplete index) := by
  refine along_bind (FuncletCalls.nodeAt_leaves index) fun node => along_ite (along_pure _)
    (along_bind (leaves_maintain _ _) fun _ => along_modify fun g => ?_)
  have same : (g.nodes.modify index fun node => { node with sealed := true }).map
      (fun node => (node.params, node.incoming)) = g.nodes.map fun node => (node.params, node.incoming) := by
    refine Array.ext_getElem? fun i => ?_
    rw [Array.getElem?_map, Array.getElem?_map, Array.getElem?_modify]
    split
    · rw [Option.map_map]
      rfl
    · rfl
  exact congrArg (CallView.mk g.current g.edges) same

theorem onGraph_calls {α : Type} {change : Attempt FuncletCalls α}
    (leaves : Leaves callView change) : Leaves State.calls (onGraph change) := by
  intro s
  obtain ⟨_, _, _, _, _, regions, _, _, _, _⟩ := s
  cases regions with
  | nil => rfl
  | cons region outer =>
      have still := leaves region.graph
      simp only [Ends, onGraph, within] at still ⊢
      cases outcome : change region.graph <;> rw [outcome] at still <;>
        exact congrArg (· :: _) still

theorem beginFunclet_calls (index : Nat) (params : List ValueType) :
    Leaves State.calls (beginFunclet index params) := by
  have moved (block : BlockId) : Leaves State.calls (do
      moveTo block
      let args ← onBuilder (Ssa.Builder.args block)
      onStack (TypedStack.reset (TypedStack.withValues params (args.map some)))) :=
    along_bind (along_modify fun _ => rfl) fun _ =>
      along_bind (onBuilder_leaves (fun _ _ => rfl) _) fun _ => onStack_leaves (fun _ _ => rfl) _
  have completes : Leaves State.calls (completeFunclet index) :=
    along_bind (onGraph_calls (markComplete_calls index)) fun _ => along_bind openRegion_leaves fun _ =>
      along_bind (leaves_inRange _) fun _ => onBuilder_leaves (fun _ _ => rfl) _
  refine along_bind innermost_leaves fun _ => along_bind (leaves_require _ _) fun _ =>
    along_bind openRegion_leaves fun _ => along_bind (leaves_inRange _) fun block =>
      along_bind (onBuilder_leaves (fun _ _ => rfl) _) fun _ =>
        along_bind (onGraph_calls (along_bind (FuncletCalls.nodeAt_leaves _) fun _ => along_pure _)) fun ready => ?_
  exact along_ite (along_bind completes fun _ => moved block) (moved block)

def Unrefused {α : Type} (m : Step α) : Prop := Along (fun _ _ => True) (fun e _ _ => ¬ e.IsRefusal) m

instance : Composes (fun _ _ : State => True) fun e _ _ => ¬ e.IsRefusal where
  refl _ := trivial
  trans _ _ := trivial
  fails _ unrefused := unrefused

theorem unrefused_onBuilder {α : Type} {change : Attempt Ssa.Builder α} (never : Ssa.Builder.NeverRefuses change) :
    Unrefused (onBuilder change) := fun s =>
  ends_within.mpr ((never s.builder).imp fun _ _ _ => trivial)

theorem unrefused_onGraph {α : Type} {change : Attempt FuncletCalls α}
    (never : ∀ g, Ends change g (fun _ _ => True) fun e _ => ¬ e.IsRefusal) : Unrefused (onGraph change) := by
  intro s
  refine ends_of_forall (fun _ _ _ => trivial) fun e t error => ?_
  unfold onGraph at error
  split at error
  · cases error
    simp
  · rename_i region outer _
    have ends := never region.graph
    simp only [within] at error
    cases outcome : change region.graph <;> rw [outcome] at error <;> cases error
    exact ends.of_error outcome

theorem unrefused_inRange {α : Type} (found : Option α) : Unrefused (inRange found : Step α) := by
  intro s
  simp

/-- With its parameters settled a funclet that is not the first one starts. -/
theorem beginFunclet_unrefused (later : index ≠ 0) (params : List ValueType) :
    Unrefused (beginFunclet index params) := by
  have innermost : Unrefused innermost := fun s => by
    rw [Validation.innermost, ends_bind, ends_get]
    cases s.frame? 0 <;> simp
  have region : Unrefused openRegion := fun s => by
    rw [openRegion, ends_bind, ends_get]
    cases s.regions <;> simp
  have node (g : FuncletCalls) : Ends (FuncletCalls.nodeAt index) g (fun _ _ => True)
      fun e _ => ¬ e.IsRefusal := by simp [FuncletCalls.nodeAt]
  have ready : Unrefused (onGraph (FuncletCalls.ready index)) := unrefused_onGraph fun g => by
    rw [FuncletCalls.ready, ends_bind]
    exact (node g).imp fun _ _ _ => trivial
  have marks : Unrefused (onGraph (FuncletCalls.markComplete index)) := unrefused_onGraph fun g => by
    rw [FuncletCalls.markComplete, ends_bind]
    refine (node g).imp fun _ _ _ => ?_
    simp [FuncletCalls.modifyNode]
  have moved (block : BlockId) : Unrefused (do
      moveTo block
      let args ← onBuilder (Ssa.Builder.args block)
      onStack (TypedStack.reset (TypedStack.withValues params (args.map some)))) :=
    along_bind (fun _ => trivial) fun _ =>
      along_bind (unrefused_onBuilder (Ssa.Builder.args_neverRefuses block)) fun _ _ => trivial
  have completes : Unrefused (completeFunclet index) :=
    along_bind marks fun _ => along_bind region fun _ => along_bind (unrefused_inRange _)
      fun block => unrefused_onBuilder (Ssa.Builder.sealBlock_neverRefuses block)
  refine along_bind innermost fun _ => along_bind (fun s => by simp [later]) fun _ =>
    along_bind region fun _ => along_bind (unrefused_inRange _) fun block =>
      along_bind (unrefused_onBuilder (Ssa.Builder.declareArguments_neverRefuses _ _)) fun _ =>
        along_bind ready fun last s => ?_
  rw [ends_ite]
  exact ⟨fun _ => along_bind completes (fun _ => moved block) s, fun _ => moved block s⟩

end Validation

end WasmFunclets
