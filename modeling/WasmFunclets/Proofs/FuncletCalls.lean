import WasmFunclets.FuncletCalls
import WasmFunclets.Proofs.Attempt

/-! The calls between funclets of an open region: what holds of every graph that a region can have,
and what each operation does to it. -/

namespace WasmFunclets

namespace FuncletCalls

open Attempt

/-- Which funclets are entered, which calls are recorded with their targets, and that the calls to a
funclet with known parameters agree with these. -/
structure Coherent (g : FuncletCalls) : Prop where
  current_eq : g.current = g.visited - 1
  visited_le : g.visited ≤ g.size
  entered_iff : ∀ {i : Nat} {node : FuncletNode}, g.nodes[i]? = some node → (node.entered = true ↔ i < g.visited)
  entered_of_params : ∀ {i : Nat} {node : FuncletNode}, g.nodes[i]? = some node → node.params.isSome →
    node.entered = true
  complete_of_sealed : ∀ {i : Nat} {node : FuncletNode}, g.nodes[i]? = some node → node.sealed = true →
    node.params.isSome ∧ node.observed = node.declared
  target_of_incoming : ∀ {i n : Nat} {node : FuncletNode}, g.nodes[i]? = some node → n ∈ node.incoming →
    ∃ edge, g.edges[n]? = some edge ∧ edge.target = i
  incoming_of_edge : ∀ {n : Nat} {edge : CallEdge}, g.edges[n]? = some edge →
    ∃ node, g.nodes[edge.target]? = some node ∧ n ∈ node.incoming
  checked_of_params : ∀ {n : Nat} {edge : CallEdge} {node : FuncletNode}, g.edges[n]? = some edge →
    g.nodes[edge.target]? = some node → node.params.isSome → edge.checked = true
  agrees_of_checked : ∀ {n : Nat} {edge : CallEdge}, g.edges[n]? = some edge → edge.checked = true →
    ∃ node params, g.nodes[edge.target]? = some node ∧ node.params = some params ∧
      edge.agrees params = true

/-- What stays of a graph: parameters once they are known, and the calls. -/
structure KeepsCalls (g h : FuncletCalls) : Prop where
  size_eq : h.size = g.size
  params : ∀ {i : Nat} {node : FuncletNode} {params : List ValueType}, g.nodes[i]? = some node →
    node.params = some params →
    ∃ later, h.nodes[i]? = some later ∧ later.params = some params
  edges : ∀ {n : Nat} {edge : CallEdge}, g.edges[n]? = some edge →
    ∃ later, h.edges[n]? = some later ∧ later = { edge with checked := later.checked }

namespace KeepsCalls

variable {f g h : FuncletCalls}

theorem refl (g : FuncletCalls) : KeepsCalls g g where
  size_eq := rfl
  params present known := ⟨_, present, known⟩
  edges present := ⟨_, present, rfl⟩

theorem trans (first : KeepsCalls f g) (second : KeepsCalls g h) : KeepsCalls f h where
  size_eq := second.size_eq.trans first.size_eq
  params present known := by
    obtain ⟨_, present, known⟩ := first.params present known
    exact second.params present known
  edges present := by
    obtain ⟨middle, present, same⟩ := first.edges present
    obtain ⟨later, present, next⟩ := second.edges present
    exact ⟨later, present, by rw [next, same]⟩

end KeepsCalls

theorem coherent_of_size {funclets : Nat} {g : FuncletCalls} (open_ : ofSize? funclets = some g) :
    g.Coherent ∧ g.size = funclets ∧ 0 < funclets ∧ g.visited = 0 ∧ g.edges = #[] ∧
      ∀ i < funclets, g.nodes[i]? = some .fresh := by
  unfold ofSize? at open_
  split at open_
  · cases open_
  · cases open_
    refine ⟨⟨rfl, by simp, ?_, ?_, ?_, ?_, by simp, by simp, by simp⟩,
      by simp [size], by omega, rfl, rfl, ?_⟩ <;>
      simp +contextual [Array.getElem?_replicate, FuncletNode.fresh]

section Operations

variable {g : FuncletCalls} {index : Nat}

theorem enter_ends (coherent : g.Coherent) (next : index = g.visited) (inside : index < g.size) :
    Ends (enter index) g
      (fun _ h => h.Coherent ∧ KeepsCalls g h ∧ h.visited = index + 1 ∧ h.current = index ∧
        h.edges = g.edges ∧
        h.nodes = g.nodes.modify index fun node => { node with entered := true })
      (fun _ _ => False) := by
  simp only [enter, modifyNode, ends_bind, ends_get, ends_maintain, ends_modify]
  refine ⟨fun _ => ?_, fun out => out ⟨next, inside⟩⟩
  subst next
  have within : g.visited + 1 ≤ g.nodes.size := inside
  refine ⟨⟨rfl, by simpa [size] using within, ?_, ?_, ?_, ?_, ?_, ?_, ?_⟩,
    ⟨by simp [size], ?_, ?_⟩, rfl, trivial, trivial, trivial⟩
  all_goals simp only [Array.getElem?_modify]
  · intro i node present
    have rule := @coherent.entered_iff
    grind
  · intro i node present known
    have rule := @coherent.entered_of_params
    grind
  · intro i node present complete
    have rule := @coherent.complete_of_sealed
    grind
  · intro i n node present member
    have rule := @coherent.target_of_incoming
    grind
  · intro n edge present
    have := coherent.incoming_of_edge present
    grind
  · intro n edge node present target known
    have rule := @coherent.checked_of_params
    grind
  · intro n edge present checked
    have := coherent.agrees_of_checked present checked
    grind
  · grind
  · grind

/-- The checked calls of a list are marked, and no others. -/
theorem checkIncoming_ends (params : List ValueType) (numbers : List Nat) (g : FuncletCalls) :
    Ends (checkIncoming index params numbers) g
      (fun _ h => h = { g with edges := h.edges } ∧
        (∀ n, h.edges[n]? = g.edges[n]?.map fun edge =>
          if n ∈ numbers then { edge with checked := true } else edge) ∧
        ∀ n ∈ numbers, ∀ edge, g.edges[n]? = some edge → edge.checked = true ∨
          edge.agrees params = true)
      (fun e _ => e.IsRefusal) := by
  induction numbers generalizing g with
  | nil => simp [checkIncoming]
  | cons n rest ih =>
      simp only [checkIncoming, ends_bind, ends_get]
      cases present : g.edges[n]? with
      | none =>
          refine (ih g).imp ?_
          rintro _ h ⟨same, edges, agree⟩
          refine ⟨same, fun m => ?_, ?_⟩
          · rw [edges]
            grind [-getElem?_pos]
          · grind [-getElem?_pos]
      | some edge =>
          dsimp only
          by_cases checked : edge.checked = true
          · simp only [checked, if_true]
            refine (ih g).imp ?_
            rintro _ h ⟨same, edges, agree⟩
            refine ⟨same, fun m => ?_, ?_⟩
            · rw [edges]
              grind [-getElem?_pos, cases CallEdge]
            · grind [-getElem?_pos]
          · simp only [checked, Bool.false_eq_true, if_false]
            by_cases agrees : edge.agrees params = true
            · simp only [agrees, if_true]
              refine (ih _).imp ?_
              rintro _ h ⟨same, edges, agree⟩
              refine ⟨?_, fun m => ?_, ?_⟩
              · rw [same]
              · rw [edges, Array.getElem?_modify]
                grind [-getElem?_pos]
              · simp only [Array.getElem?_modify] at agree
                grind [-getElem?_pos]
            · simp only [agrees, Bool.false_eq_true, if_false]
              exact Fault.isRefusal_invalid _

/-- A graph whose entered funclet gets parameters that all calls to it agree with. -/
theorem Coherent.settle (coherent : g.Coherent) {node : FuncletNode} {h : FuncletCalls}
    (params : List ValueType) (change : FuncletNode → FuncletNode)
    (present : g.nodes[index]? = some node) (entered : node.entered = true)
    (open_ : node.params = none)
    (changed : ∀ node : FuncletNode, (change node).params = some params ∧
      (change node).entered = node.entered ∧ (change node).sealed = node.sealed ∧
      (change node).incoming = node.incoming)
    (same : h = { g with nodes := g.nodes.modify index change, edges := h.edges })
    (edges : ∀ n, h.edges[n]? = g.edges[n]?.map fun edge =>
      if n ∈ node.incoming then { edge with checked := true } else edge)
    (agree : ∀ n ∈ node.incoming, ∀ edge, g.edges[n]? = some edge → edge.checked = true ∨
      edge.agrees params = true) :
    h.Coherent ∧ KeepsCalls g h := by
  have nodes : h.nodes = g.nodes.modify index change := by rw [same]
  have visited : h.visited = g.visited := by rw [same]
  have current : h.current = g.current := by rw [same]
  have size_same : h.size = g.size := by simp [size, nodes]
  have fresh : node.sealed ≠ true := fun complete => by
    have := (coherent.complete_of_sealed present complete).1
    simp [open_] at this
  refine ⟨⟨?_, ?_, ?_, ?_, ?_, ?_, ?_, ?_, ?_⟩, ⟨size_same, ?_, ?_⟩⟩
  · rw [current, visited, coherent.current_eq]
  · rw [visited, size_same]
    exact coherent.visited_le
  all_goals simp only [nodes, edges, visited, Array.getElem?_modify]
  · intro i node' present'
    have rule := @coherent.entered_iff
    grind [-getElem?_pos]
  · intro i node' present' known
    have rule := @coherent.entered_of_params
    grind [-getElem?_pos]
  · intro i node' present' complete
    have rule := @coherent.complete_of_sealed
    grind [-getElem?_pos]
  · intro i n node' present' member
    have rule := @coherent.target_of_incoming
    grind [-getElem?_pos]
  · intro n edge present'
    have rule := @coherent.incoming_of_edge
    grind [-getElem?_pos, Option.map_eq_some_iff]
  · intro n edge node' present' target known
    have rule := @coherent.checked_of_params
    have member := @coherent.incoming_of_edge
    grind [-getElem?_pos, Option.map_eq_some_iff]
  · intro n edge present' checked
    have rule := @coherent.agrees_of_checked
    have targets := @coherent.target_of_incoming
    grind [-getElem?_pos, Option.map_eq_some_iff, CallEdge.agrees]
  · grind [-getElem?_pos]
  · grind [-getElem?_pos]

theorem declare_ends (coherent : g.Coherent) {node : FuncletNode} {params : List ValueType}
    {declared : Nat} {explicit : Bool} (present : g.nodes[index]? = some node)
    (entered : node.entered = true) (open_ : node.params = none) :
    Ends (declare index params declared explicit) g
      (fun _ h => h.Coherent ∧ KeepsCalls g h ∧ h = { g with nodes := h.nodes, edges := h.edges } ∧
        ∀ i, h.nodes[i]? = g.nodes[i]?.map fun node => if i = index then
          { node with params := some params, declared, explicit } else node)
      (fun e _ => e.IsRefusal) := by
  simp only [declare, nodeAt, modifyNode, ends_bind, ends_get, ends_inRange, ends_maintain,
    ends_modify, present, Option.some.injEq, forall_eq', reduceCtorEq, false_implies, and_true]
  refine ⟨fun _ => ?_, fun out => absurd ⟨entered, by simp [open_]⟩ out⟩
  refine (checkIncoming_ends params node.incoming.toList _).imp ?_
  rintro _ h ⟨same, edges, agree⟩
  have settled := coherent.settle (h := h) params
    (fun node => { node with params := some params, declared, explicit }) present entered open_
    (fun _ => ⟨rfl, rfl, rfl, rfl⟩) (by rw [same]) (by simpa using edges) (by simpa using agree)
  refine ⟨settled.1, settled.2, by rw [same], fun i => ?_⟩
  rw [same]
  grind

/-- The parameters come from the first call that is not polymorphic. -/
theorem infer_ends (coherent : g.Coherent) {node : FuncletNode}
    (present : g.nodes[index]? = some node) (entered : node.entered = true)
    (open_ : node.params = none) :
    Ends (infer index) g
      (fun params h => h.Coherent ∧ KeepsCalls g h ∧ h = { g with nodes := h.nodes, edges := h.edges } ∧
        (∀ i, h.nodes[i]? = g.nodes[i]?.map fun node => if i = index then
          { node with params := some params } else node) ∧
        ∃ edge ∈ g.edgesTo node, edge.polymorphic = false ∧ edge.args = params)
      (fun e _ => e.IsRefusal) := by
  simp only [infer, nodeAt, ends_bind, ends_get, ends_inRange, ends_maintain, present,
    Option.some.injEq, forall_eq', reduceCtorEq, false_implies, and_true]
  refine ⟨fun _ => ?_, fun out => absurd ⟨entered, by simp [open_]⟩ out⟩
  cases first : (g.edgesTo node).find? fun edge => !edge.polymorphic with
  | none => exact Fault.isRefusal_invalid _
  | some edge =>
      have found : edge ∈ g.edgesTo node ∧ edge.polymorphic = false :=
        ⟨List.mem_of_find?_eq_some first, by simpa using List.find?_some first⟩
      simp only [modifyNode, ends_bind, ends_modify, ends_pure]
      refine (checkIncoming_ends edge.args node.incoming.toList _).imp ?_
      rintro _ h ⟨same, edges, agree⟩
      have settled := coherent.settle (h := h) edge.args
        (fun node => { node with params := some edge.args }) present entered open_
        (fun _ => ⟨rfl, rfl, rfl, rfl⟩) (by rw [same]) (by simpa using edges)
        (by simpa using agree)
      refine ⟨settled.1, settled.2, by rw [same], fun i => ?_, edge, found.1, found.2, rfl⟩
      rw [same]
      grind

def callEdge (g : FuncletCalls) (index : Nat) (args : List ValueType) (polymorphic : Bool)
    (offset : Nat) : CallEdge :=
  ⟨g.current, index, args, decide (index ≤ g.current), polymorphic, offset,
    decide (index ≤ g.current)⟩

/-- Between instructions every entered funclet has its parameters, and is complete as soon as it has
as many predecessors as it declares. -/
structure Settled (g : FuncletCalls) : Prop extends Coherent g where
  visited_pos : 0 < g.visited
  params_of_entered : ∀ {i : Nat} {node : FuncletNode}, g.nodes[i]? = some node →
    node.entered = true → node.params.isSome
  not_ready : ∀ {i : Nat} {node : FuncletNode}, g.nodes[i]? = some node → node.ready = false

theorem Coherent.push (coherent : g.Coherent) {node : FuncletNode} (args : List ValueType)
    (polymorphic : Bool) (offset : Nat) (present : g.nodes[index]? = some node)
    (started : 0 < g.visited) (open_ : node.sealed = true → g.current < index)
    (agrees : index ≤ g.current → ∃ params, node.params = some params ∧
      (g.callEdge index args polymorphic offset).agrees params = true) :
    let h := { g with
      nodes := g.nodes.modify index (·.addCall g.edges.size (decide (index ≤ g.current)))
      edges := g.edges.push (g.callEdge index args polymorphic offset) }
    h.Coherent ∧ KeepsCalls g h := by
  have current := coherent.current_eq
  have target : (g.callEdge index args polymorphic offset).target = index := rfl
  have marked : (g.callEdge index args polymorphic offset).checked = decide (index ≤ g.current) :=
    rfl
  have entered : node.entered = true ↔ index ≤ g.current := by
    rw [coherent.entered_iff present]
    omega
  have known := @coherent.entered_of_params
  refine ⟨⟨current, ?_, ?_, ?_, ?_, ?_, ?_, ?_, ?_⟩, ⟨by simp [size], ?_, ?_⟩⟩
  · simpa [size] using coherent.visited_le
  all_goals simp only [Array.getElem?_modify, Array.getElem?_push]
  · intro i node' present'
    have rule := @coherent.entered_iff
    grind [-getElem?_pos, FuncletNode.addCall]
  · intro i node' present' known
    grind [-getElem?_pos, FuncletNode.addCall]
  · intro i node' present' complete
    have rule := @coherent.complete_of_sealed
    grind [-getElem?_pos, FuncletNode.addCall]
  · intro i n node' present' member
    have rule := @coherent.target_of_incoming
    grind [-getElem?_pos, FuncletNode.addCall]
  · intro n edge present'
    have rule := @coherent.incoming_of_edge
    grind [-getElem?_pos, FuncletNode.addCall]
  · intro n edge node' present' target known
    have rule := @coherent.checked_of_params
    grind [-getElem?_pos, FuncletNode.addCall]
  · intro n edge present' checked
    have rule := @coherent.agrees_of_checked
    grind [-getElem?_pos, FuncletNode.addCall]
  · grind [-getElem?_pos, FuncletNode.addCall]
  · grind [-getElem?_pos]

/-- A recorded call agrees with the parameters of an entered target. -/
theorem call_ends (settled : g.Settled) {args : List ValueType} {polymorphic : Bool} {offset : Nat}
    (inside : index < g.size) :
    Ends (call index args polymorphic offset) g
      (fun last h => h.Coherent ∧ KeepsCalls g h ∧
        h = { g with nodes := h.nodes, edges := g.edges.push (g.callEdge index args polymorphic offset) } ∧
        (∀ i, h.nodes[i]? = g.nodes[i]?.map fun node => if i = index then
          node.addCall g.edges.size (decide (index ≤ g.current)) else node) ∧
        (∀ node, g.nodes[index]? = some node → node.sealed = false) ∧
        (index ≤ g.current → ∃ node params, g.nodes[index]? = some node ∧
          node.params = some params ∧
          (g.callEdge index args polymorphic offset).agrees params = true) ∧
        ∀ node, h.nodes[index]? = some node → (last = true ↔ index ≤ g.current ∧ node.ready = true))
      (fun e _ => e.IsRefusal) := by
  obtain ⟨node, present⟩ : ∃ node, g.nodes[index]? = some node :=
    ⟨_, Array.getElem?_eq_getElem (by simpa [size] using inside)⟩
  have current := settled.current_eq
  have started := settled.visited_pos
  have entered := settled.entered_iff present
  have complete := settled.complete_of_sealed present
  simp only [call, ends_bind, ends_get, present]
  have check : Ends (checkCall index node (g.callEdge index args polymorphic offset)) g
      (fun _ h => h = g ∧ node.sealed = false ∧
        (index ≤ g.current → ∃ params, node.params = some params ∧
          (g.callEdge index args polymorphic offset).agrees params = true))
      (fun e _ => e.IsRefusal) := by
    have backward : (g.callEdge index args polymorphic offset).backward =
        decide (index ≤ g.current) := rfl
    by_cases below : index ≤ g.current
    · simp only [checkCall, backward, below, decide_true, if_true]
      by_cases full : node.observed = node.declared
      · simp [full]
      · have unsealed : node.sealed = false := by
          cases sealed : node.sealed with
          | false => rfl
          | true => exact absurd (complete sealed).2 full
        obtain ⟨params, known⟩ := Option.isSome_iff_exists.mp
          (settled.params_of_entered present (entered.mpr (by omega)))
        simp only [full, ne_eq, not_false_eq_true, if_true, unsealed, known, forall_const]
        cases agrees : (g.callEdge index args polymorphic offset).agrees params <;>
          simp [agrees, maintain, unsealed]
    · have unentered : node.entered = false := by
        cases enters : node.entered with
        | false => rfl
        | true =>
            have := entered.mp enters
            omega
      have unsealed : node.sealed = false := by
        cases sealed : node.sealed with
        | false => rfl
        | true =>
            have := settled.entered_of_params present (complete sealed).1
            simp [unentered] at this
      simp [checkCall, backward, below, unentered, unsealed]
  refine check.imp ?_
  rintro _ h ⟨same, unsealed, agrees⟩
  subst same
  simp only [modifyNode, nodeAt, ends_modify, ends_bind, ends_get, ends_inRange,
    Array.getElem?_modify, present, if_true, Option.map_some, Option.some.injEq, forall_eq',
    reduceCtorEq, false_implies, and_true]
  have pushed := settled.toCoherent.push args polymorphic offset present started (by simp [unsealed]) agrees
  refine ⟨pushed.1, pushed.2, rfl, fun i => ?_, by simpa using unsealed, ?_, ?_⟩
  · grind
  · intro below
    obtain ⟨params, known, fits⟩ := agrees below
    exact ⟨node, params, rfl, known, fits⟩
  · intro later present'
    rw [Array.getElem?_modify, if_pos rfl, present] at present'
    obtain rfl := Option.some.inj present'
    simp

theorem call_inside {args : List ValueType} {polymorphic last : Bool} {offset : Nat}
    {h : FuncletCalls} (ok : call index args polymorphic offset g = .ok last h) :
    index < g.size := by
  simp only [call, get_bind_ok] at ok
  cases present : g.nodes[index]? with
  | none => simp [present] at ok
  | some node => exact (Array.getElem?_eq_some_iff.mp present).1

theorem markComplete_ends (coherent : g.Coherent) {node : FuncletNode}
    (present : g.nodes[index]? = some node) (ready : node.ready = true) :
    Ends (markComplete index) g
      (fun _ h => h.Coherent ∧ KeepsCalls g h ∧ h = { g with nodes := h.nodes } ∧
        ∀ i, h.nodes[i]? = g.nodes[i]?.map fun node => if i = index then
          { node with sealed := true } else node)
      (fun _ _ => False) := by
  have facts : node.entered = true ∧ node.sealed = false ∧ node.params.isSome ∧
      node.observed = node.declared := by
    simpa [FuncletNode.ready, and_assoc] using ready
  simp only [markComplete, nodeAt, modifyNode, ends_bind, ends_get, ends_inRange, present,
    Option.some.injEq, forall_eq', reduceCtorEq, false_implies, and_true, facts.2.1,
    Bool.false_eq_true, if_false, ends_maintain, ready, forall_const, not_true_eq_false,
    ends_modify]
  refine ⟨⟨coherent.current_eq, by simpa [size] using coherent.visited_le, ?_, ?_, ?_, ?_, ?_, ?_,
    ?_⟩, ⟨by simp [size], ?_, by grind⟩, trivial, fun i => ?_⟩
  all_goals simp only [Array.getElem?_modify]
  · have rule := @coherent.entered_iff
    grind [-getElem?_pos]
  · have rule := @coherent.entered_of_params
    grind [-getElem?_pos]
  · have rule := @coherent.complete_of_sealed
    grind [-getElem?_pos]
  · have rule := @coherent.target_of_incoming
    grind [-getElem?_pos]
  · have rule := @coherent.incoming_of_edge
    grind [-getElem?_pos]
  · have rule := @coherent.checked_of_params
    grind [-getElem?_pos]
  · have rule := @coherent.agrees_of_checked
    grind [-getElem?_pos]
  · grind [-getElem?_pos]
  · by_cases at_ : index = i
    · subst at_
      simp
    · simp [at_, Ne.symm at_]

/-- Only one funclet may have got all its predecessors without being complete yet. -/
structure SettledBut (g : FuncletCalls) (index : Nat) : Prop extends Coherent g where
  visited_pos : 0 < g.visited
  params_of_entered : ∀ {i : Nat} {node : FuncletNode}, g.nodes[i]? = some node →
    node.entered = true → node.params.isSome
  not_ready : ∀ {i : Nat} {node : FuncletNode}, g.nodes[i]? = some node → i ≠ index →
    node.ready = false

theorem SettledBut.settled (settled : g.SettledBut index) {node : FuncletNode}
    (present : g.nodes[index]? = some node) (waits : node.ready = false) : g.Settled where
  toCoherent := settled.toCoherent
  visited_pos := settled.visited_pos
  params_of_entered := settled.params_of_entered
  not_ready {i _} present' := by
    by_cases same : i = index
    · subst same
      rw [present] at present'
      rwa [← Option.some.inj present']
    · exact settled.not_ready present' same

theorem SettledBut.markComplete_ends (settled : g.SettledBut index) {node : FuncletNode}
    (present : g.nodes[index]? = some node) (ready : node.ready = true) :
    Ends (markComplete index) g
      (fun _ h => h.Settled ∧ KeepsCalls g h ∧ h = { g with nodes := h.nodes } ∧
        ∀ i, h.nodes[i]? = g.nodes[i]?.map fun node => if i = index then
          { node with sealed := true } else node)
      (fun _ _ => False) := by
  refine (FuncletCalls.markComplete_ends settled.toCoherent present ready).imp ?_
  rintro _ h ⟨coherent, keeps, same, nodes⟩
  have visited : h.visited = g.visited := by rw [same]
  refine ⟨⟨coherent, by rw [visited]; exact settled.visited_pos, ?_, ?_⟩, keeps, same, nodes⟩
  · intro i node' present' entered
    have rule := @settled.params_of_entered
    grind
  · intro i node' present'
    have rule := @settled.not_ready
    rw [nodes] at present'
    by_cases at_ : i = index
    · subst at_
      rw [present] at present'
      simp only [Option.map_some, if_true, Option.some.injEq] at present'
      simp [← present', FuncletNode.ready]
    · grind

theorem call_settledBut (settled : g.Settled) {args : List ValueType} {polymorphic : Bool}
    {offset : Nat} (inside : index < g.size) :
    Ends (call index args polymorphic offset) g
      (fun last h => h.SettledBut index ∧ KeepsCalls g h ∧
        h = { g with
          nodes := h.nodes
          edges := g.edges.push (g.callEdge index args polymorphic offset) } ∧
        (∀ i : Nat, h.nodes[i]?.map FuncletNode.sealed = g.nodes[i]?.map FuncletNode.sealed) ∧
        (∀ node, g.nodes[index]? = some node → node.sealed = false ∧ (index ≤ g.current →
          ∃ params, node.params = some params ∧
            (g.callEdge index args polymorphic offset).agrees params = true)) ∧
        ∃ node, h.nodes[index]? = some node ∧ node.ready = last)
      (fun e _ => e.IsRefusal) := by
  refine (call_ends settled inside).imp ?_
  rintro last h ⟨coherent, keeps, same, nodes, unsealed, agrees, ready⟩
  have visited : h.visited = g.visited := by rw [same]
  obtain ⟨node, present⟩ : ∃ node, g.nodes[index]? = some node :=
    ⟨_, Array.getElem?_eq_getElem (by simpa [size] using inside)⟩
  have later : h.nodes[index]? =
      some (node.addCall g.edges.size (decide (index ≤ g.current))) := by simp [nodes, present]
  refine ⟨⟨coherent, by rw [visited]; exact settled.visited_pos, ?_, ?_⟩, keeps, same, ?_, ?_,
    _, later, ?_⟩
  · intro i node' present' entered
    have rule := @settled.params_of_entered
    grind [FuncletNode.addCall]
  · intro i node' present' other
    have rule := @settled.not_ready
    grind
  · intro i
    grind [FuncletNode.addCall]
  · intro node' present'
    refine ⟨unsealed node' present', fun below => ?_⟩
    obtain ⟨node'', params, found, known, fits⟩ := agrees below
    rw [present'] at found
    exact ⟨params, by rw [Option.some.inj found]; exact known, fits⟩
  · have last_iff := ready _ later
    by_cases below : index ≤ g.current
    · rw [Bool.eq_iff_iff, last_iff]
      exact ⟨fun ready => ⟨below, ready⟩, fun both => both.2⟩
    · have unentered : node.entered = false := by
        cases enters : node.entered with
        | false => rfl
        | true =>
            have := (settled.entered_iff present).mp enters
            have := settled.current_eq
            omega
      have : last ≠ true := fun yes => below (last_iff.mp yes).1
      simp [FuncletNode.ready, FuncletNode.addCall, unentered, this]

/-- The funclet entered last is the current one, and the only entered one without parameters. -/
theorem enter_settles (coherent : g.Coherent) (next : index = g.visited) (inside : index < g.size)
    (params : ∀ {i : Nat} {node : FuncletNode}, g.nodes[i]? = some node → node.entered = true →
      node.params.isSome)
    (waiting : ∀ {i : Nat} {node : FuncletNode}, g.nodes[i]? = some node → node.ready = false) :
    Ends (enter index) g
      (fun _ h => h.Coherent ∧ KeepsCalls g h ∧ h.visited = index + 1 ∧ h.edges = g.edges ∧
        (∀ i : Nat, h.nodes[i]?.map FuncletNode.sealed = g.nodes[i]?.map FuncletNode.sealed) ∧
        (∃ node, h.nodes[index]? = some node ∧ node.entered = true ∧ node.params = none) ∧
        ∀ (i : Nat) (node : FuncletNode), i ≠ index → h.nodes[i]? = some node →
          (node.entered = true → node.params.isSome) ∧ node.ready = false)
      (fun _ _ => False) := by
  refine (enter_ends coherent next inside).imp ?_
  rintro _ h ⟨later, keeps, visited, _, edges, nodes⟩
  obtain ⟨node, present⟩ : ∃ node, g.nodes[index]? = some node :=
    ⟨_, Array.getElem?_eq_getElem (by simpa [size] using inside)⟩
  have open_ : node.params = none := by
    cases known : node.params with
    | none => rfl
    | some types =>
        have entered := coherent.entered_of_params present (by simp [known])
        have := (coherent.entered_iff present).mp entered
        omega
  simp only [nodes, Array.getElem?_modify]
  refine ⟨later, keeps, visited, edges, ?_, ⟨{ node with entered := true }, by simp [present], rfl, open_⟩,
    ?_⟩
  · grind [-getElem?_pos]
  · grind [-getElem?_pos]

theorem settledBut_of_params {h : FuncletCalls} {change : FuncletNode → FuncletNode}
    (params : List ValueType) (coherent : h.Coherent) (visited : 0 < h.visited)
    (changed : ∀ node : FuncletNode, (change node).params = some params)
    (nodes : ∀ i, h.nodes[i]? = g.nodes[i]?.map fun node => if i = index then change node else node)
    (others : ∀ (i : Nat) (node : FuncletNode), i ≠ index → g.nodes[i]? = some node →
      (node.entered = true → node.params.isSome) ∧ node.ready = false) : h.SettledBut index where
  toCoherent := coherent
  visited_pos := visited
  params_of_entered {i node} present entered := by
    rw [nodes] at present
    have rule := others i
    by_cases same : i = index <;> grind
  not_ready {i node} present other := by
    rw [nodes] at present
    have rule := others i
    grind

theorem finishNodes_ends (nodes : List FuncletNode) (first : Nat)
    (sealed : ∀ node ∈ nodes, node.observed = node.declared → node.sealed = true) :
    Ends (finishNodes first nodes) g
      (fun _ h => h = g ∧ ∀ node ∈ nodes, node.sealed = true)
      (fun e _ => e.IsRefusal) := by
  induction nodes generalizing first with
  | nil => simp [finishNodes]
  | cons node rest ih =>
      have tail := ih (first + 1) fun node member => sealed node (List.mem_cons_of_mem _ member)
      by_cases full : node.observed = node.declared
      · have done := sealed node (by simp) full
        simpa [finishNodes, full, done] using tail
      · simp [finishNodes, full]

/-- A region ends with all funclets complete and all calls checked. -/
theorem finish_ends (settled : g.Settled) :
    Ends finish g
      (fun _ h => h = g ∧ g.visited = g.size ∧
        (∀ (i : Nat) (node : FuncletNode), g.nodes[i]? = some node → node.sealed = true) ∧
        ∀ (n : Nat) (edge : CallEdge), g.edges[n]? = some edge → edge.checked = true)
      (fun e _ => e.IsRefusal) := by
  simp only [finish, ends_bind, ends_get, ends_require]
  refine ⟨fun all => ?_, fun _ => Fault.isRefusal_invalid _⟩
  have entered : ∀ (i : Nat) (node : FuncletNode), g.nodes[i]? = some node →
      node.entered = true := by
    intro i node present
    rw [settled.entered_iff present, all]
    exact (Array.getElem?_eq_some_iff.mp present).1
  refine (finishNodes_ends g.nodes.toList 0 ?_).imp ?_
  · intro node member full
    obtain ⟨i, present⟩ := List.mem_iff_getElem?.mp member
    rw [Array.getElem?_toList] at present
    have := settled.not_ready present
    have := settled.params_of_entered present (entered i node present)
    have := entered i node present
    simp_all [FuncletNode.ready]
  · rintro _ h ⟨rfl, sealed⟩
    have checked : ∀ (n : Nat) (edge : CallEdge), h.edges[n]? = some edge →
        edge.checked = true := by
      intro n edge present
      obtain ⟨node, target, _⟩ := settled.incoming_of_edge present
      exact settled.checked_of_params present target
        (settled.params_of_entered target (entered _ node target))
    have every : h.edges.all CallEdge.checked = true := by
      rw [Array.all_eq_true_iff_forall_mem]
      intro edge member
      obtain ⟨n, present⟩ := Array.mem_iff_getElem?.mp member
      exact checked n edge present
    simp only [ends_maintain, every, forall_const, not_true_eq_false, false_implies, and_true]
    refine ⟨trivial, all, fun i node present => sealed node ?_, checked⟩
    rw [← Array.getElem?_toList] at present
    exact List.mem_of_getElem? present

end Operations

end FuncletCalls

end WasmFunclets
