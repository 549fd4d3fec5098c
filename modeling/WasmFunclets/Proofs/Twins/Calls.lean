import WasmFunclets.Proofs.Aligned.Lockstep
import WasmFunclets.Proofs.Lasting

/-! Call graphs that record the calls to each funclet in one order, whatever the order of calls to different
ones: they serve requests alike. -/

namespace WasmFunclets

open Attempt

def CallEdge.placeless (edge : CallEdge) : CallEdge := { edge with offset := 0 }

def FuncletNode.unnumbered (node : FuncletNode) : FuncletNode := { node with incoming := #[] }

/-- A funclet with one more call to it, complete if this was the last one. -/
def FuncletNode.took (node : FuncletNode) (number : Nat) (backward : Bool) : FuncletNode :=
  let called := node.addCall number backward
  { called with sealed := called.sealed || backward && called.ready }

/-- The recorded calls to a funclet in their order, apart from where they stand. -/
def callsOf (edges : Array CallEdge) (index : Nat) : List CallEdge :=
  (edges.toList.filter fun edge => edge.target == index).map CallEdge.placeless

theorem mem_callsOf {edges : Array CallEdge} {index : Nat} {call : CallEdge} :
    call ∈ callsOf edges index ↔
      ∃ edge ∈ edges, edge.target = index ∧ edge.placeless = call := by
  simp [callsOf, and_assoc]

theorem callsOf_push (edges : Array CallEdge) (edge : CallEdge) (index : Nat) :
    callsOf (edges.push edge) index =
      callsOf edges index ++ if edge.target = index then [edge.placeless] else [] := by
  rw [callsOf, Array.toList_push, List.filter_append, List.map_append, callsOf]
  congr 1
  by_cases here : edge.target = index <;> simp [here]

theorem perm_of_callsOf {edges others : Array CallEdge}
    (same : ∀ index, callsOf others index = callsOf edges index) :
    (others.toList.map CallEdge.placeless).Perm (edges.toList.map CallEdge.placeless) := by
  have split (edges : Array CallEdge) (call : CallEdge) :
      (edges.toList.map CallEdge.placeless).count call = (callsOf edges call.target).count call := by
    have target (edge : CallEdge) : edge.placeless.target = edge.target := rfl
    rw [callsOf, List.count_eq_countP, List.count_eq_countP, List.countP_map, List.countP_map,
      List.countP_filter]
    refine List.countP_congr fun edge _ => ?_
    simp only [Function.comp, beq_iff_eq, Bool.and_eq_true]
    exact ⟨fun is => ⟨is, by rw [← is, target]⟩, And.left⟩
  refine List.perm_iff_count.mpr fun call => ?_
  rw [split, split, same]

namespace FuncletCalls

variable {g h k : FuncletCalls} {index place : Nat} {args params : List ValueType} {polymorphic : Bool}
variable {node : FuncletNode}

structure Alike (g h : FuncletCalls) : Prop where
  current : h.current = g.current
  visited : h.visited = g.visited
  nodes : h.nodes.map FuncletNode.unnumbered = g.nodes.map FuncletNode.unnumbered
  calls : ∀ index, callsOf h.edges index = callsOf g.edges index

namespace Alike

theorem refl (g : FuncletCalls) : Alike g g := ⟨rfl, rfl, rfl, fun _ => rfl⟩

theorem symm (alike : g.Alike h) : h.Alike g :=
  ⟨alike.current.symm, alike.visited.symm, alike.nodes.symm, fun index => (alike.calls index).symm⟩

theorem size (alike : g.Alike h) : h.size = g.size := by
  have sizes := congrArg Array.size alike.nodes
  rwa [Array.size_map, Array.size_map] at sizes

theorem lookup (alike : g.Alike h) (present : g.nodes[index]? = some node) :
    ∃ other, h.nodes[index]? = some other ∧ other.unnumbered = node.unnumbered := by
  have same := congrArg (·[index]?) alike.nodes
  simp only [Array.getElem?_map, present, Option.map_some, Option.map_eq_some_iff] at same
  exact same

theorem mem_edges (alike : g.Alike h) {edge : CallEdge} (member : edge ∈ g.edges) :
    ∃ other ∈ h.edges, other.placeless = edge.placeless := by
  have listed : edge.placeless ∈ callsOf h.edges edge.target :=
    alike.calls edge.target ▸ mem_callsOf.mpr ⟨edge, member, rfl, rfl⟩
  obtain ⟨other, member, -, same⟩ := mem_callsOf.mp listed
  exact ⟨other, member, same⟩

theorem modify (alike : g.Alike h) (index : Nat) {change change' : FuncletNode → FuncletNode}
    (same : ∀ node other, other.unnumbered = node.unnumbered →
      (change' other).unnumbered = (change node).unnumbered) :
    (h.nodes.modify index change').map FuncletNode.unnumbered =
      (g.nodes.modify index change).map FuncletNode.unnumbered := by
  refine Array.ext_getElem? fun i => ?_
  have here := congrArg (·[i]?) alike.nodes
  simp only [Array.getElem?_map, Array.getElem?_modify] at here ⊢
  split
  · rw [Option.map_map, Option.map_map]
    cases one : g.nodes[i]? with
    | none => simpa [one] using here
    | some node =>
        rw [one, Option.map_some, Option.map_eq_some_iff] at here
        obtain ⟨other, two, unnumbered⟩ := here
        rw [two]
        exact congrArg some (same node other unnumbered)
  · exact here

end Alike

theorem Alike.enter (alike : g.Alike h) (ok : FuncletCalls.enter index g = .ok () k) :
    ∃ l, FuncletCalls.enter index h = .ok () l ∧ k.Alike l := by
  obtain ⟨⟨next, inside⟩, rfl⟩ := enter_ok.mp ok
  refine ⟨_, enter_ok.mpr ⟨⟨next.trans alike.visited.symm, alike.size ▸ inside⟩, rfl⟩, rfl,
    congrArg (· + 1) alike.visited, ?_, alike.calls⟩
  dsimp only
  refine alike.modify index fun node other same => ?_
  simp only [FuncletNode.unnumbered, FuncletNode.mk.injEq] at same ⊢
  simp [same]

theorem Alike.markComplete (alike : g.Alike h) (ok : FuncletCalls.markComplete index g = .ok () k) :
    ∃ l, FuncletCalls.markComplete index h = .ok () l ∧ k.Alike l := by
  obtain ⟨node, present, cases_⟩ := markComplete_ok.mp ok
  obtain ⟨other, present', same⟩ := alike.lookup present
  have isSealed : other.sealed = node.sealed := (congrArg FuncletNode.sealed same :)
  have ready : other.ready = node.ready := (congrArg FuncletNode.ready same :)
  rcases cases_ with ⟨done, rfl⟩ | ⟨open_, isReady, rfl⟩
  · exact ⟨h, markComplete_ok.mpr ⟨other, present', .inl ⟨isSealed.trans done, rfl⟩⟩, alike⟩
  · refine ⟨_, markComplete_ok.mpr ⟨other, present', .inr ⟨isSealed.trans open_, ready.trans isReady,
      rfl⟩⟩, alike.current, alike.visited, ?_, alike.calls⟩
    dsimp only
    refine alike.modify index fun node other same => ?_
    simp only [FuncletNode.unnumbered, FuncletNode.mk.injEq] at same ⊢
    simp [same]

theorem Alike.finish (alike : g.Alike h) (ok : FuncletCalls.finish g = .ok () k) :
    FuncletCalls.finish h = .ok () h ∧ k = g := by
  obtain ⟨⟨all, nodes, checked⟩, rfl⟩ := finish_ok.mp ok
  refine ⟨finish_ok.mpr ⟨⟨?_, fun other member => ?_, ?_⟩, rfl⟩, rfl⟩
  · rw [alike.visited, alike.size, all]
  · obtain ⟨i, present⟩ := Array.mem_iff_getElem?.mp member
    obtain ⟨node, found, same⟩ := alike.symm.lookup present
    have complete := nodes node (Array.mem_of_getElem? found)
    simp only [FuncletNode.unnumbered, FuncletNode.mk.injEq] at same
    rwa [same.2.2.1, same.2.2.2.1, same.2.2.2.2.2.1] at complete
  · rw [Array.all_eq_true_iff_forall_mem] at checked ⊢
    intro edge member
    obtain ⟨other, listed, same⟩ := alike.symm.mem_edges member
    rw [← checked other listed]
    exact (congrArg CallEdge.checked same.symm :)

def compared (index : Nat) (edge : CallEdge) : CallEdge :=
  if edge.target = index then { edge with checked := true } else edge

theorem callsOf_compared (edges : Array CallEdge) (i : Nat) :
    callsOf (edges.map (compared index)) i = (callsOf edges i).map (compared index) := by
  have target (edge : CallEdge) : (compared index edge).target = edge.target := by
    rw [compared]
    split <;> rfl
  have placeless (edge : CallEdge) :
      (compared index edge).placeless = compared index edge.placeless := by
    rw [compared, compared]
    split
    · rw [if_pos (show edge.placeless.target = index from ‹_›)]
      rfl
    · rw [if_neg (show edge.placeless.target ≠ index from ‹_›)]
  simp only [callsOf, Array.toList_map, List.filter_map, List.map_map]
  congr 1
  · exact funext fun edge => placeless edge
  · exact List.filter_congr fun edge _ => by simp only [Function.comp, target]

/-- Calls that agree, or have been checked before, pass a check. -/
theorem checkIncoming_succeeds (index : Nat) (params : List ValueType) (numbers : List Nat)
    (g : FuncletCalls)
    (agree : ∀ n ∈ numbers, ∀ edge, g.edges[n]? = some edge →
      edge.checked = true ∨ edge.agrees params = true) :
    ∃ k, checkIncoming index params numbers g = .ok () k := by
  induction numbers generalizing g with
  | nil => exact ⟨g, rfl⟩
  | cons n rest ih =>
      have others : ∀ m ∈ rest, ∀ edge, g.edges[m]? = some edge →
          edge.checked = true ∨ edge.agrees params = true := fun m member =>
        agree m (List.mem_cons_of_mem _ member)
      simp only [checkIncoming, get_bind_ok]
      cases present : g.edges[n]? with
      | none => exact ih g others
      | some edge =>
          by_cases checked : edge.checked = true
          · simpa only [checked, if_true] using ih g others
          have agrees := (agree n List.mem_cons_self edge present).resolve_left checked
          simp only [checked, agrees, if_true, Bool.false_eq_true, if_false]
          refine ih _ fun m member call found => ?_
          rw [Array.getElem?_modify] at found
          split at found
          · obtain ⟨_, _, rfl⟩ := Option.map_eq_some_iff.mp found
            exact .inl rfl
          · exact others m member call found

/-- What a funclet that waits for parameters lets them be: its recorded calls agree with them, and all
of these are checked then. -/
theorem Accounted.awaitsParams_iff (accounted : g.Accounted) {edges : Array CallEdge} :
    g.AwaitsParams index node params edges ↔
      (g.nodes[index]? = some node ∧ node.entered = true ∧ node.params = none) ∧
        (∀ edge ∈ g.edges, edge.target = index →
          edge.checked = true ∨ edge.agrees params = true) ∧
        edges = g.edges.map (compared index) := by
  have listed (present : g.nodes[index]? = some node) (n : Nat) :
      n ∈ node.incoming.toList ↔ ∃ edge, g.edges[n]? = some edge ∧ edge.target = index := by
    rw [(accounted.nodes present).incoming, mem_callsTo]
  have marked (present : g.nodes[index]? = some node) {k : FuncletCalls}
      (ok : checkIncoming index params node.incoming.toList g = .ok () k) :
      k = { g with edges := g.edges.map (compared index) } := by
    obtain ⟨same, edges, -⟩ := (checkIncoming_ends params _ g).of_ok ok
    rw [same]
    congr 1
    refine Array.ext_getElem? fun n => ?_
    rw [edges, Array.getElem?_map]
    cases found : g.edges[n]? with
    | none => rfl
    | some edge =>
        simp only [Option.map_some, listed present, found, Option.some.injEq, exists_eq_left']
        rfl
  constructor
  · rintro ⟨present, entered, undeclared, agree⟩
    refine ⟨⟨present, entered, undeclared⟩, fun edge member target => ?_, ?_⟩
    · obtain ⟨n, found⟩ := Array.mem_iff_getElem?.mp member
      exact ((checkIncoming_ends params _ g).of_ok agree).2.2 n
        ((listed present n).mpr ⟨edge, found, target⟩) edge found
    · exact congrArg FuncletCalls.edges (marked present agree)
  · rintro ⟨⟨present, entered, undeclared⟩, agree, rfl⟩
    obtain ⟨k, ok⟩ := checkIncoming_succeeds index params node.incoming.toList g
      fun n member edge found => by
        obtain ⟨call, found', target⟩ := (listed present n).mp member
        obtain rfl := Option.some.inj (found.symm.trans found')
        exact agree edge (Array.mem_of_getElem? found) target
    exact ⟨present, entered, undeclared, by rw [ok, marked present ok]⟩

theorem Alike.awaitsParams (alike : g.Alike h) (accounted : g.Accounted) (accounted' : h.Accounted)
    {edges : Array CallEdge} (awaits : g.AwaitsParams index node params edges) :
    ∃ other, other.unnumbered = node.unnumbered ∧
      h.AwaitsParams index other params (h.edges.map (compared index)) ∧
        edges = g.edges.map (compared index) := by
  obtain ⟨⟨present, entered, undeclared⟩, agree, rfl⟩ := accounted.awaitsParams_iff.mp awaits
  obtain ⟨other, present', same⟩ := alike.lookup present
  refine ⟨other, same, accounted'.awaitsParams_iff.mpr ⟨⟨present', ?_, ?_⟩, fun edge member target => ?_, rfl⟩,
    rfl⟩
  · exact (congrArg FuncletNode.entered same).trans entered
  · exact (congrArg FuncletNode.params same).trans undeclared
  · obtain ⟨call, listed, equal⟩ := alike.symm.mem_edges member
    have agrees := agree call listed ((congrArg CallEdge.target equal).trans target)
    rwa [show call.checked = edge.checked from (congrArg CallEdge.checked equal :),
      show call.agrees params = edge.agrees params from (congrArg (CallEdge.agrees · params) equal :)] at agrees

theorem Alike.settled (alike : g.Alike h) {change change' : FuncletNode → FuncletNode}
    (same : ∀ node other, other.unnumbered = node.unnumbered →
      (change' other).unnumbered = (change node).unnumbered) :
    (g.settled index change (g.edges.map (compared index))).Alike
      (h.settled index change' (h.edges.map (compared index))) where
  current := alike.current
  visited := alike.visited
  nodes := alike.modify index same
  calls i := by
    rw [FuncletCalls.settled, FuncletCalls.settled, callsOf_compared, callsOf_compared, alike.calls]

theorem Alike.declare (alike : g.Alike h) (accounted : g.Accounted) (accounted' : h.Accounted)
    {declared : Nat} {explicit : Bool}
    (ok : FuncletCalls.declare index params declared explicit g = .ok () k) :
    ∃ l, FuncletCalls.declare index params declared explicit h = .ok () l ∧ k.Alike l := by
  obtain ⟨node, edges, awaits, rfl⟩ := declare_ok.mp ok
  obtain ⟨other, -, awaits', rfl⟩ := alike.awaitsParams accounted accounted' awaits
  refine ⟨_, declare_ok.mpr ⟨other, _, awaits', rfl⟩, alike.settled fun node other same => ?_⟩
  simp only [FuncletNode.unnumbered, FuncletNode.mk.injEq] at same ⊢
  simp [same]

theorem Alike.first (alike : g.Alike h) (accounted : g.Accounted) (accounted' : h.Accounted)
    {other : FuncletNode} {edge : CallEdge} (present : g.nodes[index]? = some node)
    (present' : h.nodes[index]? = some other)
    (found : (g.edgesTo node).find? (fun edge => !edge.polymorphic) = some edge) :
    ∃ call, (h.edgesTo other).find? (fun edge => !edge.polymorphic) = some call ∧
      call.args = edge.args := by
  have view (edges : List CallEdge) : (edges.find? fun edge => !edge.polymorphic).map
      CallEdge.placeless = (edges.map CallEdge.placeless).find? fun edge => !edge.polymorphic := by
    rw [List.find?_map]
    rfl
  have one := view (g.edgesTo node)
  have two := view (h.edgesTo other)
  rw [accounted.edgesTo_eq present] at found one
  rw [accounted'.edgesTo_eq present'] at two ⊢
  have same : callsOf h.edges index = callsOf g.edges index := alike.calls index
  rw [callsOf, callsOf] at same
  rw [same, ← one, found, Option.map_some, Option.map_eq_some_iff] at two
  obtain ⟨call, found', equal⟩ := two
  exact ⟨call, found', (congrArg CallEdge.args equal :)⟩

theorem Alike.infer (alike : g.Alike h) (accounted : g.Accounted) (accounted' : h.Accounted)
    (ok : FuncletCalls.infer index g = .ok params k) :
    ∃ l, FuncletCalls.infer index h = .ok params l ∧ k.Alike l := by
  obtain ⟨node, edges, edge, awaits, found, rfl, rfl⟩ := infer_ok.mp ok
  obtain ⟨other, -, awaits', rfl⟩ := alike.awaitsParams accounted accounted' awaits
  obtain ⟨call, found', args⟩ := alike.first accounted accounted' awaits.present awaits'.present found
  refine ⟨_, infer_ok.mpr ⟨other, _, call, awaits', found', args, rfl⟩,
    alike.settled fun node other same => ?_⟩
  simp only [FuncletNode.unnumbered, FuncletNode.mk.injEq] at same ⊢
  simp [same]

theorem unnumbered_took {other : FuncletNode} (number number' : Nat) (backward : Bool)
    (same : other.unnumbered = node.unnumbered) :
    (other.took number' backward).unnumbered = (node.took number backward).unnumbered := by
  obtain ⟨_, _, _, _, _, _, _⟩ := node
  obtain ⟨_, _, _, _, _, _, _⟩ := other
  simp only [FuncletNode.unnumbered, FuncletNode.mk.injEq] at same
  obtain ⟨rfl, rfl, rfl, rfl, rfl, rfl, -⟩ := same
  rfl

def took (g : FuncletCalls) (index : Nat) (args : List ValueType) (polymorphic : Bool)
    (offset : Nat) : FuncletCalls :=
  { g with
    nodes := g.nodes.modify index (·.took g.edges.size (decide (index ≤ g.current)))
    edges := g.edges.push (g.callEdge index args polymorphic offset) }

def Receives (g : FuncletCalls) (index : Nat) (args : List ValueType) (polymorphic : Bool) : Prop :=
  ∃ node, g.nodes[index]? = some node ∧ Recordable node (g.callEdge index args polymorphic 0)

theorem recordable_offset {offset : Nat} :
    Recordable node (g.callEdge index args polymorphic offset) ↔
      Recordable node (g.callEdge index args polymorphic 0) := Iff.rfl

theorem receives_of_call {offset : Nat} {last : Bool}
    (ok : call index args polymorphic offset g = .ok last k) : g.Receives index args polymorphic := by
  obtain ⟨node, present, takes, -⟩ := call_ok.mp ok
  exact ⟨node, present, recordable_offset.mp takes⟩

/-- A call that can be recorded is, and its target is complete then if it is the last one. -/
theorem Receives.call (receives : g.Receives index args polymorphic) (offset : Nat) :
    ∃ last k, FuncletCalls.call index args polymorphic offset g = .ok last k ∧
      if last = true then
        FuncletCalls.markComplete index k = .ok () (g.took index args polymorphic offset)
      else k = g.took index args polymorphic offset := by
  obtain ⟨node, present, takes⟩ := receives
  refine ⟨_, _, call_ok.mpr ⟨node, present, recordable_offset.mpr takes, rfl, rfl⟩, ?_⟩
  have place := getElem?_modifyNode (·.addCall g.edges.size (decide (index ≤ g.current))) present
  have here := (place index).trans (if_pos rfl)
  have takes (i : Nat) : (g.nodes.modify index
      (·.took g.edges.size (decide (index ≤ g.current))))[i]? = if i = index
        then some (node.took g.edges.size (decide (index ≤ g.current))) else g.nodes[i]? :=
    getElem?_modifyNode _ present i
  split
  · rename_i last
    have ready := (Bool.and_eq_true_iff.mp last).2
    have open_ : (node.addCall g.edges.size (decide (index ≤ g.current))).sealed = false := by
      simp only [FuncletNode.ready, Bool.and_eq_true, Bool.not_eq_true'] at ready
      exact ready.1.1.2
    refine markComplete_ok.mpr ⟨_, here, .inr ⟨open_, ready, ?_⟩⟩
    refine congrArg (FuncletCalls.mk · _ _ _) (Array.ext_getElem? fun i => ?_)
    rw [takes, getElem?_modifyNode _ here, place]
    split
    · rw [FuncletNode.took, last, Bool.or_true]
    · rfl
  · rename_i last
    refine congrArg (FuncletCalls.mk · _ _ _) (Array.ext_getElem? fun i => ?_)
    rw [takes, place]
    simp only [FuncletNode.took, Bool.eq_false_iff.mpr last, Bool.or_false]

theorem Receives.accounted (receives : g.Receives index args polymorphic) (offset : Nat)
    (accounted : g.Accounted) : (g.took index args polymorphic offset).Accounted := by
  obtain ⟨last, k, called, done⟩ := receives.call offset
  have recorded := ((call_accounts _ _ _ _ g accounted).of_ok called).1
  split at done
  · exact ((markComplete_accounts _ k recorded).of_ok done).1
  · exact done ▸ recorded

theorem Alike.receives (alike : g.Alike h) (receives : g.Receives index args polymorphic) :
    h.Receives index args polymorphic := by
  obtain ⟨node, present, takes⟩ := receives
  obtain ⟨other, present', same⟩ := alike.lookup present
  refine ⟨other, present', ?_⟩
  simp only [FuncletNode.unnumbered, FuncletNode.mk.injEq] at same
  obtain ⟨params, -, declared, observed, entered, isSealed, -⟩ := same
  unfold Recordable at takes ⊢
  rwa [callEdge, alike.current, ← callEdge, params, declared, observed, entered, isSealed]

theorem receives_took {i offset : Nat} (other : i ≠ index) :
    (g.took index args polymorphic offset).Receives i params polymorphic ↔
      g.Receives i params polymorphic := by
  rw [Receives, Receives, took]
  dsimp only
  rw [Array.getElem?_modify, if_neg other.symm]
  rfl

def tookAll (g : FuncletCalls) (targets : List Nat) (args : List ValueType) (polymorphic : Bool)
    (offset : Nat) : FuncletCalls :=
  targets.foldl (fun g index => g.took index args polymorphic offset) g

variable {targets others : List Nat} {offset : Nat}

theorem Accounted.tookAll (accounted : g.Accounted) (different : targets.Nodup)
    (receives : ∀ i ∈ targets, g.Receives i args polymorphic) :
    (g.tookAll targets args polymorphic offset).Accounted := by
  induction targets generalizing g with
  | nil => exact accounted
  | cons index rest ih =>
      obtain ⟨fresh, different⟩ := List.nodup_cons.mp different
      refine ih ((receives index List.mem_cons_self).accounted offset accounted) different fun i member => ?_
      have other : i ≠ index := fun same => fresh (same ▸ member)
      exact (receives_took other).mpr (receives i (List.mem_cons_of_mem _ member))

theorem tookAll_fields (g : FuncletCalls) :
    (g.tookAll targets args polymorphic offset).current = g.current ∧
      (g.tookAll targets args polymorphic offset).visited = g.visited := by
  induction targets generalizing g with
  | nil => exact ⟨rfl, rfl⟩
  | cons index rest ih => exact ih _

theorem edges_tookAll (g : FuncletCalls) :
    (g.tookAll targets args polymorphic offset).edges.toList =
      g.edges.toList ++ targets.map fun index => g.callEdge index args polymorphic offset := by
  induction targets generalizing g with
  | nil => exact (List.append_nil _).symm
  | cons index rest ih =>
      rw [tookAll, List.foldl_cons, ← tookAll, ih, took, Array.toList_push, List.append_assoc]
      rfl

theorem nodes_tookAll (g : FuncletCalls) (different : targets.Nodup) (i : Nat) :
    ((g.tookAll targets args polymorphic offset).nodes[i]?).map FuncletNode.unnumbered =
      (g.nodes[i]?).map fun node => if i ∈ targets
        then (node.took 0 (decide (i ≤ g.current))).unnumbered else node.unnumbered := by
  induction targets generalizing g with
  | nil => simp [tookAll]
  | cons index rest ih =>
      obtain ⟨fresh, different⟩ := List.nodup_cons.mp different
      have current : (g.took index args polymorphic offset).current = g.current := rfl
      rw [tookAll, List.foldl_cons, ← tookAll, ih _ different, current, took, Array.getElem?_modify]
      by_cases here : index = i
      · subst i
        rw [if_pos rfl, Option.map_map]
        refine congrArg (Option.map · _) (funext fun node => ?_)
        simp only [Function.comp, if_neg fresh, List.mem_cons, true_or, if_true]
        exact unnumbered_took _ _ _ rfl
      · rw [if_neg here]
        refine congrArg (Option.map · _) (funext fun node => ?_)
        by_cases later : i ∈ rest <;> simp [later, Ne.symm here]

theorem callsOf_tookAll (g : FuncletCalls) (different : targets.Nodup) (i : Nat) :
    callsOf (g.tookAll targets args polymorphic offset).edges i =
      callsOf g.edges i ++ if i ∈ targets then [g.callEdge i args polymorphic 0] else [] := by
  induction targets generalizing g with
  | nil => exact (List.append_nil _).symm
  | cons index rest ih =>
      obtain ⟨fresh, different⟩ := List.nodup_cons.mp different
      rw [tookAll, List.foldl_cons, ← tookAll, ih _ different, took, callsOf_push, List.append_assoc]
      congr 1
      by_cases here : index = i
      · subst i
        have target : (g.callEdge index args polymorphic offset).target = index := rfl
        rw [if_neg fresh, List.append_nil, if_pos target, if_pos List.mem_cons_self]
        rfl
      · have target : (g.callEdge index args polymorphic offset).target ≠ i := here
        rw [if_neg target, List.nil_append]
        by_cases later : i ∈ rest <;> simp [later, Ne.symm here]
        rfl

/-- Calls to the same funclets leave graphs alike, in whatever order they come. -/
theorem Alike.tookAll {offset' : Nat} (alike : g.Alike h) (different : targets.Nodup)
    (different' : others.Nodup) (same : ∀ i, i ∈ others ↔ i ∈ targets) :
    (g.tookAll targets args polymorphic offset).Alike
      (h.tookAll others args polymorphic offset') where
  current := by rw [(tookAll_fields h).1, (tookAll_fields g).1, alike.current]
  visited := by rw [(tookAll_fields h).2, (tookAll_fields g).2, alike.visited]
  nodes := by
    refine Array.ext_getElem? fun i => ?_
    rw [Array.getElem?_map, Array.getElem?_map, nodes_tookAll h different', nodes_tookAll g different,
      alike.current]
    cases present : g.nodes[i]? with
    | none =>
        have outside : h.nodes[i]? = none := by
          rw [Array.getElem?_eq_none_iff] at present ⊢
          exact alike.size.le.trans present
        rw [outside]
        rfl
    | some node =>
        obtain ⟨other, present', unnumbered⟩ := alike.lookup present
        rw [present', Option.map_some, Option.map_some, unnumbered, unnumbered_took 0 0 _ unnumbered]
        simp only [same]
  calls i := by
    rw [callsOf_tookAll h different', callsOf_tookAll g different, alike.calls]
    simp only [same, callEdge, alike.current]

end FuncletCalls

end WasmFunclets
