import Mathlib.Data.List.Basic
import Mathlib.Data.List.Induction
import WasmFunclets.Proofs.FuncletCalls

/-! The accounts of a call graph: whatever is asked of it, in whatever order and with whatever
success, its counts, flags and lists agree with the calls it has recorded. -/

namespace WasmFunclets

open Attempt

def callsTo (edges : Array CallEdge) (index : Nat) : List Nat :=
  (List.range edges.size).filter fun n => edges[n]?.any fun edge => edge.target == index

def backwardCalls (edges : Array CallEdge) (index : Nat) : Nat :=
  edges.countP fun edge => edge.target == index && edge.backward

theorem mem_callsTo {edges : Array CallEdge} {index n : Nat} :
    n ∈ callsTo edges index ↔ ∃ edge, edges[n]? = some edge ∧ edge.target = index := by
  have range {edge : CallEdge} (present : edges[n]? = some edge) : n < edges.size :=
    (Array.getElem?_eq_some_iff.mp present).1
  simp only [callsTo, List.mem_filter, List.mem_range, Option.any_eq_true, beq_iff_eq]
  exact ⟨fun ⟨_, found⟩ => found, fun ⟨edge, present, target⟩ =>
    ⟨range present, edge, present, target⟩⟩

theorem callsTo_push (edges : Array CallEdge) (edge : CallEdge) (index : Nat) :
    callsTo (edges.push edge) index =
      callsTo edges index ++ if edge.target = index then [edges.size] else [] := by
  have before : (List.range edges.size).filter (fun n =>
      (edges.push edge)[n]?.any fun edge => edge.target == index) = callsTo edges index := by
    refine List.filter_congr fun n inside => ?_
    rw [Array.getElem?_push, if_neg (Nat.ne_of_lt (List.mem_range.mp inside))]
  rw [callsTo, Array.size_push, List.range_succ, List.filter_append, before]
  congr 1
  by_cases target : edge.target = index <;> simp [target]

theorem filterMap_callsTo (edges : Array CallEdge) (index : Nat) :
    (callsTo edges index).filterMap (fun n => edges[n]?) =
      edges.toList.filter fun edge => edge.target == index := by
  obtain ⟨edges⟩ := edges
  induction edges using List.reverseRecOn with
  | nil => rfl
  | append_singleton edges edge ih =>
      change (callsTo (edges ++ [edge]).toArray index).filterMap (fun n => (edges ++ [edge]).toArray[n]?) =
        (edges ++ [edge]).filter _
      rw [← List.push_toArray, callsTo_push, List.filterMap_append]
      have before : (callsTo edges.toArray index).filterMap (fun n => (edges.toArray.push edge)[n]?) =
          (callsTo edges.toArray index).filterMap fun n => edges.toArray[n]? := by
        refine List.filterMap_congr fun n member => ?_
        obtain ⟨_, present, _⟩ := mem_callsTo.mp member
        have inside := (Array.getElem?_eq_some_iff.mp present).1
        rw [Array.getElem?_push, if_neg (Nat.ne_of_lt inside)]
      rw [before, ih, List.filter_append]
      congr 1
      by_cases here : edge.target = index
      · simp [here]
      · simp [here]

theorem backwardCalls_push (edges : Array CallEdge) (edge : CallEdge) (index : Nat) :
    backwardCalls (edges.push edge) index =
      backwardCalls edges index + if edge.target = index ∧ edge.backward = true then 1 else 0 := by
  simp [backwardCalls, Array.countP_push]

def CallEdge.unchecked (edge : CallEdge) : CallEdge := { edge with checked := false }

theorem callsTo_unchecked (edges : Array CallEdge) (index : Nat) :
    callsTo (edges.map CallEdge.unchecked) index = callsTo edges index := by
  rw [callsTo, callsTo, Array.size_map]
  refine List.filter_congr fun n _ => ?_
  rw [Array.getElem?_map, Option.any_map]
  rfl

theorem backwardCalls_unchecked (edges : Array CallEdge) (index : Nat) :
    backwardCalls (edges.map CallEdge.unchecked) index = backwardCalls edges index := by
  rw [backwardCalls, backwardCalls, Array.countP_map]
  rfl

def SameCalls (edges later : Array CallEdge) : Prop :=
  later.map CallEdge.unchecked = edges.map CallEdge.unchecked

theorem SameCalls.callsTo {edges later : Array CallEdge} (same : SameCalls edges later)
    (index : Nat) : callsTo later index = callsTo edges index := by
  rw [← callsTo_unchecked later, same, callsTo_unchecked]

theorem SameCalls.backwardCalls {edges later : Array CallEdge} (same : SameCalls edges later)
    (index : Nat) : backwardCalls later index = backwardCalls edges index := by
  rw [← backwardCalls_unchecked later, same, backwardCalls_unchecked]

/-- What a funclet has to show for the calls that are recorded. -/
structure FuncletNode.Accounted (node : FuncletNode) (index visited : Nat)
    (edges : Array CallEdge) : Prop where
  entered_iff : node.entered = true ↔ index < visited
  incoming : node.incoming.toList = callsTo edges index
  observed : node.observed = backwardCalls edges index
  observed_le : node.observed ≤ node.declared
  entered_of_params : node.params.isSome → node.entered = true
  declared_of_none : node.params = none → node.declared = 0
  of_sealed : node.sealed = true → node.entered = true ∧ node.params.isSome ∧
    node.observed = node.declared

structure CallEdge.Accounted (edge : CallEdge) (nodes : Array FuncletNode) : Prop where
  target : ∃ node, nodes[edge.target]? = some node ∧ (edge.checked = true →
    ∃ params, node.params = some params ∧ edge.agrees params = true)
  backward_iff : edge.backward = true ↔ edge.target ≤ edge.caller
  checked : edge.backward = true → edge.checked = true

def FuncletNode.Admits (node : FuncletNode) (edge : CallEdge) : Prop :=
  if edge.backward = true then node.observed < node.declared ∧ node.sealed = false ∧
    ∃ params, node.params = some params ∧ edge.agrees params = true
  else node.entered = false

namespace FuncletCalls

structure Accounted (g : FuncletCalls) : Prop where
  visited_le : g.visited ≤ g.size
  nodes : ∀ {i : Nat} {node : FuncletNode}, g.nodes[i]? = some node →
    node.Accounted i g.visited g.edges
  edges : ∀ {n : Nat} {edge : CallEdge}, g.edges[n]? = some edge → edge.Accounted g.nodes

/-- The accounts stay in order, and what is recorded stays, whether the attempt succeeds or not. -/
def Accounts {α : Type} (m : Attempt FuncletCalls α) : Prop :=
  ∀ g : FuncletCalls, g.Accounted →
    Ends m g (fun _ h => h.Accounted ∧ KeepsCalls g h) fun _ h => h.Accounted ∧ KeepsCalls g h

variable {α β : Type} {g h : FuncletCalls} {index : Nat}

theorem accounted_of_size {funclets : Nat} (opened : ofSize? funclets = some g) : g.Accounted := by
  unfold ofSize? at opened
  split at opened
  · cases opened
  · cases opened
    refine ⟨Nat.zero_le _, fun {i node} present => ?_, by simp⟩
    obtain rfl : FuncletNode.fresh = node := by
      rw [Array.getElem?_replicate] at present
      grind
    exact ⟨by simp [FuncletNode.fresh], rfl, rfl, Nat.le_refl _, by simp [FuncletNode.fresh],
      fun _ => rfl, by simp [FuncletNode.fresh]⟩

theorem Accounted.edgesTo_eq (accounted : g.Accounted) {node : FuncletNode}
    (present : g.nodes[index]? = some node) :
    g.edgesTo node = g.edges.toList.filter fun edge => edge.target == index := by
  rw [edgesTo, (accounted.nodes present).incoming, filterMap_callsTo]

theorem accounts_same {m : Attempt FuncletCalls α}
    (same : ∀ g, Ends m g (fun _ h => h = g) fun _ h => h = g) : Accounts m := fun g accounted =>
  (same g).mono (fun _ _ eq => eq.symm ▸ ⟨accounted, .refl g⟩)
    fun _ _ eq => eq.symm ▸ ⟨accounted, .refl g⟩

theorem nodeAt_same (index : Nat) (g : FuncletCalls) :
    Ends (nodeAt index) g (fun node h => h = g ∧ g.nodes[index]? = some node) fun _ h => h = g := by
  simp only [nodeAt, ends_bind, ends_get, ends_inRange, true_and, implies_true]
  exact ⟨fun _ present => present, trivial⟩

theorem enter_accounts (index : Nat) : Accounts (enter index) := by
  intro g accounted
  simp only [enter, modifyNode, ends_bind, ends_get, ends_maintain, ends_modify]
  refine ⟨?_, fun _ => ⟨accounted, .refl g⟩⟩
  rintro ⟨rfl, inside⟩
  have room : g.visited + 1 ≤ g.nodes.size := inside
  refine ⟨⟨by simpa [size] using room, ?_, ?_⟩, by simp [size], ?_, ?_⟩
  all_goals simp only [Array.getElem?_modify]
  · intro i node present
    have rule := @accounted.nodes i
    split at present
    · obtain ⟨before, found, rfl⟩ := Option.map_eq_some_iff.mp present
      have old := rule found
      exact ⟨by simp; omega, old.incoming, old.observed, old.observed_le, fun _ => rfl,
        old.declared_of_none, fun complete => ⟨rfl, (old.of_sealed complete).2⟩⟩
    · have old := rule present
      exact ⟨by rw [old.entered_iff]; omega, old.incoming, old.observed, old.observed_le,
        old.entered_of_params, old.declared_of_none, old.of_sealed⟩
  · intro n edge present
    obtain ⟨⟨node, found, agrees⟩, backward_iff, checked⟩ := accounted.edges present
    refine ⟨?_, backward_iff, checked⟩
    rw [Array.getElem?_modify, found]
    split
    · exact ⟨_, rfl, agrees⟩
    · exact ⟨_, rfl, agrees⟩
  · intro i node params present known
    rw [present]
    split
    · exact ⟨_, rfl, known⟩
    · exact ⟨_, rfl, known⟩
  · exact fun present => ⟨_, present, rfl⟩

/-- Calls to a funclet with known parameters are checked one by one. -/
theorem checkIncoming_accounts {params : List ValueType} (numbers : List Nat) {node : FuncletNode}
    (accounted : g.Accounted) (present : g.nodes[index]? = some node)
    (known : node.params = some params) (listed : ∀ n ∈ numbers, n ∈ callsTo g.edges index) :
    Ends (checkIncoming index params numbers) g (fun _ h => h.Accounted ∧ KeepsCalls g h)
      fun _ h => h.Accounted ∧ KeepsCalls g h := by
  induction numbers generalizing g with
  | nil => exact ⟨accounted, .refl g⟩
  | cons n rest ih =>
      have others : ∀ m ∈ rest, m ∈ callsTo g.edges index := fun m member =>
        listed m (List.mem_cons_of_mem _ member)
      obtain ⟨edge, found, target⟩ := mem_callsTo.mp (listed n List.mem_cons_self)
      simp only [checkIncoming, ends_bind, ends_get, found]
      by_cases checked : edge.checked = true
      · simpa only [checked, if_true] using ih accounted present others
      by_cases agrees : edge.agrees params = true
      · simp only [checked, agrees, if_true, Bool.false_eq_true, if_false]
        have place (m : Nat) : (g.edges.modify n ({ · with checked := true }))[m]? =
            if m = n then some { edge with checked := true } else g.edges[m]? := by
          rw [Array.getElem?_modify]
          grind
        -- marking a call changes nothing that the counts are taken from
        have same : SameCalls g.edges (g.edges.modify n ({ · with checked := true })) := by
          refine Array.ext_getElem? fun m => ?_
          rw [Array.getElem?_map, Array.getElem?_map, place]
          split
          · simp_all [CallEdge.unchecked]
          · rfl
        have accounted' : FuncletCalls.Accounted
            { g with edges := g.edges.modify n ({ · with checked := true }) } := by
          refine ⟨accounted.visited_le, fun present => ?_, fun {m e} present' => ?_⟩
          · have old := accounted.nodes present
            exact ⟨old.entered_iff, by rw [same.callsTo, old.incoming],
              by rw [same.backwardCalls, old.observed], old.observed_le, old.entered_of_params,
              old.declared_of_none, old.of_sealed⟩
          · rw [place] at present'
            split at present'
            · obtain rfl := Option.some.inj present'
              exact ⟨⟨node, target ▸ present, fun _ => ⟨params, known, agrees⟩⟩,
                (accounted.edges found).backward_iff, fun _ => rfl⟩
            · exact accounted.edges present'
        have keeps : KeepsCalls g { g with edges := g.edges.modify n ({ · with checked := true }) } := by
          refine ⟨rfl, fun present known => ⟨_, present, known⟩, fun {m e} present' => ?_⟩
          rw [place]
          grind
        exact (ih accounted' present fun m member => by rw [same.callsTo]; exact others m member).mono
          (fun _ _ later => ⟨later.1, keeps.trans later.2⟩)
          fun _ _ later => ⟨later.1, keeps.trans later.2⟩
      · simp only [checked, agrees, Bool.false_eq_true, if_false]
        exact ⟨accounted, .refl g⟩

theorem getElem?_modifyNode {nodes : Array FuncletNode} {node : FuncletNode}
    (change : FuncletNode → FuncletNode) (present : nodes[index]? = some node) (i : Nat) :
    (nodes.modify index change)[i]? = if i = index then some (change node) else nodes[i]? := by
  rw [Array.getElem?_modify]
  grind

/-- A funclet that keeps the parameters it has may change as long as its own accounts are in order. -/
theorem Accounted.change (accounted : g.Accounted) {node : FuncletNode}
    (change : FuncletNode → FuncletNode) (present : g.nodes[index]? = some node)
    (account : (change node).Accounted index g.visited g.edges)
    (params : ∀ types, node.params = some types → (change node).params = some types) :
    FuncletCalls.Accounted { g with nodes := g.nodes.modify index change } ∧
      KeepsCalls g { g with nodes := g.nodes.modify index change } := by
  have place := getElem?_modifyNode change present
  refine ⟨⟨by simpa [size] using accounted.visited_le, fun {i later} found => ?_, fun {n edge} found => ?_⟩,
    by simp [size], fun {i before types} found known => ?_, fun found => ⟨_, found, rfl⟩⟩
  · rw [place] at found
    split at found
    · obtain rfl := Option.some.inj found
      subst index
      exact account
    · exact accounted.nodes found
  · obtain ⟨⟨target, there, agrees⟩, backward_iff, checked⟩ := accounted.edges found
    refine ⟨?_, backward_iff, checked⟩
    rw [place]
    split
    · rename_i here
      rw [here, present] at there
      obtain rfl := Option.some.inj there
      refine ⟨_, rfl, fun marked => ?_⟩
      obtain ⟨types, known, fits⟩ := agrees marked
      exact ⟨types, params types known, fits⟩
    · exact ⟨target, there, agrees⟩
  · rw [place]
    split
    · rename_i here
      rw [here, present] at found
      obtain rfl := Option.some.inj found
      exact ⟨_, rfl, params types known⟩
    · exact ⟨before, found, known⟩

theorem Accounted.give (accounted : g.Accounted) {node : FuncletNode} {params : List ValueType}
    (change : FuncletNode → FuncletNode) (present : g.nodes[index]? = some node)
    (entered : node.entered = true) (open_ : node.params = none)
    (known : (change node).params = some params)
    (same : (change node).entered = node.entered ∧ (change node).sealed = node.sealed ∧
      (change node).incoming = node.incoming ∧ (change node).observed = node.observed) :
    FuncletCalls.Accounted { g with nodes := g.nodes.modify index change } ∧
      KeepsCalls g { g with nodes := g.nodes.modify index change } := by
  obtain ⟨entered_, sealed_, incoming_, observed_⟩ := same
  have old := accounted.nodes present
  have none_ : node.observed = 0 := by
    have := old.observed_le
    have := old.declared_of_none open_
    omega
  refine accounted.change change present ⟨by rw [entered_]; exact old.entered_iff,
    by rw [incoming_]; exact old.incoming, by rw [observed_]; exact old.observed, by omega,
    fun _ => entered_.trans entered, fun absurd_ => by simp [known] at absurd_, fun complete => ?_⟩
    fun types before => by simp [open_] at before
  have := (old.of_sealed (sealed_ ▸ complete)).2.1
  simp [open_] at this

theorem give_accounts (accounted : g.Accounted) {node : FuncletNode} {params : List ValueType}
    (change : FuncletNode → FuncletNode) (present : g.nodes[index]? = some node)
    (entered : node.entered = true) (open_ : node.params = none)
    (known : (change node).params = some params)
    (same : (change node).entered = node.entered ∧ (change node).sealed = node.sealed ∧
      (change node).incoming = node.incoming ∧ (change node).observed = node.observed) :
    Ends (checkIncoming index params node.incoming.toList)
      { g with nodes := g.nodes.modify index change } (fun _ h => h.Accounted ∧ KeepsCalls g h)
      fun _ h => h.Accounted ∧ KeepsCalls g h := by
  obtain ⟨given, keeps⟩ := accounted.give change present entered open_ known same
  have present' : (g.nodes.modify index change)[index]? = some (change node) := by
    simp [Array.getElem?_modify, present]
  have numbers : ∀ n ∈ node.incoming.toList, n ∈ callsTo g.edges index := fun n member =>
    (accounted.nodes present).incoming ▸ member
  have checked := @checkIncoming_accounts { g with nodes := g.nodes.modify index change } index params
    node.incoming.toList (change node) given present' known numbers
  exact checked.mono (fun _ _ later => ⟨later.1, keeps.trans later.2⟩)
    fun _ _ later => ⟨later.1, keeps.trans later.2⟩

theorem declare_accounts (index : Nat) (params : List ValueType) (declared : Nat)
    (explicit : Bool) : Accounts (declare index params declared explicit) := by
  intro g accounted
  rw [declare, ends_bind]
  refine (nodeAt_same index g).mono ?_ fun _ _ same => by rw [same]; exact ⟨accounted, .refl g⟩
  rintro node _ ⟨rfl, present⟩
  simp only [modifyNode, ends_bind, ends_maintain, ends_modify]
  refine ⟨fun ⟨entered, open_⟩ => ?_, fun _ => ⟨accounted, .refl _⟩⟩
  exact give_accounts accounted (fun node => { node with params := some params, declared, explicit })
    present entered (by simpa using open_) rfl ⟨rfl, rfl, rfl, rfl⟩

theorem infer_accounts (index : Nat) : Accounts (infer index) := by
  intro g accounted
  rw [infer, ends_bind]
  refine (nodeAt_same index g).mono ?_ fun _ _ same => by rw [same]; exact ⟨accounted, .refl g⟩
  rintro node h ⟨same, present⟩
  obtain rfl : g = h := same.symm
  simp only [modifyNode, ends_bind, ends_maintain, ends_get]
  refine ⟨fun ⟨entered, open_⟩ => ?_, fun _ => ⟨accounted, .refl _⟩⟩
  split
  · rename_i edge _
    simp only [ends_bind, ends_modify, ends_pure]
    exact give_accounts accounted (fun node => { node with params := some edge.args })
      present entered (by simpa using open_) rfl ⟨rfl, rfl, rfl, rfl⟩
  · exact ⟨accounted, .refl _⟩

theorem checkCall_outcome {node : FuncletNode} {edge : CallEdge}
    (old : node.Accounted index g.visited g.edges) :
    Ends (checkCall index node edge) g (fun _ h => h = g ∧ node.Admits edge) fun _ h => h = g := by
  unfold FuncletNode.Admits
  by_cases backward : edge.backward = true
  · rw [checkCall, if_pos backward, if_pos backward]
    by_cases full : node.observed = node.declared
    · simp [full]
    · have less : node.observed < node.declared := Nat.lt_of_le_of_ne old.observed_le full
      cases known : node.params with
      | none =>
          have := old.declared_of_none known
          omega
      | some params =>
          by_cases agrees : edge.agrees params = true <;> simp [full, less, agrees]
  · rw [checkCall, if_neg backward, if_neg backward]
    simp

/-- A call that nothing keeps from being recorded leaves the accounts in order. -/
theorem Accounted.record (accounted : g.Accounted) {node : FuncletNode} {edge : CallEdge}
    (present : g.nodes[index]? = some node) (target : edge.target = index)
    (backward_iff : edge.backward = true ↔ edge.target ≤ edge.caller)
    (checked : edge.checked = edge.backward) (admitted : node.Admits edge) :
    FuncletCalls.Accounted { g with
      nodes := g.nodes.modify index (·.addCall g.edges.size edge.backward)
      edges := g.edges.push edge } ∧ KeepsCalls g { g with
      nodes := g.nodes.modify index (·.addCall g.edges.size edge.backward)
      edges := g.edges.push edge } := by
  unfold FuncletNode.Admits at admitted
  have place := getElem?_modifyNode (·.addCall g.edges.size edge.backward) present
  have old := accounted.nodes present
  refine ⟨⟨by simpa [size] using accounted.visited_le, fun {i later} found => ?_,
    fun {n call} found => ?_⟩, by simp [size], fun {i before types} found known => ?_,
    fun {n call} found => ⟨call, ?_, rfl⟩⟩
  · rw [place] at found
    split at found
    · obtain rfl := Option.some.inj found
      subst i
      refine ⟨old.entered_iff, ?_, ?_, ?_, old.entered_of_params, old.declared_of_none, fun complete => ?_⟩
      · simp [FuncletNode.addCall, callsTo_push, old.incoming, target]
      · simp only [FuncletNode.addCall, backwardCalls_push, old.observed, target, true_and]
        split <;> rfl
      · have := old.observed_le
        simp only [FuncletNode.addCall]
        split
        · rename_i backward
          rw [if_pos backward] at admitted
          exact admitted.1
        · exact old.observed_le
      · have complete : node.sealed = true := complete
        have forward : ¬ edge.backward = true := fun backward => by
          rw [if_pos backward, complete] at admitted
          exact absurd admitted.2.1 (by decide)
        simpa [FuncletNode.addCall, forward] using old.of_sealed complete
    · rename_i other
      have same := accounted.nodes found
      have apart : edge.target ≠ i := fun here => other (here.symm.trans target)
      exact ⟨same.entered_iff, by rw [callsTo_push, if_neg apart, List.append_nil, same.incoming],
        by rw [backwardCalls_push, if_neg fun both => apart both.1, same.observed]; rfl,
        same.observed_le, same.entered_of_params, same.declared_of_none, same.of_sealed⟩
  · rw [Array.getElem?_push] at found
    split at found
    · obtain rfl := Option.some.inj found
      refine ⟨⟨_, by rw [place, if_pos target], fun marked => ?_⟩, backward_iff, fun backward =>
        checked.trans backward⟩
      rw [if_pos (checked ▸ marked)] at admitted
      exact admitted.2.2
    · obtain ⟨⟨other, there, agrees⟩, backward_iff', checked'⟩ := accounted.edges found
      refine ⟨?_, backward_iff', checked'⟩
      rw [place]
      split
      · rename_i here
        rw [here, present] at there
        obtain rfl := Option.some.inj there
        exact ⟨_, rfl, agrees⟩
      · exact ⟨other, there, agrees⟩
  · rw [place]
    split
    · rename_i here
      rw [here, present] at found
      obtain rfl := Option.some.inj found
      exact ⟨_, rfl, known⟩
    · exact ⟨before, found, known⟩
  · have inside := (Array.getElem?_eq_some_iff.mp found).1
    rw [Array.getElem?_push, if_neg (Nat.ne_of_lt inside), found]

/-- A call is recorded and nothing else happens, or nothing happens at all. It is the last one that
its target waits for when as many backward calls are recorded as the target declares. -/
theorem call_outcome (accounted : g.Accounted) (index : Nat) (args : List ValueType)
    (polymorphic : Bool) (offset : Nat) :
    Ends (call index args polymorphic offset) g
      (fun last h => ∃ node, g.nodes[index]? = some node ∧
        node.Admits (g.callEdge index args polymorphic offset) ∧
        h = { g with
          nodes := g.nodes.modify index (·.addCall g.edges.size (decide (index ≤ g.current)))
          edges := g.edges.push (g.callEdge index args polymorphic offset) } ∧
        (last = true ↔ index ≤ g.current ∧ backwardCalls h.edges index = node.declared))
      fun _ h => h = g := by
  rw [call]
  simp only [ends_bind, ends_get]
  cases present : g.nodes[index]? with
  | none => rfl
  | some node =>
      have old := accounted.nodes present
      simp only [ends_bind]
      refine (checkCall_outcome old).imp ?_
      rintro _ h ⟨same, admitted⟩
      obtain rfl : g = h := same.symm
      change node.Admits (g.callEdge index args polymorphic offset) at admitted
      simp only [modifyNode, ends_modify, nodeAt, ends_bind, ends_get, ends_inRange, ends_pure,
        Array.getElem?_modify, present, if_true, Option.map_some, Option.some.injEq, forall_eq',
        reduceCtorEq, false_implies, and_true]
      refine ⟨node, rfl, admitted, rfl, ?_⟩
      unfold FuncletNode.Admits at admitted
      by_cases backward : index ≤ g.current
      · have marked : (g.callEdge index args polymorphic offset).backward = true := by
          simpa [callEdge] using backward
        rw [if_pos marked] at admitted
        obtain ⟨less, open_, params, known, _⟩ := admitted
        have entered := old.entered_of_params (by simp [known])
        have counted := old.observed
        simp only [backwardCalls_push]
        simp [FuncletNode.ready, FuncletNode.addCall, backward, entered, open_, known]
        omega
      · simp [backward]

theorem call_accounts (index : Nat) (args : List ValueType) (polymorphic : Bool) (offset : Nat) :
    Accounts (call index args polymorphic offset) := fun _ accounted =>
  (call_outcome accounted index args polymorphic offset).mono
    (fun _ _ ⟨_, present, admitted, same, _⟩ => by
      rw [same]
      exact accounted.record present rfl decide_eq_true_iff rfl admitted)
    fun _ _ same => by rw [same]; exact ⟨accounted, .refl _⟩

theorem markComplete_accounts (index : Nat) : Accounts (markComplete index) := by
  intro g accounted
  rw [markComplete, ends_bind]
  refine (nodeAt_same index g).mono ?_ fun _ _ same => by rw [same]; exact ⟨accounted, .refl g⟩
  rintro node h ⟨same, present⟩
  obtain rfl : g = h := same.symm
  by_cases sealed : node.sealed = true
  · simp only [sealed, if_true, ends_pure]
    exact ⟨accounted, .refl _⟩
  simp only [sealed, Bool.false_eq_true, if_false, modifyNode, ends_bind, ends_maintain, ends_modify]
  refine ⟨fun ready => ?_, fun _ => ⟨accounted, .refl _⟩⟩
  have facts : node.entered = true ∧ node.sealed = false ∧ node.params.isSome ∧
      node.observed = node.declared := by
    simpa [FuncletNode.ready, and_assoc] using ready
  have old := accounted.nodes present
  exact accounted.change ({ · with sealed := true }) present ⟨old.entered_iff, old.incoming,
    old.observed, old.observed_le, old.entered_of_params, old.declared_of_none,
    fun _ => ⟨facts.1, facts.2.2⟩⟩ fun _ known => known

theorem ready_accounts (index : Nat) : Accounts (ready index) :=
  accounts_same fun g => by
    rw [ready, ends_bind]
    exact (nodeAt_same index g).imp fun _ _ ⟨same, _⟩ => same

theorem resolveDelta_accounts (delta : Int) :
    Accounts (do resolveDelta (← get) delta : Attempt FuncletCalls Nat) :=
  accounts_same fun g => by
    simp only [ends_bind, ends_get, resolveDelta]
    split
    · rfl
    · rfl

/-- Every funclet is entered and sealed with the calls it declares, and every call is checked. -/
structure Complete (g : FuncletCalls) : Prop where
  nodes : ∀ node ∈ g.nodes, node.entered = true ∧ node.observed = node.declared ∧ node.sealed = true
  edges : ∀ edge ∈ g.edges, edge.checked = true

theorem finishNodes_outcome (nodes : List FuncletNode) (first : Nat) (g : FuncletCalls) :
    Ends (finishNodes first nodes) g
      (fun _ h => h = g ∧ ∀ node ∈ nodes, node.observed = node.declared ∧ node.sealed = true)
      fun _ h => h = g ∧ ¬ ∀ node ∈ nodes, node.observed = node.declared ∧ node.sealed = true := by
  induction nodes generalizing first with
  | nil => simp [finishNodes]
  | cons node rest ih =>
      by_cases full : node.observed = node.declared
      · by_cases done : node.sealed = true
        · simpa [finishNodes, full, done] using ih (first + 1)
        · simp [finishNodes, full, done]
      · simp [finishNodes, full]

/-- Finishing changes nothing, and succeeds on complete graphs alone. -/
theorem finish_outcome (accounted : g.Accounted) :
    Ends finish g (fun _ h => h = g ∧ g.Complete) fun _ h => h = g ∧ ¬ g.Complete := by
  have entered : (∀ node ∈ g.nodes, node.entered = true) ↔ g.visited = g.size := by
    have within := accounted.visited_le
    constructor
    · refine fun all => Nat.le_antisymm within (Nat.le_of_not_lt fun short => ?_)
      obtain ⟨node, present⟩ : ∃ node, g.nodes[g.visited]? = some node :=
        ⟨_, Array.getElem?_eq_getElem (by unfold size at *; omega)⟩
      have := (accounted.nodes present).entered_iff.mp (all node (Array.mem_of_getElem? present))
      omega
    · intro all node member
      obtain ⟨i, present⟩ := Array.mem_iff_getElem?.mp member
      rw [(accounted.nodes present).entered_iff, all]
      exact (Array.getElem?_eq_some_iff.mp present).1
  have complete_iff : g.Complete ↔ g.visited = g.size ∧
      (∀ node ∈ g.nodes.toList, node.observed = node.declared ∧ node.sealed = true) ∧
      g.edges.all CallEdge.checked = true := by
    rw [← entered, Array.all_eq_true_iff_forall_mem]
    simp only [Array.mem_toList_iff]
    exact ⟨fun ⟨nodes, edges⟩ => ⟨fun node member => (nodes node member).1,
      fun node member => (nodes node member).2, edges⟩,
      fun ⟨entered, nodes, edges⟩ => ⟨fun node member => ⟨entered node member, nodes node member⟩,
        edges⟩⟩
  simp only [complete_iff, finish, ends_bind, ends_get, ends_require]
  refine ⟨fun all => ?_, fun short => ⟨trivial, fun complete => short complete.1⟩⟩
  refine (finishNodes_outcome g.nodes.toList 0 g).mono ?_
    fun _ _ ⟨same, unfinished⟩ => ⟨same, fun complete => unfinished complete.2.1⟩
  rintro _ h ⟨rfl, nodes⟩
  rw [ends_maintain]
  exact ⟨fun checked => ⟨rfl, all, nodes, checked⟩, fun unchecked =>
    ⟨rfl, fun complete => unchecked complete.2.2⟩⟩

theorem Accounted.agrees_of_complete (accounted : g.Accounted) (complete : g.Complete)
    {edge : CallEdge} (member : edge ∈ g.edges) :
    ∃ node params, g.nodes[edge.target]? = some node ∧ node.params = some params ∧
      edge.agrees params = true := by
  obtain ⟨n, present⟩ := Array.mem_iff_getElem?.mp member
  obtain ⟨node, there, agrees⟩ := (accounted.edges present).target
  obtain ⟨params, known, fits⟩ := agrees (complete.edges edge member)
  exact ⟨node, params, there, known, fits⟩

theorem Accounted.params_of_complete (accounted : g.Accounted) (complete : g.Complete)
    {node : FuncletNode} (member : node ∈ g.nodes) : node.params.isSome = true := by
  obtain ⟨i, present⟩ := Array.mem_iff_getElem?.mp member
  exact ((accounted.nodes present).of_sealed (complete.nodes node member).2.2).2.1

/-- A funclet other than the first that declares nothing has the parameters of a call from above,
and no call from below. -/
structure Derived (g : FuncletCalls) : Prop extends Accounted g where
  inferred : ∀ {i : Nat} {node : FuncletNode}, g.nodes[i]? = some node → i ≠ 0 → node.params.isSome →
    node.explicit = false → node.declared = 0 ∧
      ∃ edge ∈ g.edges, edge.target = i ∧ edge.backward = false ∧ edge.polymorphic = false

theorem derived_of_size {funclets : Nat} (opened : ofSize? funclets = some g) : g.Derived where
  toAccounted := accounted_of_size opened
  inferred {i node} present _ known := by
    have fresh := (coherent_of_size opened).2.2.2.2.2
    have size := (coherent_of_size opened).2.1
    have below := (Array.getElem?_eq_some_iff.mp present).1
    rw [fresh i (size ▸ below)] at present
    obtain rfl := Option.some.inj present
    cases known

theorem Derived.keep (derived : g.Derived) (accounted : h.Accounted) (keeps : KeepsCalls g h)
    (nodes : ∀ (i : Nat) (later : FuncletNode), h.nodes[i]? = some later → i ≠ 0 →
      later.params.isSome → later.explicit = false →
        (∃ node, g.nodes[i]? = some node ∧ node.params.isSome ∧ node.explicit = false ∧
          later.declared = node.declared) ∨
        later.declared = 0 ∧
          ∃ edge ∈ g.edges, edge.target = i ∧ edge.backward = false ∧ edge.polymorphic = false) :
    h.Derived where
  toAccounted := accounted
  inferred {i later} found other known implicit := by
    have old : later.declared = 0 ∧
        ∃ edge ∈ g.edges, edge.target = i ∧ edge.backward = false ∧ edge.polymorphic = false := by
      rcases nodes i later found other known implicit with ⟨node, present, known', implicit', same⟩ | old
      · rw [same]
        exact derived.inferred present other known' implicit'
      · exact old
    obtain ⟨none_, edge, member, target, forward, direct⟩ := old
    obtain ⟨n, place⟩ := Array.mem_iff_getElem?.mp member
    obtain ⟨edge', place', same⟩ := keeps.edges place
    rw [same] at place'
    exact ⟨none_, _, Array.mem_of_getElem? place', target, forward, direct⟩

theorem Derived.same (derived : g.Derived) (accounted : h.Accounted) (keeps : KeepsCalls g h)
    (nodes : ∀ (i : Nat) (later : FuncletNode), h.nodes[i]? = some later → ∃ node,
      g.nodes[i]? = some node ∧ later.params = node.params ∧ later.explicit = node.explicit ∧
        later.declared = node.declared) : h.Derived :=
  derived.keep accounted keeps fun i later found _ known implicit => by
    obtain ⟨node, present, params, explicit, declared⟩ := nodes i later found
    exact .inl ⟨node, present, params ▸ known, explicit ▸ implicit, declared⟩

theorem Accounted.forward (accounted : g.Accounted) {node : FuncletNode} {edge : CallEdge}
    (present : g.nodes[index]? = some node) (open_ : node.params = none)
    (listed : edge ∈ g.edgesTo node) :
    edge ∈ g.edges ∧ edge.target = index ∧ edge.backward = false := by
  have old := accounted.nodes present
  obtain ⟨n, numbered, place⟩ := List.mem_filterMap.mp listed
  rw [old.incoming] at numbered
  obtain ⟨edge', place', target⟩ := mem_callsTo.mp numbered
  cases place.symm.trans place'
  have member := Array.mem_of_getElem? place
  have none_ : backwardCalls g.edges index = 0 := by
    have := old.observed_le
    have := old.declared_of_none open_
    have := old.observed
    omega
  rw [backwardCalls, Array.countP_eq_zero] at none_
  have := none_ edge member
  exact ⟨member, target, by simpa [target] using this⟩

/-- What a call graph can be asked for. -/
inductive Request where
  | enter (index : Nat)
  | declare (index : Nat) (params : List ValueType) (declared : Nat) (explicit : Bool)
  | infer (index : Nat)
  | call (index : Nat) (args : List ValueType) (polymorphic : Bool) (offset : Nat)
  | resolve (delta : Int)
  | ready (index : Nat)
  | markComplete (index : Nat)
  | finish
  deriving DecidableEq, Repr

/-- The graph that a request leaves, also where it is refused. -/
def Request.serve (g : FuncletCalls) : Request → FuncletCalls
  | .enter index => after (FuncletCalls.enter index) g
  | .declare index params declared explicit =>
      after (FuncletCalls.declare index params declared explicit) g
  | .infer index => after (FuncletCalls.infer index) g
  | .call index args polymorphic offset => after (FuncletCalls.call index args polymorphic offset) g
  | .resolve delta => after (do resolveDelta (← get) delta : Attempt FuncletCalls Nat) g
  | .ready index => after (FuncletCalls.ready index) g
  | .markComplete index => after (FuncletCalls.markComplete index) g
  | .finish => after FuncletCalls.finish g

theorem Accounts.after {m : Attempt FuncletCalls α} (accounts : Accounts m) (accounted : g.Accounted) :
    (after m g).Accounted ∧ KeepsCalls g (after m g) :=
  (accounts g accounted).after

theorem finish_accounts : Accounts finish := fun _ accounted =>
  (finish_outcome accounted).mono
    (fun _ _ ⟨same, _⟩ => by rw [same]; exact ⟨accounted, .refl _⟩)
    fun _ _ ⟨same, _⟩ => by rw [same]; exact ⟨accounted, .refl _⟩

theorem Request.serve_accounts (request : Request) (accounted : g.Accounted) :
    (request.serve g).Accounted ∧ KeepsCalls g (request.serve g) := by
  cases request with
  | enter index => exact (enter_accounts index).after accounted
  | declare index params declared explicit =>
      exact (declare_accounts index params declared explicit).after accounted
  | infer index => exact (infer_accounts index).after accounted
  | call index args polymorphic offset =>
      exact (call_accounts index args polymorphic offset).after accounted
  | resolve delta => exact (resolveDelta_accounts delta).after accounted
  | ready index => exact (ready_accounts index).after accounted
  | markComplete index => exact (markComplete_accounts index).after accounted
  | finish => exact finish_accounts.after accounted

def served (g : FuncletCalls) (requests : List Request) : FuncletCalls :=
  requests.foldl Request.serve g

theorem Accounted.served (requests : List Request) (accounted : g.Accounted) :
    (g.served requests).Accounted ∧ KeepsCalls g (g.served requests) := by
  induction requests generalizing g with
  | nil => exact ⟨accounted, .refl g⟩
  | cons request rest ih =>
      obtain ⟨next, keeps⟩ := request.serve_accounts accounted
      obtain ⟨last, later⟩ := ih next
      exact ⟨last, keeps.trans later⟩

end FuncletCalls

end WasmFunclets
