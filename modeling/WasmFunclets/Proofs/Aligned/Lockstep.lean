import WasmFunclets.Proofs.Aligned.Accepted
import WasmFunclets.Proofs.Ssa.Lasts

/-! The call graph of a region and the edges into the blocks of its funclets say the same: calls and
edges correspond one to one, and edges end with the values that are passed. -/

namespace WasmFunclets

open Attempt

namespace FuncletCalls

theorem checkCall_leaves {α : Type} {view : FuncletCalls → α} (index : Nat) (target : FuncletNode)
    (edge : CallEdge) : Leaves view (checkCall index target edge) := by
  refine along_ite (along_ite ?_ (along_bind (leaves_throw _) fun _ => ?_)) (leaves_maintain _ _)
  all_goals
    refine along_bind (leaves_maintain _ _) fun _ => ?_
    cases target.params with
    | none => exact leaves_throw _
    | some params => exact along_ite (along_pure _) (leaves_throw _)

theorem call_edges {g h : FuncletCalls} {index : Nat} {args : List ValueType} {polymorphic last : Bool}
    {offset : Nat} (ok : call index args polymorphic offset g = .ok last h) :
    h.edges = g.edges.push (g.callEdge index args polymorphic offset) := by
  have ends : Ends (call index args polymorphic offset) g
      (fun _ h => h.edges = g.edges.push (g.callEdge index args polymorphic offset))
      fun _ _ => True := by
    simp only [call, ends_bind, ends_get]
    cases present : g.nodes[index]? with
    | none => exact trivial
    | some node =>
        have checks : Leaves id (checkCall index node (g.callEdge index args polymorphic offset)) :=
          checkCall_leaves _ _ _
        have still : Leaves edges (nodeAt index) := nodeAt_leaves index
        simp only [ends_bind]
        refine (checks g).mono ?_ fun _ _ _ => trivial
        rintro _ u (rfl : u = g)
        rw [modifyNode, ends_modify, ends_modify]
        exact (still _).mono (fun _ _ same => same) fun _ _ _ => trivial
  exact ends.of_ok ok

theorem markComplete_edges (index : Nat) : Leaves edges (markComplete index) :=
  along_bind (nodeAt_leaves index) fun _ => along_ite (along_pure _)
    (along_bind (leaves_maintain _ _) fun _ => along_modify fun _ => rfl)

end FuncletCalls

namespace Validation

variable {setting : Setting} {context : Context} {strict : Bool} {bytes : List UInt8} {s t : State}
variable {f : Ssa.Forest} {written : BlockId → Nat → Prop} {valid : ValidBody} {c : BlockId}
variable {b : Ssa.Builder} {r : OpenRegion} {node : FuncletNode} {i : Nat}

def ValueFor (operand : Operand) (value : ValueId) : Prop := ∀ known, operand.value = some known → value = known

theorem supply_valueFor {operands : List Operand} {values : List ValueId} {t : Ssa.Builder}
    (ok : supply operands b = .ok values t) : List.Forall₂ ValueFor operands values ∧ t.edges = b.edges := by
  induction operands generalizing values b with
  | nil =>
      obtain ⟨rfl, rfl⟩ := pure_ok.mp ok
      exact ⟨.nil, rfl⟩
  | cons operand operands ih =>
      simp only [supply_cons, bind_ok, pure_ok] at ok
      obtain ⟨value, u, first, rest, _, later, rfl, rfl⟩ := ok
      obtain ⟨each, same⟩ := ih later
      have one : ValueFor operand value ∧ u.edges = b.edges := by
        unfold supplyOne at first
        cases known : operand.value with
        | none =>
            rw [known] at first
            exact ⟨fun _ absurd_ => (by cases known.symm.trans absurd_),
              (Ssa.Builder.undef_leaves operand.type).of_ok first⟩
        | some id =>
            rw [known] at first
            obtain ⟨rfl, rfl⟩ := pure_ok.mp first
            exact ⟨fun _ same => Option.some.inj (known.symm.trans same), rfl⟩
      exact ⟨.cons one.1 each, same.trans one.2⟩

/-- What a call adds: to the graph the call, and to the block of its target an edge that comes from the
block at hand and ends with the values of the operands. -/
structure Delivers (s t : State) (target : Nat) (args : List Operand) (polymorphic : Bool) : Prop where
  region : ∃ r graph outer c old front passed, s.regions = r :: outer ∧
    t.regions = { r with graph } :: outer ∧ r.blocks[target]? = some c ∧
    graph.edges = r.graph.edges.push
      (r.graph.callEdge target (args.map Operand.type) polymorphic s.start) ∧
    s.builder.edges c = some old ∧ List.Forall₂ ValueFor args passed ∧
    ∀ d, t.builder.edges d =
      if d = c then some (old.push ⟨s.current, front ++ passed⟩) else s.builder.edges d

theorem transferTo_delivers {target : Nat} {args : List Operand} {polymorphic : Bool}
    (ok : transferTo target args polymorphic s = .ok () t) :
    Delivers s t target args polymorphic := by
  obtain ⟨r, outer, last, graph, c, passed, b, b', regions, called, place, supplied, connected, ok⟩ :=
    transferTo_ok.mp ok
  obtain ⟨each, same⟩ := supply_valueFor supplied
  obtain ⟨old, front, before, edges, _⟩ := Ssa.Builder.connect_edges connected
  have calls := FuncletCalls.call_edges called
  rw [same] at before edges
  cases last with
  | false =>
      obtain ⟨_, rfl⟩ := pure_ok.mp ok
      exact ⟨r, graph, outer, c, old, front, passed, regions, rfl, place, calls, before, each, edges⟩
  | true =>
      obtain ⟨r', outer', graph', c', b'', regions', marked, place', sealed, rfl⟩ :=
        completeFunclet_ok.mp ok
      cases regions'
      have still : b''.edges = b'.edges := (Ssa.Builder.sealBlock_leaves c').of_ok sealed
      refine ⟨r, graph', outer, c, old, front, passed, regions, rfl, place, ?_, before, each, ?_⟩
      · exact ((FuncletCalls.markComplete_edges target).of_ok marked).trans calls
      · rw [still]
        exact edges

/-- How many values an edge carries for the arguments of a call: as many, or after the funclet has got
parameters one for each of these. -/
def CarriesCount (params : Option (List ValueType)) (args : List ValueType) (pred : Ssa.Predecessor) : Prop :=
  match params with
  | none => pred.args.length = args.length
  | some types => pred.args.length = types.length ∧ args.length ≤ types.length

/-- The edges into the block of a funclet: the region enters the first funclet, and then there is one
edge for each call. -/
def InStep (b : Ssa.Builder) (c : BlockId) (isSealed : Bool) (index : Nat)
    (params : Option (List ValueType)) (entry : List ValueType) (calls : List CallEdge) : Prop :=
  ∃ k first rest, b.blocks[c]? = some k ∧ k.isSealed = isSealed ∧ k.predecessors.toList = first ++ rest ∧
    first.length = (if index = 0 then 1 else 0) ∧ (∀ pred ∈ first, CarriesCount params entry pred) ∧
    List.Forall₂ (fun edge => CarriesCount params edge.args) calls rest

theorem Ready.carriesCount {ways : List Arrival} {current : BlockId}
    (ready : Ready strict f b current ways node c) (sound : b.Consistent strict written)
    (short : ∀ types, node.params = some types → ∀ way ∈ ways, way.args.length ≤ types.length) :
    ∃ k, b.blocks[c]? = some k ∧ k.isSealed = node.sealed ∧
      List.Forall₂ (fun way => CarriesCount node.params (Arrival.args way)) ways k.predecessors.toList := by
  obtain ⟨x, shown, sealed, _, arrive⟩ := ready.shape
  obtain ⟨o, present, rfl⟩ := Option.map_eq_some_iff.mp shown
  obtain ⟨k, block, rfl⟩ := Ssa.Builder.block_of_outline present
  refine ⟨k, block, sealed, ?_⟩
  refine List.forall₂_iff_get.mpr ⟨arrive.length_eq, fun i one two => ?_⟩
  have arrives := (List.forall₂_iff_get.mp arrive).2 i one two
  cases known : node.params with
  | none => exact (arrives.args known).length_eq
  | some types =>
      have takes := (ready.takes types known).1
      obtain ⟨y, phis, shown', args, _⟩ := id takes
      cases shown.symm.trans shown'
      have inside : i < k.predecessors.size := by rwa [Array.length_toList] at two
      refine ⟨?_, short types known _ (List.get_mem _ _)⟩
      rw [← takes.length present args]
      exact sound.ledger.carried present args inside (Array.getElem?_eq_getElem inside)

theorem arrivals_split {R : Arrival → Ssa.Predecessor → Prop} {entry : List ValueType}
    {edges : List CallEdge} {index : Nat} {preds : List Ssa.Predecessor}
    (each : List.Forall₂ R (arrivals entry edges index) preds) : ∃ first rest, preds = first ++ rest ∧
      first.length = (if index = 0 then 1 else 0) ∧ (∀ pred ∈ first, R ⟨entry, false⟩ pred) ∧
      List.Forall₂ (fun edge => R ⟨edge.args, edge.polymorphic⟩)
        (edges.filter fun edge => edge.target == index) rest := by
  have calls {rest : List Ssa.Predecessor} (others : List.Forall₂ R
      ((edges.filter fun edge => edge.target == index).map
        fun edge => ⟨edge.args, edge.polymorphic⟩) rest) :=
    (List.forall₂_map_left_iff
      (f := fun edge : CallEdge => (⟨edge.args, edge.polymorphic⟩ : Arrival))).mp others
  rw [arrivals] at each
  by_cases isFirst : index = 0
  · rw [if_pos isFirst] at each
    cases each with
    | @cons _ pred _ rest first others =>
        refine ⟨[pred], rest, rfl, by rw [if_pos isFirst]; rfl, fun p member => ?_, calls others⟩
        obtain rfl := List.mem_singleton.mp member
        exact first
  · rw [if_neg isFirst] at each
    exact ⟨[], _, rfl, by rw [if_neg isFirst]; rfl, by simp, calls each⟩

theorem inStep_of_arrivals {isSealed : Bool} {index : Nat} {params : Option (List ValueType)}
    {entry : List ValueType} {edges : List CallEdge} {k : Ssa.Block} (block : b.blocks[c]? = some k)
    (sealed : k.isSealed = isSealed)
    (each : List.Forall₂ (fun way => CarriesCount params (Arrival.args way)) (arrivals entry edges index)
      k.predecessors.toList) :
    InStep b c isSealed index params entry (edges.filter fun edge => edge.target == index) := by
  obtain ⟨first, rest, split, length, entered, calls⟩ := arrivals_split each
  exact ⟨k, first, rest, block, sealed, split, length, entered, calls⟩

/-- Arguments of calls to a funclet with parameters are not more than these. -/
theorem Prepared.short {current : BlockId} (prepared : Prepared strict f b current r)
    (checked : ∀ edge ∈ r.graph.edges, edge.target = i → edge.checked = true)
    (present : r.graph.nodes[i]? = some node) (types : List ValueType)
    (known : node.params = some types) :
    ∀ way ∈ arrivals r.signature.params r.graph.edges.toList i, way.args.length ≤ types.length := by
  intro way member
  rcases List.mem_append.mp member with first | call
  · split at first
    · rename_i isFirst
      subst isFirst
      obtain rfl := List.mem_singleton.mp first
      rw [prepared.entry present known]
    · cases first
  · obtain ⟨edge, listed, rfl⟩ := List.mem_map.mp call
    obtain ⟨listed, target⟩ := List.mem_filter.mp listed
    have inside := Array.mem_toList_iff.mp listed
    obtain rfl : edge.target = i := by simpa using target
    obtain ⟨n, place⟩ := Array.mem_iff_getElem?.mp inside
    obtain ⟨node', there, fits⟩ := (prepared.derived.edges place).target
    cases present.symm.trans there
    obtain ⟨params, same, agrees⟩ := fits (checked edge inside rfl)
    cases known.symm.trans same
    exact (CallEdge.agrees_spec agrees).1

/-- In every state between two instructions the calls of a funclet and the edges to its block correspond. -/
theorem Reached.inStep (reached : Reached setting bytes s) (member : r ∈ s.regions)
    (present : r.graph.nodes[i]? = some node) : (node.entered = true ↔ node.params.isSome = true) ∧
      ∃ c, r.blocks[i]? = some c ∧ InStep s.builder c node.sealed i node.params r.signature.params
        (r.graph.edgesTo node) := by
  have midway := reached.loose
  obtain ⟨f, written, aligned⟩ := midway.aligned
  have prepared := aligned.regions r member
  have framed := midway.framed fun empty => by
    rw [midway.bottom empty] at member
    cases member
  have settled := framed.settled r member
  obtain ⟨c, place⟩ : ∃ c, r.blocks[i]? = some c := by
    refine ⟨_, Array.getElem?_eq_getElem ?_⟩
    rw [prepared.count]
    exact (Array.getElem?_eq_some_iff.mp present).1
  refine ⟨⟨settled.params_of_entered present, settled.entered_of_params present⟩, c, place, ?_⟩
  have checked : ∀ edge ∈ r.graph.edges, edge.target = i → node.params.isSome = true →
      edge.checked = true := by
    rintro edge listed rfl known
    obtain ⟨n, place⟩ := Array.mem_iff_getElem?.mp listed
    exact settled.checked_of_params place present known
  obtain ⟨k, block, sealed, each⟩ := (prepared.nodes present place).carriesCount aligned.built.sound
    fun types known => prepared.short (fun edge listed target => checked edge listed target
      (by rw [known]; rfl)) present types known
  rw [prepared.derived.edgesTo_eq present]
  exact inStep_of_arrivals block sealed each

theorem inStep_of_valid (accepted : validateWith setting bytes = .ok valid) {r : Region}
    (member : r ∈ valid.regions) {funclet : Funclet} (place : r.funclets[i]? = some funclet) :
    funclet.sealed = true ∧
      InStep valid.builder funclet.block true i (some funclet.params) r.signature.params
        (r.edges.toList.filter fun edge => edge.target == i) := by
  obtain ⟨s, f, written, aligned, _, _, rfl⟩ := loose_of_valid accepted
  obtain ⟨q, yields, _, complete, prepared⟩ := aligned.closed r member
  obtain ⟨node, types, c, present, params, there, rfl⟩ := yields.getElem?.mp place
  have sealed := (complete.nodes node (Array.mem_of_getElem? present)).2.2
  obtain ⟨k, block, same, each⟩ := (prepared.nodes present there).carriesCount aligned.built.sound
    fun types known => prepared.short (fun edge listed _ => complete.edges edge listed) present types known
  rw [params] at each
  refine ⟨sealed, ?_⟩
  rw [yields.signature, yields.edges]
  exact inStep_of_arrivals block (same.trans sealed) each

end Validation

end WasmFunclets
