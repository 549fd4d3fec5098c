import WasmFunclets.Proofs.Aligned.Branches

/-! Calls of funclets are edges to their blocks. -/

namespace WasmFunclets

open Attempt
open Ssa (Forest Predecessor)

namespace FuncletCalls

variable {g : FuncletCalls} {index : Nat}

def calls (g : FuncletCalls) : List (Nat × Arrival) :=
  g.edges.toList.map fun edge => (edge.target, ⟨edge.args, edge.polymorphic⟩)

theorem modifyNode_leaves (index : Nat) (change : FuncletNode → FuncletNode) :
    Leaves calls (modifyNode index change) := along_modify fun _ => rfl

theorem edge_of_calls {h : FuncletCalls} (same : h.calls = g.calls) {edge : CallEdge}
    (member : edge ∈ h.edges) : ∃ old ∈ g.edges, old.args = edge.args ∧
      old.polymorphic = edge.polymorphic := by
  have call : (edge.target, (⟨edge.args, edge.polymorphic⟩ : Arrival)) ∈ g.calls := by
    rw [← same]
    exact List.mem_map_of_mem (Array.mem_toList_iff.mpr member)
  obtain ⟨old, listed, alike⟩ := List.mem_map.mp call
  simp only [Prod.mk.injEq, Arrival.mk.injEq] at alike
  exact ⟨old, Array.mem_toList_iff.mp listed, alike.2.1, alike.2.2⟩

theorem nodeAt_leaves {α : Type} {view : FuncletCalls → α} (index : Nat) :
    Leaves view (nodeAt index) :=
  along_bind along_get fun _ => leaves_inRange _

theorem checkIncoming_leaves (index : Nat) (params : List ValueType) (numbers : List Nat) :
    Leaves calls (checkIncoming index params numbers) := by
  induction numbers with
  | nil => exact along_pure _
  | cons n rest ih =>
      refine along_bind along_get fun g => ?_
      cases g.edges[n]? with
      | none => exact ih
      | some edge =>
          have checks : Leaves calls (modify fun g : FuncletCalls =>
              { g with edges := g.edges.modify n ({ · with checked := true }) }) := by
            refine along_modify fun g => List.ext_getElem? fun i => ?_
            simp only [calls, List.getElem?_map, Array.getElem?_toList, Array.getElem?_modify]
            split
            · rw [Option.map_map]
              rfl
            · rfl
          exact along_ite ih (along_ite (along_bind checks fun _ => ih)
            (along_bind (leaves_throw _) fun _ => along_bind checks fun _ => ih))

theorem declare_leaves (index : Nat) (params : List ValueType) (declared : Nat) (explicit : Bool) :
    Leaves calls (declare index params declared explicit) :=
  along_bind (nodeAt_leaves index) fun _ => along_bind (leaves_maintain _ _) fun _ =>
    along_bind (modifyNode_leaves _ _) fun _ => checkIncoming_leaves _ _ _

theorem infer_leaves (index : Nat) : Leaves calls (infer index) := by
  refine along_bind (nodeAt_leaves index) fun node =>
    along_bind (leaves_maintain _ _) fun _ => along_bind along_get fun g => ?_
  split
  · exact along_bind (modifyNode_leaves _ _) fun _ => along_bind (checkIncoming_leaves _ _ _) fun _ =>
      along_pure _
  · exact leaves_throw _

/-- A call that is recorded agrees with the parameters of its target, as far as these are known. -/
theorem call_records (settled : g.Settled) {args : List ValueType} {polymorphic : Bool} {offset : Nat}
    (inside : index < g.size) :
    Ends (call index args polymorphic offset) g
      (fun last h => h.SettledBut index ∧ KeepsCalls g h ∧ (g.Derived → h.Derived) ∧
        h = { g with nodes := h.nodes, edges := g.edges.push (g.callEdge index args polymorphic offset) } ∧
        (∀ i, h.nodes[i]? = g.nodes[i]?.map fun node => if i = index then
          node.addCall g.edges.size (decide (index ≤ g.current)) else node) ∧
        ∃ node, g.nodes[index]? = some node ∧ node.sealed = false ∧
          (∀ params, node.params = some params →
            (g.callEdge index args polymorphic offset).agrees params = true) ∧
          ∃ later, h.nodes[index]? = some later ∧ later.ready = last)
      (fun e _ => e.IsRefusal) := by
  refine ends_of_forall (fun last h ok => ?_) fun e h error => (call_ends settled inside).of_error error
  obtain ⟨_, _, _, nodes, _, _, _⟩ := (call_ends settled inside).of_ok ok
  obtain ⟨but, keeps, same, _, agrees, ready⟩ := (call_settledBut settled inside).of_ok ok
  obtain ⟨node, present⟩ : ∃ node, g.nodes[index]? = some node :=
    ⟨_, Array.getElem?_eq_getElem (show index < g.nodes.size from inside)⟩
  refine ⟨but, keeps, fun derived => ?_, same, nodes, node, present, (agrees node present).1,
    fun params known => ?_, ready⟩
  · refine derived.same ((call_accounts index args polymorphic offset g derived.toAccounted).of_ok ok).1
      keeps fun i later found => ?_
    rw [nodes] at found
    obtain ⟨node, present, rfl⟩ := Option.map_eq_some_iff.mp found
    refine ⟨node, present, ?_⟩
    split <;> exact ⟨rfl, rfl, rfl⟩
  have entered := settled.entered_of_params present (by rw [known]; rfl)
  have below := (settled.entered_iff present).mp entered
  have current := settled.current_eq
  obtain ⟨_, known', fits⟩ := (agrees node present).2 (by omega)
  cases known.symm.trans known'
  exact fits

theorem SettledBut.markComplete_records (settled : g.SettledBut index) {node : FuncletNode}
    (present : g.nodes[index]? = some node) (ready : node.ready = true) :
    Ends (markComplete index) g
      (fun _ h => h.Settled ∧ KeepsCalls g h ∧ (g.Derived → h.Derived) ∧ h = { g with nodes := h.nodes } ∧
        ∀ i, h.nodes[i]? = g.nodes[i]?.map fun node => if i = index then
          { node with sealed := true } else node)
      fun _ _ => False := by
  have ends := settled.markComplete_ends present ready
  refine ends_of_forall (fun _ h ok => ?_) fun _ _ error => ends.of_error error
  obtain ⟨settled', keeps, same, nodes⟩ := ends.of_ok ok
  refine ⟨settled', keeps, fun derived => ?_, same, nodes⟩
  refine derived.same ((markComplete_accounts index g derived.toAccounted).of_ok ok).1 keeps
    fun i later found => ?_
  rw [nodes] at found
  obtain ⟨node, present, rfl⟩ := Option.map_eq_some_iff.mp found
  refine ⟨node, present, ?_⟩
  split <;> exact ⟨rfl, rfl, rfl⟩

end FuncletCalls

theorem CallEdge.agrees_spec {edge : CallEdge} {params : List ValueType}
    (agrees : edge.agrees params = true) : edge.args.length ≤ params.length ∧
      (edge.polymorphic = true ∨ edge.args.length = params.length) ∧
      ∀ {k : Nat} {a p : ValueType}, edge.args[k]? = some a →
        params[params.length - edge.args.length + k]? = some p → a.admits p = true := by
  simp only [CallEdge.agrees, Bool.and_eq_true, decide_eq_true_eq, Bool.or_eq_true, beq_iff_eq,
    List.all_eq_true] at agrees
  obtain ⟨⟨short, length⟩, all⟩ := agrees
  refine ⟨short, length, fun {k a p} one two => ?_⟩
  have member : (a, p) ∈ edge.args.zip (params.drop (params.length - edge.args.length)) :=
    List.mem_of_getElem? (i := k) (by
      rw [List.getElem?_zip_eq_some, List.getElem?_drop]
      exact ⟨one, two⟩)
  have same := all (a, p) member
  exact ValueType.admits_iff.mpr same

theorem arrivals_eq (params : List ValueType) (edges : List CallEdge) (index : Nat) :
    arrivals params edges index = (if index = 0 then [⟨params, false⟩] else []) ++
      ((edges.map fun edge => (edge.target, (⟨edge.args, edge.polymorphic⟩ : Arrival))).filter
        fun call => call.1 == index).map Prod.snd := by
  rw [arrivals, List.filter_map, List.map_map]
  rfl

theorem arrivals_of_calls {g h : FuncletCalls} (same : h.calls = g.calls) (params : List ValueType)
    (index : Nat) : arrivals params h.edges.toList index = arrivals params g.edges.toList index := by
  rw [arrivals_eq, arrivals_eq, ← FuncletCalls.calls, ← FuncletCalls.calls, same]

theorem arrivals_push (params : List ValueType) (edges : Array CallEdge) (edge : CallEdge) (i : Nat) :
    arrivals params (edges.push edge).toList i = arrivals params edges.toList i ++
      if edge.target = i then [⟨edge.args, edge.polymorphic⟩] else [] := by
  rw [arrivals, arrivals, Array.toList_push, List.filter_append, List.map_append, List.append_assoc]
  congr 2
  by_cases here : edge.target = i <;> simp [here]

theorem waitingOf_perm {sealed : List Bool} {blocks : List BlockId} {i : Nat} {c : BlockId}
    (open_ : sealed[i]? = some false) (place : blocks[i]? = some c) :
    (waitingOf sealed blocks).Perm (c :: waitingOf (sealed.set i true) blocks) := by
  induction sealed generalizing i blocks with
  | nil => cases open_
  | cons head sealed ih =>
      cases blocks with
      | nil => cases place
      | cons block blocks =>
          cases i with
          | zero =>
              cases open_
              cases place
              exact .refl _
          | succ i =>
              have rest : (waitingOf sealed blocks).Perm _ := ih open_ place
              cases head with
              | true => exact rest
              | false => exact (rest.cons block).trans (.swap c block _)

namespace Validation

variable {context : Context} {strict : Bool} {f g : Forest} {written : BlockId → Nat → Prop}
variable {extra : List BlockId} {s t : State} {types : List ValueType} {args : List ValueId}
variable {b : Ssa.Builder} {c d e : BlockId} {r : OpenRegion} {outer : List OpenRegion} {index : Nat}

theorem fits_of_agrees {edge : CallEdge} {params : List ValueType}
    (agrees : edge.agrees params = true) (dead : edge.polymorphic = true → f.Dead c)
    (holds : b.HoldAll strict f c args edge.args) :
    args.length ≤ params.length ∧ (strict = true → b.Suits args params) ∧
      (f.Dead c ∨ args.length = params.length) := by
  obtain ⟨short, length, each⟩ := CallEdge.agrees_spec agrees
  rw [holds.length_eq]
  refine ⟨short, fun checked k v type place type_ => ?_, length.imp_left dead⟩
  rw [holds.length_eq] at type_
  obtain ⟨a, listed⟩ : ∃ a, edge.args[k]? = some a := by
    refine ⟨_, List.getElem?_eq_getElem ?_⟩
    rw [← holds.length_eq]
    exact (List.getElem?_eq_some_iff.mp place).1
  exact ((holds.get place listed).fit (each listed type_)).typed checked

theorem Aligned.waiting_nodup (aligned : Aligned context strict f written extra s)
    (regions : s.regions = r :: outer) (waits : c ∈ r.waiting) :
    (∀ frame ∈ s.frames, frame.target ≠ c) ∧ (∀ d ∈ extra, d ≠ c) ∧
      ∀ q ∈ outer, ∀ d ∈ q.waiting, d ≠ c := by
  have nodup := aligned.opens.nodup
  rw [State.opens, regions, List.flatMap_cons] at nodup
  obtain ⟨_, rest, apart⟩ := List.nodup_append.mp nodup
  obtain ⟨_, regions_, apart'⟩ := List.nodup_append.mp rest
  refine ⟨fun frame member => ?_, fun d member => ?_, fun q region d other => ?_⟩
  · exact apart' _ (List.mem_map_of_mem member) c (List.mem_append_left _ waits)
  · exact apart d member c (List.mem_append_right _ (List.mem_append_left _ waits))
  · exact ((List.nodup_append.mp regions_).2.2 c waits d (List.mem_flatMap.mpr ⟨q, region, other⟩)).symm

theorem Prepared.injective (prepared : Prepared strict f b e r) {i j : Nat}
    (one : r.blocks[i]? = some c) (two : r.blocks[j]? = some c) : i = j := by
  rw [← Array.getElem?_toList] at one two
  obtain ⟨below, _⟩ := List.getElem?_eq_some_iff.mp one
  exact (List.getElem?_inj below prepared.distinct).mp (one.trans two.symm)

theorem opens_perm {h : FuncletCalls} {less : List BlockId} (regions : s.regions = r :: outer)
    (perm : r.waiting.Perm (less ++ OpenRegion.waiting { r with graph := h })) :
    (extra ++ s.opens).Perm (less ++ (extra ++ State.opens
      { s with regions := { r with graph := h } :: outer, builder := b })) := by
  have same : State.opens { s with regions := { r with graph := h } :: outer, builder := b } =
      s.frames.map Frame.target ++
        (OpenRegion.waiting { r with graph := h } ++ outer.flatMap OpenRegion.waiting) := rfl
  rw [same, State.opens, regions, List.flatMap_cons, ← List.append_assoc, ← List.append_assoc extra]
  refine ((perm.append_right _).append_left _).trans ?_
  rw [List.append_assoc less]
  exact List.perm_append_comm_assoc _ _ _

theorem Ready.sealed {ways : List Arrival} {node : FuncletNode} {b' : Ssa.Builder}
    (ready : Ready strict f b e ways node c) (sealed : b.Sealed c b') (formed : b.Formed strict)
    (formed' : b'.Formed strict) (known : node.params.isSome) :
    Ready strict f b' e ways { node with sealed := true } c := by
  obtain ⟨x, present, _, _, arrive⟩ := ready.shape
  have advances : b.Advances f e b' f e fun _ => False := sealed.advances
  have declared : node.params ≠ none := Option.isSome_iff_ne_none.mp known
  refine ⟨⟨{ x with isSealed := true }, by rw [sealed.shape, if_pos rfl, present, Option.map_some], rfl,
    fun undeclared => absurd undeclared declared, arrive.imp fun arrival pred arrives => arrives.grow
      sealed.later sealed.size formed formed' (.refl f)⟩, fun undeclared => absurd undeclared declared,
    fun types known => ⟨advances.hasArguments (ready.takes types known).1, (ready.takes types known).2⟩⟩

/-- What sealing the block of a funclet leaves. -/
structure Completes (context : Context) (strict : Bool) (f : Forest)
    (written : BlockId → Nat → Prop) (extra : List BlockId) (s : State) (r : OpenRegion)
    (outer : List OpenRegion) (index : Nat) (c : BlockId) (t : State) (h : FuncletCalls) : Prop where
  same : t = { s with regions := { r with graph := h } :: outer, builder := t.builder }
  graph : h = { r.graph with nodes := h.nodes }
  nodes : ∀ i, h.nodes[i]? = r.graph.nodes[i]?.map fun node =>
    if i = index then { node with sealed := true } else node
  settled : h.Settled
  sealed : s.builder.Sealed c t.builder
  aligned : Aligned context strict f written extra t

theorem waiting_sealed {h : FuncletCalls} {node : FuncletNode}
    (nodes : ∀ i, h.nodes[i]? = r.graph.nodes[i]?.map fun node =>
      if i = index then { node with sealed := true } else node)
    (present : r.graph.nodes[index]? = some node) (open_ : node.sealed = false)
    (place : r.blocks[index]? = some c) :
    r.waiting.Perm (c :: OpenRegion.waiting { r with graph := h }) := by
  have flags : h.nodes.toList.map FuncletNode.sealed =
      (r.graph.nodes.toList.map FuncletNode.sealed).set index true := by
    refine List.ext_getElem? fun i => ?_
    rw [List.getElem?_map, Array.getElem?_toList, nodes, List.getElem?_set, List.getElem?_map,
      Array.getElem?_toList]
    have below := (Array.getElem?_eq_some_iff.mp present).1
    by_cases here : i = index
    · subst here
      simp [below]
    · simp [here, Ne.symm here]
  rw [OpenRegion.waiting, OpenRegion.waiting, flags]
  refine waitingOf_perm ?_ (by rw [Array.getElem?_toList, place])
  rw [List.getElem?_map, Array.getElem?_toList, present, Option.map_some, open_]

theorem completeFunclet_aligned (aligned : Aligned context strict f written extra s)
    (regions : s.regions = r :: outer) (settled : r.graph.SettledBut index) {node : FuncletNode}
    (present : r.graph.nodes[index]? = some node) (ready : node.ready = true)
    (place : r.blocks[index]? = some c) :
    Ends (completeFunclet index) s (fun _ t =>
      ∃ h, Completes context strict f written extra s r outer index c t h) Refused := by
  rw [completeFunclet, ends_bind]
  refine ends_onGraph regions <| (settled.markComplete_records present ready).mono ?_ fun _ _ => False.elim
  rintro _ h ⟨settled', keeps, derives, graph, nodes⟩
  rw [ends_bind]
  refine ends_openRegion rfl ?_
  rw [ends_bind]
  refine ends_blockOf place ?_
  have prepared := aligned.regions r (by rw [regions]; exact List.mem_cons_self)
  have facts : node.entered = true ∧ node.sealed = false ∧ node.params.isSome ∧
      node.observed = node.declared := by
    simpa [FuncletNode.ready, and_assoc] using ready
  obtain ⟨x, shown, _⟩ := (prepared.nodes present place).shape
  refine ends_onBuilder <| (Ssa.Builder.seal_built aligned.built (Ssa.Builder.lt_of_shape shown)).imp ?_
  rintro _ b ⟨built, sealed⟩
  have formed := aligned.built.sound.formed
  have formed' := built.sound.formed
  have perm := @opens_perm extra s b r outer h [c] regions
    (waiting_sealed nodes present facts.2.1 place)
  have waits : c ∈ r.waiting := OpenRegion.mem_waiting.mpr ⟨index, node, present, place, facts.2.1⟩
  obtain ⟨_, _, others⟩ := aligned.waiting_nodup regions waits
  refine ⟨h, rfl, graph, nodes, settled', sealed, ?_⟩
  refine aligned.carry sealed.advances built rfl rfl rfl (.refl aligned.above)
    (sealed.count.symm ▸ aligned.inside) aligned.within (fun operand member => (aligned.operands
      operand member).grow sealed.later sealed.size formed formed' (.refl f)) aligned.clear
    aligned.dead (fun _ _ => id) (fun q member => ?_) ((aligned.opens.perm perm).sealed sealed)
  rcases List.mem_cons.mp member with rfl | inner
  · have edges : h.edges = r.graph.edges := by rw [graph]
    refine ⟨prepared.count.trans keeps.size_eq.symm, prepared.distinct, prepared.made,
      fun {i later block} found place' => ?_, fun checked => ?_, derives prepared.derived,
      fun {later types} found known => ?_⟩
    · change Ready _ _ _ _ (arrivals r.signature.params h.edges.toList i) _ _
      rw [edges]
      change h.nodes[i]? = some later at found
      rw [nodes] at found
      obtain ⟨before, old, rfl⟩ := Option.map_eq_some_iff.mp found
      have ready' := prepared.nodes old place'
      split
      · rename_i here
        subst here
        cases place.symm.trans place'
        cases present.symm.trans old
        exact ready'.sealed sealed formed formed' facts.2.2.1
      · rename_i other
        refine ready'.move sealed.advances.toProceeds formed formed' (fun _ => ?_) fun _ => id
        have apart : block ≠ c := fun same =>
          other (prepared.injective (by rw [same] at place'; exact place') place)
        rw [sealed.shape, if_neg apart]
    · change (∀ type ∈ r.signature.params, type.isValue = true) ∧ ∀ edge ∈ h.edges, _
      rw [edges]
      exact prepared.known checked
    · change h.nodes[0]? = some later at found
      rw [nodes] at found
      obtain ⟨before, old, rfl⟩ := Option.map_eq_some_iff.mp found
      refine prepared.entry old ?_
      rw [← known]
      split <;> rfl
  · refine (aligned.regions q (by rw [regions]; exact List.mem_cons_of_mem _ inner)).move
      sealed.advances.toProceeds formed formed' (fun d waits' => ?_) fun _ _ => id
    rw [sealed.shape, if_neg (others q inner d waits')]

theorem Ready.congr {ways : List Arrival} {node later : FuncletNode}
    (ready : Ready strict f b e ways node c) (params : later.params = node.params)
    (sealed : later.sealed = node.sealed) : Ready strict f b e ways later c := by
  obtain ⟨shape, sleeps, takes⟩ := ready
  rw [← params] at shape sleeps takes
  rw [← sealed] at shape sleeps
  exact ⟨shape, sleeps, takes⟩

theorem Ready.called {ways : List Arrival} {way : Arrival} {node : FuncletNode} {b' : Ssa.Builder}
    (ready : Ready strict f b e ways node c) (joined : b.Joined e c args b')
    (formed : b.Formed strict) (formed' : b'.Formed strict) (open_ : node.sealed = false)
    (dead : way.polymorphic = true → f.Dead e) (holds : b'.HoldAll strict f e args way.args) :
    Ready strict f b' e (ways ++ [way]) node c := by
  obtain ⟨x, present, sealed, undeclared, arrive⟩ := ready.shape
  obtain ⟨front, _, length, shape⟩ := joined.edge
  have advances : b.Advances f e b' f e fun _ => False :=
    joined.advances present (sealed.trans open_)
  refine ⟨⟨{ x with predecessors := x.predecessors.push ⟨e, front ++ args⟩ },
    by rw [shape, if_pos rfl, present, Option.map_some], sealed, undeclared, ?_⟩, fun none_ =>
    (ready.sleeps none_).imp_right (advances.sleeps (Ssa.Builder.lt_of_shape present) id),
    fun types known => ⟨advances.hasArguments (ready.takes types known).1, (ready.takes types known).2⟩⟩
  rw [Array.toList_push]
  refine List.rel_append (arrive.imp fun arrival pred arrives => arrives.grow joined.later joined.size
    formed formed' (.refl f)) (.cons ⟨dead, fun none_ => ?_⟩ .nil)
  have all := length x present
  rw [undeclared none_, Option.map_none, Option.getD_none, List.length_append] at all
  have bare : front = [] := List.length_eq_zero_iff.mp (by omega)
  rw [bare]
  exact holds

structure Transfers (context : Context) (strict : Bool) (f : Forest)
    (written : BlockId → Nat → Prop) (extra : List BlockId) (s : State) (r : OpenRegion)
    (outer : List OpenRegion) (c : BlockId) (t : State) (h : FuncletCalls) : Prop where
  same : t = { s with regions := { r with graph := h } :: outer, builder := t.builder }
  settled : h.Settled
  grows : s.builder.Grows t.builder
  leads : ∀ a d, t.builder.HasEdge a d → d = c ∧ a = s.current ∨ s.builder.HasEdge a d
  aligned : Aligned context strict f written extra t

theorem waiting_called {h : FuncletCalls} {number : Nat} {backward : Bool}
    (nodes : ∀ i, h.nodes[i]? = r.graph.nodes[i]?.map fun node =>
      if i = index then node.addCall number backward else node) :
    OpenRegion.waiting { r with graph := h } = r.waiting := by
  have flags : h.nodes.toList.map FuncletNode.sealed = r.graph.nodes.toList.map FuncletNode.sealed := by
    refine List.ext_getElem? fun i => ?_
    rw [List.getElem?_map, Array.getElem?_toList, nodes, List.getElem?_map, Array.getElem?_toList,
      Option.map_map]
    refine Option.map_congr fun node _ => ?_
    simp only [Function.comp_apply]
    split <;> rfl
  rw [OpenRegion.waiting, OpenRegion.waiting, flags]

/-- A call of a funclet adds an edge to its block, and leaves those to the other blocks. -/
theorem Prepared.called {edge : CallEdge} {h : FuncletCalls} {node : FuncletNode} {number : Nat}
    {backward : Bool} {b' : Ssa.Builder} (prepared : Prepared strict f b e r)
    (joined : b.Joined e c args b') (formed : b.Formed strict) (formed' : b'.Formed strict)
    (place : r.blocks[index]? = some c) (present : r.graph.nodes[index]? = some node)
    (open_ : node.sealed = false) (target : edge.target = index)
    (edges : h.edges = r.graph.edges.push edge)
    (nodes : ∀ i, h.nodes[i]? = r.graph.nodes[i]?.map fun node =>
      if i = index then node.addCall number backward else node)
    (size : h.size = r.graph.size) (derived : h.Derived)
    (dead : edge.polymorphic = true → f.Dead e) (held : b'.HoldAll strict f e args edge.args)
    (known : strict = true → edge.polymorphic = false → ∀ type ∈ edge.args, type.isValue = true) :
    Prepared strict f b' e { r with graph := h } where
  count := prepared.count.trans size.symm
  distinct := prepared.distinct
  made := prepared.made
  nodes {i later block} found place' := by
    change Ready _ _ _ _ (arrivals r.signature.params h.edges.toList i) _ _
    change h.nodes[i]? = some later at found
    rw [nodes] at found
    obtain ⟨before, old, rfl⟩ := Option.map_eq_some_iff.mp found
    have ready := prepared.nodes old place'
    rw [edges, arrivals_push, target]
    by_cases here : i = index
    · subst here
      cases place.symm.trans place'
      cases present.symm.trans old
      rw [if_pos rfl, if_pos rfl]
      exact (ready.called joined formed formed' open_ dead held).congr rfl rfl
    · have apart : block ≠ c := fun same =>
        here (prepared.injective (by rw [same] at place'; exact place') place)
      obtain ⟨_, _, _, shape⟩ := joined.edge
      obtain ⟨x, shown, sealed, _⟩ := (prepared.nodes present place).shape
      rw [if_neg here, if_neg (fun same => here same.symm), List.append_nil]
      exact ready.move (joined.advances shown (sealed.trans open_)).toProceeds formed formed'
        (fun _ => by rw [shape, if_neg apart]) fun _ => id
  known checked := by
    change (∀ type ∈ r.signature.params, type.isValue = true) ∧ ∀ edge ∈ h.edges, _
    rw [edges]
    refine ⟨(prepared.known checked).1, fun edge' listed direct => ?_⟩
    rcases Array.mem_push.mp listed with old | rfl
    · exact (prepared.known checked).2 edge' old direct
    · exact known checked direct
  derived := derived
  entry {later types} found declared := by
    change h.nodes[0]? = some later at found
    rw [nodes] at found
    obtain ⟨before, old, rfl⟩ := Option.map_eq_some_iff.mp found
    refine prepared.entry old ?_
    rw [← declared]
    split <;> rfl

theorem transferTo_aligned {operands : List Operand} {polymorphic : Bool}
    (aligned : Aligned context strict f written extra s) (regions : s.regions = r :: outer)
    (settled : r.graph.Settled) (inside : index < r.graph.size)
    (backs : ∀ operand ∈ operands, s.builder.Backs strict f s.current operand)
    (known : strict = true → polymorphic = false → ∀ operand ∈ operands, operand.type ≠ .any)
    (dead : polymorphic = true → f.Dead s.current)
    (within : ∀ e, f[r.exit]? = some (some e) → f.Within s.current e)
    (place : r.blocks[index]? = some c) (fresh : ¬ s.builder.HasEdge s.current c) :
    Ends (transferTo index operands polymorphic) s (fun _ t =>
      ∃ h, Transfers context strict f written extra s r outer c t h) Refused := by
  rw [transferTo, ends_bind, ends_get, ends_bind]
  refine ends_onGraph regions <| (FuncletCalls.call_records settled inside).imp ?_
  rintro last h ⟨but, keeps, derives, graph, nodes, node, present, open_, agrees, later, present', ready⟩
  rw [ends_bind]
  refine ends_openRegion rfl ?_
  rw [ends_bind]
  refine ends_blockOf place ?_
  rw [ends_bind]
  refine ends_valuesOf <| (aligned.supply backs).imp ?_
  rintro vs b ⟨aligned₁, aside, holds⟩
  have prepared := aligned₁.regions r (by rw [regions]; exact List.mem_cons_self)
  have ready₁ := prepared.nodes present place
  obtain ⟨x, shown, sealed, undeclared, _⟩ := ready₁.shape
  have isOpen : x.isSealed = false := sealed.trans open_
  obtain ⟨e, made, each⟩ := prepared.made
  have fits : x.args = none ∨ ∃ types, b.HasArguments c types ∧ vs.length ≤ types.length ∧
      (strict = true → b.Suits vs types) ∧ (f.Dead s.current ∨ vs.length = types.length) := by
    cases params : node.params with
    | none => exact .inl (undeclared params)
    | some types => exact .inr ⟨types, (ready₁.takes types params).1,
        fits_of_agrees (agrees types params) dead holds⟩
  rw [ends_bind]
  refine ends_branchTo <| (Ssa.Builder.connect_built aligned₁.built aligned₁.inside shown isOpen holds.mem
    fits ((within e made).imp_right fun under => ⟨e, each c (Array.mem_of_getElem? place), under⟩)
    ((Ssa.Builder.not_hasEdge_iff shown).mp (by rwa [aside.hasEdge]))).imp ?_
  rintro _ b' ⟨built, joined⟩
  have formed := aligned₁.built.sound.formed
  have formed' := built.sound.formed
  have waits : c ∈ r.waiting := OpenRegion.mem_waiting.mpr ⟨index, node, present, place, open_⟩
  obtain ⟨_, _, others⟩ := aligned₁.waiting_nodup regions waits
  have perm := @opens_perm extra { s with builder := b } b' r outer h [] regions
    (by rw [waiting_called nodes]; exact .refl _)
  -- The call and the edge are recorded in one step, so the funclet has as many of the one as of the other.
  have aligned₂ : Aligned context strict f written extra
      { s with regions := { r with graph := h } :: outer, builder := b' } := by
    refine aligned₁.carry (joined.advances shown isOpen) built rfl rfl rfl (.refl aligned.above)
      (joined.count.symm ▸ aligned₁.inside) aligned.within (fun operand member => (aligned₁.operands
        operand member).grow joined.later joined.size formed formed' (.refl f)) aligned.clear
      aligned.dead (fun _ _ => id) (fun q member => ?_) ((aligned₁.opens.joined joined).perm perm)
    rcases List.mem_cons.mp member with rfl | inner
    · have edges : h.edges = r.graph.edges.push
          (r.graph.callEdge index (operands.map Operand.type) polymorphic s.start) := by rw [graph]
      refine prepared.called joined formed formed' place present open_ rfl edges nodes keeps.size_eq
        (derives prepared.derived) dead (holds.grow joined.later joined.size formed formed' (.refl f))
        fun checked direct type carried => ?_
      obtain ⟨operand, given, rfl⟩ := List.mem_map.mp carried
      exact (backs operand given).isValue checked (known checked direct operand given)
    · obtain ⟨_, _, _, shape⟩ := joined.edge
      refine (aligned₁.regions q (by rw [regions]; exact List.mem_cons_of_mem _ inner)).move
        (joined.advances shown isOpen).toProceeds formed formed' (fun d waits' => ?_) fun _ _ => id
      rw [shape, if_neg (others q inner d waits')]
  have leads (a d : BlockId) (leads : b'.HasEdge a d) : d = c ∧ a = s.current ∨ s.builder.HasEdge a d :=
    (joined.hasEdge leads).imp_right aside.hasEdge.mp
  have grows := aside.grows.trans joined.grows
  -- With the last of its calls the funclet is complete, and its block is sealed.
  rw [ends_ite]
  refine ⟨fun isLast => ?_, fun waits => ends_pure.mpr ?_⟩
  · refine (completeFunclet_aligned aligned₂ rfl but present' (ready.trans isLast) place).imp ?_
    rintro _ t ⟨h', completes⟩
    exact ⟨h', by rw [completes.same], completes.settled, grows.trans completes.sealed.grows,
      fun a d leads' => leads a d (completes.sealed.hasEdge leads'), completes.aligned⟩
  · exact ⟨h, rfl, but.settled present' (ready.trans (by simpa using waits)), grows, leads, aligned₂⟩

end Validation

end WasmFunclets
