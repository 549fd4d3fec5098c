import WasmFunclets.Proofs.Lasting

/-! A validation records where its lines stand, and which funclets have a header, but it looks at neither:
with other offsets and another mark it goes on alike. -/

namespace WasmFunclets

open Attempt

/-- Moves the offsets that are recorded, and sets the mark of one funclet: the one with the index in the
region at home. -/
structure Relabelling where
  move : Nat → Nat
  home : Nat
  index : Nat
  explicit : Bool

namespace Relabelling

def mark (ρ : Relabelling) (offset index : Nat) (explicit : Bool) : Bool :=
  if offset = ρ.home ∧ index = ρ.index then ρ.explicit else explicit

def edge (ρ : Relabelling) (e : CallEdge) : CallEdge := { e with offset := ρ.move e.offset }

def node (ρ : Relabelling) (offset index : Nat) (n : FuncletNode) : FuncletNode :=
  { n with explicit := ρ.mark offset index n.explicit }

def graph (ρ : Relabelling) (offset : Nat) (g : FuncletCalls) : FuncletCalls :=
  { g with nodes := g.nodes.mapIdx (ρ.node offset), edges := g.edges.map ρ.edge }

def openRegion (ρ : Relabelling) (r : OpenRegion) : OpenRegion :=
  { r with offset := ρ.move r.offset, graph := ρ.graph r.offset r.graph }

def funclet (ρ : Relabelling) (offset : Nat) (f : Funclet) : Funclet :=
  { f with explicit := ρ.mark offset f.index f.explicit }

def region (ρ : Relabelling) (r : Region) : Region :=
  { r with
    offset := ρ.move r.offset
    funclets := r.funclets.map (ρ.funclet r.offset)
    edges := r.edges.map ρ.edge }

def cursor (ρ : Relabelling) (c : Cursor) : Cursor := ⟨ρ.move c.offset, c.rest⟩

/-- From an offset on, which is behind home, all is moved alike. -/
structure Rigid (ρ : Relabelling) (first : Nat) : Prop where
  behind : ρ.home < first
  onward : ∀ a b, first ≤ a → ρ.move (a + b) = ρ.move a + b

variable {ρ : Relabelling} {g h : FuncletCalls} {offset place index declared : Nat} {explicit : Bool}
variable {params args : List ValueType} {polymorphic last : Bool} {node : FuncletNode}

theorem mark_other (other : ¬ (offset = ρ.home ∧ index = ρ.index)) :
    ρ.mark offset index explicit = explicit := if_neg other

theorem node_at : (ρ.graph offset g).nodes[index]? = g.nodes[index]?.map (ρ.node offset index) :=
  Array.getElem?_mapIdx

theorem modify_nodes {nodes : Array FuncletNode} {change change' : FuncletNode → FuncletNode}
    (commutes : ∀ n, nodes[index]? = some n →
      ρ.node offset index (change n) = change' (ρ.node offset index n)) :
    (nodes.modify index change).mapIdx (ρ.node offset) =
      (nodes.mapIdx (ρ.node offset)).modify index change' := by
  refine Array.ext_getElem? fun i => ?_
  rw [Array.getElem?_mapIdx, Array.getElem?_modify, Array.getElem?_modify, Array.getElem?_mapIdx]
  split
  · rename_i here
    subst here
    cases present : nodes[index]? with
    | none => rfl
    | some n => exact congrArg some (commutes n present)
  · rfl

theorem graph_away (away : offset ≠ ρ.home)
    (still : ∀ call ∈ g.edges, ρ.move call.offset = call.offset) : ρ.graph offset g = g := by
  have nodes : g.nodes.mapIdx (ρ.node offset) = g.nodes := by
    refine Array.ext_getElem? fun i => ?_
    rw [Array.getElem?_mapIdx]
    cases g.nodes[i]? with
    | none => rfl
    | some n => simp [Relabelling.node, mark, away]
  have edges : g.edges.map ρ.edge = g.edges := by
    refine (Array.map_congr_left fun call member => ?_).trans (Array.map_id _)
    rw [edge, still call member]
    rfl
  rw [graph, nodes, edges]

theorem graph_size : (ρ.graph offset g).size = g.size := Array.size_mapIdx

theorem graph_enter (ok : FuncletCalls.enter index g = .ok () h) :
    FuncletCalls.enter index (ρ.graph offset g) = .ok () (ρ.graph offset h) := by
  obtain ⟨⟨next, inside⟩, rfl⟩ := FuncletCalls.enter_ok.mp ok
  refine FuncletCalls.enter_ok.mpr ⟨⟨next, graph_size.symm ▸ inside⟩, ?_⟩
  refine congrArg (FuncletCalls.mk · (g.edges.map ρ.edge) (g.visited + 1) index) ?_
  dsimp only [graph]
  exact modify_nodes fun _ _ => rfl

theorem graph_call (ok : FuncletCalls.call index args polymorphic place g = .ok last h) :
    FuncletCalls.call index args polymorphic (ρ.move place) (ρ.graph offset g) =
      .ok last (ρ.graph offset h) := by
  obtain ⟨node, present, takes, rfl, same⟩ := FuncletCalls.call_ok.mp ok
  refine FuncletCalls.call_ok.mpr ⟨ρ.node offset index node, ?_, takes, ?_, ?_⟩
  · rw [node_at, present, Option.map_some]
  · have edges : (ρ.graph offset g).edges.size = g.edges.size := Array.size_map
    rw [edges]
    refine congrArg₂ (FuncletCalls.mk · · g.visited g.current) ?_ Array.map_push
    dsimp only [graph]
    exact modify_nodes fun _ _ => rfl
  · have edges : (ρ.graph offset g).edges.size = g.edges.size := Array.size_map
    rw [edges]
    exact same

theorem graph_complete (ok : FuncletCalls.markComplete index g = .ok () h) :
    FuncletCalls.markComplete index (ρ.graph offset g) = .ok () (ρ.graph offset h) := by
  obtain ⟨node, present, same⟩ := FuncletCalls.markComplete_ok.mp ok
  have present' : (ρ.graph offset g).nodes[index]? = some (ρ.node offset index node) := by
    rw [node_at, present, Option.map_some]
  refine FuncletCalls.markComplete_ok.mpr ⟨_, present', ?_⟩
  rcases same with ⟨done, rfl⟩ | ⟨open_, ready, rfl⟩
  · exact .inl ⟨done, rfl⟩
  · refine .inr ⟨open_, ready, ?_⟩
    refine congrArg (FuncletCalls.mk · (g.edges.map ρ.edge) g.visited g.current) ?_
    dsimp only [graph]
    exact modify_nodes fun _ _ => rfl

theorem graph_finish (ok : FuncletCalls.finish g = .ok () h) :
    FuncletCalls.finish (ρ.graph offset g) = .ok () (ρ.graph offset h) := by
  obtain ⟨⟨visited, nodes, edges⟩, rfl⟩ := FuncletCalls.finish_ok.mp ok
  refine FuncletCalls.finish_ok.mpr ⟨⟨visited.trans graph_size.symm, fun node member => ?_, ?_⟩, rfl⟩
  · obtain ⟨i, there⟩ := Array.mem_iff_getElem?.mp member
    rw [node_at] at there
    obtain ⟨node, present, rfl⟩ := Option.map_eq_some_iff.mp there
    exact nodes node (Array.mem_of_getElem? present)
  · simpa [graph, edge] using edges

theorem graph_ready {isReady : Bool} (ok : FuncletCalls.ready index g = .ok isReady h) :
    FuncletCalls.ready index (ρ.graph offset g) = .ok isReady (ρ.graph offset h) := by
  simp only [FuncletCalls.ready, FuncletCalls.nodeAt, bind_ok, get_ok, inRange_ok, pure_ok] at ok ⊢
  obtain ⟨node, _, ⟨_, _, ⟨rfl, rfl⟩, present, rfl⟩, same, rfl⟩ := ok
  refine ⟨ρ.node offset index node, _, ⟨_, _, ⟨rfl, rfl⟩, ?_, rfl⟩, same, rfl⟩
  rw [node_at, present, Option.map_some]

theorem graph_checkIncoming {numbers : List Nat}
    (ok : FuncletCalls.checkIncoming index params numbers g = .ok () h) :
    FuncletCalls.checkIncoming index params numbers (ρ.graph offset g) =
      .ok () (ρ.graph offset h) := by
  induction numbers generalizing g with
  | nil =>
      obtain ⟨_, rfl⟩ := pure_ok.mp ok
      rfl
  | cons n rest ih =>
      rw [FuncletCalls.checkIncoming, get_bind_ok] at ok ⊢
      have there : (ρ.graph offset g).edges[n]? = g.edges[n]?.map ρ.edge := Array.getElem?_map
      rw [there]
      cases present : g.edges[n]? with
      | none =>
          simp only [present] at ok
          exact ih ok
      | some call =>
          simp only [present, Option.map_some] at ok ⊢
          by_cases checked : call.checked = true
          · simp only [checked, if_true] at ok
            simpa only [edge, checked, if_true] using ih ok
          · by_cases agrees : call.agrees params = true
            · simp only [checked, agrees, if_true, Bool.false_eq_true, if_false] at ok
              have later := ih ok
              have same : ρ.graph offset { g with edges := g.edges.modify n ({ · with checked := true }) } =
                  { ρ.graph offset g with
                    edges := (ρ.graph offset g).edges.modify n ({ · with checked := true }) } := by
                simp only [graph]
                congr 1
                refine Array.ext_getElem? fun i => ?_
                simp only [Array.getElem?_map, Array.getElem?_modify]
                split
                · cases g.edges[i]? <;> rfl
                · rfl
              rw [same] at later
              have agrees' : (ρ.edge call).agrees params = true := agrees
              have checked' : (ρ.edge call).checked ≠ true := checked
              simp only [checked', agrees', if_true, Bool.false_eq_true, if_false]
              exact later
            · simp [checked, agrees] at ok

theorem graph_awaitsParams {edges : Array CallEdge} (awaits : g.AwaitsParams index node params edges) :
    (ρ.graph offset g).AwaitsParams index (ρ.node offset index node) params (edges.map ρ.edge) where
  present := by rw [node_at, awaits.present, Option.map_some]
  entered := awaits.entered
  undeclared := awaits.undeclared
  agree := graph_checkIncoming awaits.agree

theorem graph_settled {edges : Array CallEdge} {change change' : FuncletNode → FuncletNode}
    (commutes : ∀ n, g.nodes[index]? = some n →
      ρ.node offset index (change n) = change' (ρ.node offset index n)) :
    ρ.graph offset (g.settled index change edges) =
      (ρ.graph offset g).settled index change' (edges.map ρ.edge) := by
  simp only [graph, FuncletCalls.settled, modify_nodes commutes]

theorem graph_declare (other : ¬ (offset = ρ.home ∧ index = ρ.index))
    (ok : FuncletCalls.declare index params declared explicit g = .ok () h) :
    FuncletCalls.declare index params declared explicit (ρ.graph offset g) =
      .ok () (ρ.graph offset h) := by
  obtain ⟨node, edges, awaits, rfl⟩ := FuncletCalls.declare_ok.mp ok
  refine FuncletCalls.declare_ok.mpr ⟨_, _, graph_awaitsParams awaits, graph_settled fun n _ => ?_⟩
  simp only [Relabelling.node, mark_other other]

theorem graph_edgesTo : (ρ.graph offset g).edgesTo (ρ.node offset index node) =
    (g.edgesTo node).map ρ.edge := by
  simp only [FuncletCalls.edgesTo, graph, Array.getElem?_map, List.map_filterMap]
  rfl

theorem graph_infer (ok : FuncletCalls.infer index g = .ok params h) :
    FuncletCalls.infer index (ρ.graph offset g) = .ok params (ρ.graph offset h) := by
  obtain ⟨node, edges, call, awaits, found, args, rfl⟩ := FuncletCalls.infer_ok.mp ok
  refine FuncletCalls.infer_ok.mpr ⟨_, _, ρ.edge call, graph_awaitsParams awaits, ?_, args,
    graph_settled fun n _ => rfl⟩
  rw [graph_edgesTo, List.find?_map]
  exact congrArg (Option.map ρ.edge) found

theorem region_recordedAs {q : OpenRegion} {r : Region} (yields : Validation.OpenRegion.RecordedAs q r) :
    Validation.OpenRegion.RecordedAs (ρ.openRegion q) (ρ.region r) where
  signature := yields.signature
  depth := yields.depth
  offset := congrArg ρ.move yields.offset
  edges := congrArg (Array.map ρ.edge) yields.edges
  exit := yields.exit
  funclets := by
    have size : (ρ.openRegion q).graph.size = q.graph.size := graph_size
    rw [size]
    refine List.forall₂_map_right_iff.mpr (yields.funclets.imp ?_)
    rintro i _ ⟨node, params, block, present, known, place, rfl⟩
    refine ⟨ρ.node q.offset i node, params, block, ?_, known, place, ?_⟩
    · exact node_at.trans (congrArg (Option.map _) present)
    · rw [yields.offset]
      rfl

end Relabelling

namespace Validation

variable {α β : Type} {ρ : Relabelling} {setting other : Setting} {s t u : State} {c d : Cursor}
variable {index n : Nat} {params : List ValueType} {header : Option Decode.FuncletHeader}

def State.relabelled (ρ : Relabelling) (s : State) : State :=
  { s with
    start := ρ.move s.start
    regions := s.regions.map ρ.openRegion
    closed := s.closed.map ρ.region }

/-- A part of an instruction that does not stand at home goes alike in the relabelled state. -/
def Carried (ρ : Relabelling) (m : Step α) : Prop :=
  ∀ s a t, s.start ≠ ρ.home → m s = .ok a t →
    t.start = s.start ∧ m (s.relabelled ρ) = .ok a (t.relabelled ρ)

theorem carried_bind {m : Step α} {f : α → Step β} (first : Carried ρ m)
    (rest : ∀ a, Carried ρ (f a)) : Carried ρ (m >>= f) := by
  intro s b t away ok
  obtain ⟨a, u, ok, more⟩ := bind_ok.mp ok
  obtain ⟨start, ok'⟩ := first s a u away ok
  obtain ⟨start', more'⟩ := rest a u b t (start.symm ▸ away) more
  exact ⟨start'.trans start, bind_ok.mpr ⟨a, _, ok', more'⟩⟩

theorem carried_look {view : State → α} (same : ∀ s, view (s.relabelled ρ) = view s) :
    Carried ρ (do return view (← get) : Step α) := by
  intro s a t _ ok
  cases ok
  exact ⟨rfl, congrArg (EStateM.Result.ok · (s.relabelled ρ)) (same s)⟩

theorem carried_onGraph {change : Attempt FuncletCalls α}
    (carries : ∀ offset g a h, change g = .ok a h →
      change (ρ.graph offset g) = .ok a (ρ.graph offset h)) : Carried ρ (onGraph change) := by
  intro s a t _ ok
  obtain ⟨r, outer, g, regions, changed, rfl⟩ := onGraph_ok.mp ok
  refine ⟨rfl, onGraph_ok.mpr ⟨ρ.openRegion r, outer.map ρ.openRegion, ρ.graph r.offset g, ?_,
    carries _ _ _ _ changed, rfl⟩⟩
  change s.regions.map ρ.openRegion = _
  rw [regions, List.map_cons]

theorem carried_innermost : Carried ρ innermost := by
  intro s a t _ ok
  obtain ⟨found, rfl⟩ := innermost_ok.mp ok
  exact ⟨rfl, innermost_ok.mpr ⟨found, rfl⟩⟩

theorem carried_lookRegion : Carried ρ regionView := by
  intro s a t _ ok
  obtain ⟨r, _, look, ok⟩ := bind_ok.mp ok
  obtain ⟨head, rfl⟩ := openRegion_ok.mp look
  obtain ⟨rfl, rfl⟩ := pure_ok.mp ok
  refine ⟨rfl, bind_ok.mpr ⟨ρ.openRegion r, _, openRegion_ok.mpr ⟨?_, rfl⟩, ?_⟩⟩
  · change (s.regions.map ρ.openRegion).head? = _
    rw [List.head?_map, head, Option.map_some]
  · have size : (ρ.openRegion r).graph.size = r.graph.size := Relabelling.graph_size
    refine pure_ok.mpr ⟨?_, rfl⟩
    unfold OpenRegion.view
    rw [size]
    rfl

theorem carried_closeRegion : Carried ρ closeRegion := by
  intro s _ t _ ok
  obtain ⟨r, outer, g, frame, results, entry, b, c, regions, finished, top, sealed_, listed, yields, rfl⟩ :=
    closeRegion_ok ok
  obtain ⟨_, rfl⟩ := FuncletCalls.finish_ok.mp finished
  have regions' : (s.relabelled ρ).regions = ρ.openRegion r :: outer.map ρ.openRegion := by
    change s.regions.map ρ.openRegion = _
    rw [regions, List.map_cons]
  have shut := closeRegion_of_ok (s := s.relabelled ρ) regions' (Relabelling.graph_finish finished) top
    sealed_ listed (Relabelling.region_recordedAs yields)
  refine ⟨rfl, shut.trans (congrArg (EStateM.Result.ok ()) ?_)⟩
  simp only [State.shut, State.relabelled, Array.map_push]
  rfl

theorem carried_parts (ρ : Relabelling) : Parts True (Carried ρ) where
  pure a := fun s _ t _ ok => by
    obtain ⟨rfl, rfl⟩ := pure_ok.mp ok
    exact ⟨rfl, rfl⟩
  throw e := fun _ _ _ _ ok => (throw_ok.mp ok).elim
  bind := carried_bind
  stack change := fun s _ t _ ok => by
    obtain ⟨_, changed, rfl⟩ := onStack_ok.mp ok
    exact ⟨rfl, onStack_ok.mpr ⟨_, changed, rfl⟩⟩
  builder change := fun s _ t _ ok => by
    obtain ⟨_, changed, rfl⟩ := onBuilder_ok.mp ok
    exact ⟨rfl, onBuilder_ok.mpr ⟨_, changed, rfl⟩⟩
  control change := fun s _ t _ ok => by
    obtain rfl := modify_ok.mp ok
    exact ⟨rfl, rfl⟩
  move block := fun s _ t _ ok => by
    obtain rfl := moveTo_ok.mp ok
    exact ⟨rfl, rfl⟩
  lookStack := carried_look fun _ => rfl
  lookControl := carried_look fun _ => rfl
  lookCurrent := carried_look fun _ => rfl
  lookExit := carried_look fun _ => rfl
  lookRegion := carried_lookRegion
  lookRegions := carried_look fun _ => List.isEmpty_map
  call _ target args polymorphic := fun s last t _ ok => by
    obtain ⟨r, outer, g, regions, called, rfl⟩ := onGraph_ok.mp ok
    refine ⟨rfl, onGraph_ok.mpr ⟨ρ.openRegion r, outer.map ρ.openRegion, ρ.graph r.offset g, ?_,
      Relabelling.graph_call called, rfl⟩⟩
    change s.regions.map ρ.openRegion = _
    rw [regions, List.map_cons]
  complete index := carried_onGraph fun _ _ _ _ => Relabelling.graph_complete
  enter {funclets graph} sized signature depth blocks exit base := fun s _ t away ok => by
    obtain rfl := modify_ok.mp ok
    have same : ρ.graph s.start graph = graph := by
      refine Relabelling.graph_away away fun call member => ?_
      rw [(FuncletCalls.coherent_of_size sized).2.2.2.2.1] at member
      simp at member
    refine ⟨rfl, modify_ok.mpr ?_⟩
    simp only [State.relabelled, List.map_cons, Relabelling.openRegion, same]
  close := carried_closeRegion

theorem carried_beginFunclet (index : Nat) (params : List ValueType) :
    Carried ρ (beginFunclet index params) := by
  have parts := carried_parts ρ
  have moved (block : BlockId) : Carried ρ (do
      moveTo block
      let args ← onBuilder (Ssa.Builder.args block)
      onStack (TypedStack.reset (TypedStack.withValues params (args.map some)))) :=
    carried_bind (parts.move _) fun _ => carried_bind (parts.builder _) fun _ => parts.stack _
  have same : beginFunclet index params = (do
      let frame ← innermost
      require (index ≠ 0 ∨ params = frame.signature.params)
        (.regionParams params frame.signature.params)
      let block ← openRegion >>= fun r => blockOf r index
      onBuilder (Ssa.Builder.declareArguments block params)
      if ← onGraph (FuncletCalls.ready index) then completeFunclet index
      moveTo block
      let args ← onBuilder (Ssa.Builder.args block)
      onStack (TypedStack.reset (TypedStack.withValues params (args.map some)))) := by
    simp only [beginFunclet, bind_assoc]
  rw [same]
  refine carried_bind carried_innermost fun _ => carried_bind (parts.require _ _) fun _ =>
    carried_bind (parts.blockOf index) fun block => carried_bind (parts.builder _) fun _ =>
      carried_bind (carried_onGraph fun _ _ _ _ => Relabelling.graph_ready) fun ready => ?_
  exact parts.ite (carried_bind (parts.completeFunclet index) fun _ => moved block) (moved block)

/-- In the region at home the funclet with the mark is behind the one at hand. -/
def Elapsed (ρ : Relabelling) (regions : List OpenRegion) : Prop :=
  ∀ r ∈ regions, r.offset = ρ.home → ρ.index < r.graph.visited

theorem Elapsed.grown {r : OpenRegion} {outer : List OpenRegion} {g : FuncletCalls}
    (elapsed : Elapsed ρ (r :: outer)) (more : r.graph.visited ≤ g.visited) :
    Elapsed ρ ({ r with graph := g } :: outer) := by
  intro q member home
  rcases List.mem_cons.mp member with rfl | old
  · exact Nat.lt_of_lt_of_le (elapsed r List.mem_cons_self home) more
  · exact elapsed q (List.mem_cons_of_mem _ old) home

theorem startsKeep_elapsed (ρ : Relabelling) :
    StartsKeep True (· ≠ ρ.home) fun regions _ => Elapsed ρ regions where
  call _ _ elapsed ok := by
    obtain ⟨_, _, _, rfl, _⟩ := FuncletCalls.call_ok.mp ok
    exact elapsed.grown (Nat.le_refl _)
  complete elapsed ok := by
    obtain ⟨_, _, ⟨_, rfl⟩ | ⟨_, _, rfl⟩⟩ := FuncletCalls.markComplete_ok.mp ok
    · exact elapsed
    · exact elapsed.grown (Nat.le_refl _)
  opens away elapsed _ := by
    intro q member home
    rcases List.mem_cons.mp member with rfl | old
    · exact absurd home away
    · exact elapsed q old home
  closes elapsed _ _ := fun q member => elapsed q (List.mem_cons_of_mem _ member)
  enter elapsed ok := by
    obtain ⟨_, rfl⟩ := FuncletCalls.enter_ok.mp ok
    exact elapsed.grown (Nat.le_succ _)
  declare elapsed ok := by
    obtain ⟨_, _, _, rfl⟩ := FuncletCalls.declare_ok.mp ok
    exact elapsed.grown (Nat.le_refl _)
  infer elapsed ok := by
    obtain ⟨_, _, _, _, _, _, rfl⟩ := FuncletCalls.infer_ok.mp ok
    exact elapsed.grown (Nat.le_refl _)

theorem settleFunclet_relabelled
    (unmarked : ∀ r outer, s.regions = r :: outer → ¬ (r.offset = ρ.home ∧ index = ρ.index))
    (ok : settleFunclet index header s = .ok params t) :
    settleFunclet index header (s.relabelled ρ) = .ok params (t.relabelled ρ) := by
  have declares {types : List ValueType} {declared : Nat} {explicit : Bool} {u : State}
      (ok : onGraph (FuncletCalls.declare index types declared explicit) s = .ok () u) :
      onGraph (FuncletCalls.declare index types declared explicit) (s.relabelled ρ) =
        .ok () (u.relabelled ρ) := by
    obtain ⟨r, outer, g, regions, declared, rfl⟩ := onGraph_ok.mp ok
    refine onGraph_ok.mpr ⟨ρ.openRegion r, outer.map ρ.openRegion, ρ.graph r.offset g, ?_,
      Relabelling.graph_declare (unmarked r outer regions) declared, rfl⟩
    change s.regions.map ρ.openRegion = _
    rw [regions, List.map_cons]
  cases header with
  | some header =>
      obtain ⟨_, u, declared, done⟩ := bind_ok.mp ok
      obtain ⟨rfl, rfl⟩ := pure_ok.mp done
      exact bind_ok.mpr ⟨(), _, declares declared, rfl⟩
  | none =>
      unfold settleFunclet at ok ⊢
      dsimp only at ok ⊢
      split at ok
      · rename_i first
        obtain ⟨_, u, declared, done⟩ := bind_ok.mp ok
        obtain ⟨rfl, rfl⟩ := pure_ok.mp done
        rw [if_pos first]
        exact bind_ok.mpr ⟨(), _, declares declared, rfl⟩
      · rename_i later
        rw [if_neg later]
        obtain ⟨r, outer, g, regions, inferred, rfl⟩ := onGraph_ok.mp ok
        refine onGraph_ok.mpr ⟨ρ.openRegion r, outer.map ρ.openRegion, ρ.graph r.offset g, ?_,
          Relabelling.graph_infer inferred, rfl⟩
        change s.regions.map ρ.openRegion = _
        rw [regions, List.map_cons]

/-- A funclet behind the one with the mark starts alike where the same header is read. -/
theorem startFunclet_relabelled (elapsed : Elapsed ρ s.regions) (away : s.cursor.offset ≠ ρ.home)
    (ok : startFunclet setting index s = .ok () t)
    (read : Decode.funcletHeader setting s.cursor = .ok header t.cursor)
    (offset : c.offset = ρ.move s.cursor.offset)
    (read' : Decode.funcletHeader other c = .ok header d) (n : Nat) :
    startFunclet other index ((s.relabelled ρ).moved c n) =
      .ok () ((t.relabelled ρ).moved d (n + counted header)) := by
  obtain ⟨u, found, e, params, v, entered, first, settled, began⟩ := startFunclet_reads.mp ok
  obtain ⟨rfl, rfl⟩ := EStateM.Result.ok.inj (read.symm.trans first)
  have enters : Carried ρ (onGraph (FuncletCalls.enter index)) :=
    carried_onGraph fun _ _ _ _ => Relabelling.graph_enter
  obtain ⟨start, entered'⟩ := enters { s with start := s.cursor.offset } () u away entered
  have unmarked : ∀ r outer, u.regions = r :: outer → ¬ (r.offset = ρ.home ∧ index = ρ.index) := by
    obtain ⟨r, outer, g, regions, enter, rfl⟩ := onGraph_ok.mp entered
    obtain ⟨⟨next, _⟩, rfl⟩ := FuncletCalls.enter_ok.mp enter
    rintro q rest same ⟨home, index⟩
    obtain ⟨rfl, rfl⟩ := List.cons.inj same
    have before := elapsed r (regions ▸ List.mem_cons_self) home
    omega
  have settled' := settleFunclet_relabelled (s := u.moved t.cursor (s.decoded + counted header))
    unmarked settled
  have leaves : Leaves State.start (settleFunclet index header) := by
    cases header with
    | some header => exact along_bind (onGraph_leaves (fun _ _ => rfl) _) fun _ => along_pure _
    | none =>
        exact along_ite (along_bind (onGraph_leaves (fun _ _ => rfl) _) fun _ => along_pure _)
          (onGraph_leaves (fun _ _ => rfl) _)
  have still : v.start ≠ ρ.home := by
    rw [leaves.of_ok settled]
    exact start ▸ away
  obtain ⟨-, began'⟩ := @carried_beginFunclet ρ index params v () t still began
  refine startFunclet_reads.mpr ⟨(u.relabelled ρ).moved c n, header, d, params,
    (v.relabelled ρ).moved d (n + counted header), ?_, read',
    (blind_settleFunclet _ _).of_ok settled' _ _, (blind_beginFunclet _ _).of_ok began' _ _⟩
  rw [← (blind_onGraph _).of_ok entered' c n]
  simp only [State.moved, State.relabelled, offset]

theorem resolve_relabelled (setting : Setting) (s : State) (line : Line) :
    Decode.resolve (scopeOf setting (s.relabelled ρ)) line =
      Decode.resolve (scopeOf setting s) line := by
  have head : (s.regions.map ρ.openRegion).head?.map OpenRegion.graph =
      s.regions.head?.map fun r => ρ.graph r.offset r.graph := by
    rw [List.head?_map, Option.map_map]
    rfl
  unfold scopeOf State.relabelled
  simp only [head]
  cases s.regions.head? with
  | none => rfl
  | some r =>
      have leads : (ρ.graph r.offset r.graph).target? = r.graph.target? := by
        funext delta
        have size : (ρ.graph r.offset r.graph).size = r.graph.size := Relabelling.graph_size
        simp only [FuncletCalls.target?, size]
        rfl
      exact @Decode.resolve_targets ⟨_, _, _, none⟩ _ _ leads line

theorem instruction_relabelled {first : Nat} {i : Instruction} (rigid : ρ.Rigid first)
    (behind : first ≤ s.cursor.offset)
    (decoded : Decode.instruction (scopeOf setting s) s.cursor = .ok i c) :
    Decode.instruction (scopeOf setting (s.relabelled ρ)) (ρ.cursor s.cursor) =
      .ok i (ρ.cursor c) := by
  obtain ⟨⟨e, written, split, offset⟩, within⟩ := Decode.instruction_ok.mp decoded
  refine Decode.instruction_ok.mpr ⟨⟨e, ?_, split, ?_⟩, within⟩
  · simpa only [Decode.OfInstruction, resolve_relabelled] using written
  · change ρ.move c.offset = ρ.move s.cursor.offset + e.length
    rw [offset, rigid.onward _ _ behind]

theorem funcletHeader_relabelled {first : Nat} (rigid : ρ.Rigid first) (behind : first ≤ c.offset)
    (read : Decode.funcletHeader setting c = .ok header d) :
    Decode.funcletHeader setting (ρ.cursor c) = .ok header (ρ.cursor d) := by
  cases header with
  | none =>
      obtain ⟨rfl, other⟩ := Decode.funcletHeader_none.mp read
      exact Decode.funcletHeader_none.mpr ⟨rfl, other⟩
  | some header =>
      obtain ⟨e, written, split, offset⟩ := Decode.funcletHeader_some.mp read
      refine Decode.funcletHeader_some.mpr ⟨e, written, split, ?_⟩
      change ρ.move d.offset = ρ.move c.offset + e.length
      rw [offset, rigid.onward _ _ behind]

/-- An iteration behind the funclet with the mark goes alike in the relabelled state. -/
theorem step_relabelled {first k : Nat} (rigid : ρ.Rigid first) (behind : first ≤ s.cursor.offset)
    (elapsed : Elapsed ρ s.regions) (ok : step setting s = .ok () t) (count : t.decoded = s.decoded + k)
    (n : Nat) : step setting ((s.relabelled ρ).moved (ρ.cursor s.cursor) n) =
      .ok () ((t.relabelled ρ).moved (ρ.cursor t.cursor) (n + k)) := by
  obtain ⟨i, c, decoded, executed⟩ := step_ok_iff.mp ok
  have away : s.cursor.offset ≠ ρ.home := Nat.ne_of_gt (Nat.lt_of_lt_of_le rigid.behind behind)
  obtain ⟨lead, made, _, same⟩ := execute_startsLast i
  have blind : Blind lead := made.of_all blind_parts
  rw [show execute setting i = _ from same setting] at executed
  obtain ⟨start, u, led, started⟩ := bind_ok.mp executed
  obtain ⟨-, led'⟩ := made.of_all (carried_parts ρ) (s.fetched c) start u away led
  obtain ⟨-, elapsed⟩ := made.of_all (startsKeep_elapsed ρ).toPartsKeep.parts (s.fetched c) start u away elapsed led
  have decoded' := instruction_relabelled rigid behind decoded
  refine step_ok_iff.mpr ⟨i, ρ.cursor c, decoded', ?_⟩
  rw [show execute setting i = _ from same setting]
  refine bind_ok.mpr ⟨start, _, blind.of_ok led' (ρ.cursor c) (n + 1), ?_⟩
  have cursor : u.cursor = c := blind.cursor led
  have decodes : u.decoded = s.decoded + 1 := blind.decoded led
  cases start with
  | none =>
      obtain ⟨-, rfl⟩ := pure_ok.mp started
      obtain rfl : k = 1 := by omega
      rw [cursor]
      rfl
  | some index =>
      have onward := ((Decode.instruction_consumes _ _).of_ok decoded).1.onward
      rw [← cursor] at onward
      obtain ⟨header, read, more⟩ := startFunclet_header started
      obtain rfl : k = 1 + counted header := by omega
      have read' := funcletHeader_relabelled rigid (Nat.le_trans behind onward) read
      rw [← Nat.add_assoc, ← cursor]
      exact startFunclet_relabelled elapsed (by have := rigid.behind; omega) started read rfl read' _

theorem LineWalk.relabelled {first : Nat} {pieces : List Encoding.Piece} (walk : LineWalk setting s pieces t)
    (rigid : ρ.Rigid first) (behind : first ≤ s.cursor.offset) (elapsed : Elapsed ρ s.regions) (n : Nat) :
    LineWalk setting ((s.relabelled ρ).moved (ρ.cursor s.cursor) n) pieces
      ((t.relabelled ρ).moved (ρ.cursor t.cursor) (n + pieces.length)) := by
  induction walk generalizing n with
  | here s => exact .here _
  | @step s t u p header pieces isOpen ok isHeader consumes walk ih =>
      have onward := consumes.behind.onward
      have away : s.cursor.offset ≠ ρ.home := Nat.ne_of_gt (Nat.lt_of_lt_of_le rigid.behind behind)
      have later := ih (Nat.le_trans behind onward) ((startsKeep_elapsed ρ).step away elapsed ok)
        (n + (p :: header.toList).length)
      rw [List.length_append, ← Nat.add_assoc]
      refine .step isOpen (step_relabelled rigid behind elapsed ok consumes.decoded n) isHeader
        ⟨consumes.rest, ?_, rfl⟩ later
      change ρ.move t.cursor.offset = ρ.move s.cursor.offset + _
      rw [consumes.offset, rigid.onward _ _ behind]

end Validation

end WasmFunclets
