import WasmFunclets.Proofs.Relabelling
import WasmFunclets.Proofs.Starts

/-! The header of a funclet that waits for no calls tells nothing that is not known without it: it can be
put in and left out. -/

namespace WasmFunclets

open Attempt
open Encoding (Piece join Split)

theorem SameCalls.mem {edges later : Array CallEdge} (same : SameCalls edges later)
    {call : CallEdge} (member : call ∈ later) : ∃ old ∈ edges, old.unchecked = call.unchecked := by
  have listed : call.unchecked ∈ edges.map CallEdge.unchecked :=
    same ▸ Array.mem_map_of_mem member
  obtain ⟨old, member, equal⟩ := Array.mem_map.mp listed
  exact ⟨old, member, equal⟩

namespace FuncletCalls

variable {g h : FuncletCalls} {place index : Nat} {node : FuncletNode} {params : List ValueType}

/-- The accounts are in order, funclets without parameters have no header, and all calls stand in front
of a place. -/
structure Tidy (place : Nat) (g : FuncletCalls) : Prop extends Accounted g where
  implicit : ∀ node ∈ g.nodes, node.params = none → node.explicit = false
  calls : ∀ call ∈ g.edges, call.offset < place

theorem mem_modify {nodes : Array FuncletNode} {change : FuncletNode → FuncletNode}
    (member : node ∈ nodes.modify index change) : ∃ n ∈ nodes, node = n ∨ node = change n := by
  obtain ⟨i, there⟩ := Array.mem_iff_getElem?.mp member
  rw [Array.getElem?_modify] at there
  split at there
  · obtain ⟨n, present, rfl⟩ := Option.map_eq_some_iff.mp there
    exact ⟨n, Array.mem_of_getElem? present, .inr rfl⟩
  · exact ⟨node, Array.mem_of_getElem? there, .inl rfl⟩

theorem Tidy.change {change : FuncletNode → FuncletNode} {edges : Array CallEdge}
    {visited current : Nat} (tidy : g.Tidy place)
    (accounted : Accounted ⟨g.nodes.modify index change, edges, visited, current⟩)
    (keeps : ∀ n, (change n).params = none → n.params = none ∧ (change n).explicit = n.explicit)
    (calls : ∀ call ∈ edges, call.offset < place) :
    Tidy place ⟨g.nodes.modify index change, edges, visited, current⟩ where
  toAccounted := accounted
  implicit node member undeclared := by
    obtain ⟨n, old, rfl | rfl⟩ := mem_modify member
    · exact tidy.implicit node old undeclared
    · obtain ⟨before, same⟩ := keeps n undeclared
      rw [same]
      exact tidy.implicit n old before
  calls := calls

theorem Tidy.settled {edges : Array CallEdge} {change : FuncletNode → FuncletNode}
    (tidy : g.Tidy place) (awaits : g.AwaitsParams index node params edges)
    (accounted : (g.settled index change edges).Accounted)
    (known : ∀ n, (change n).params = some params) : (g.settled index change edges).Tidy place := by
  refine tidy.change accounted (fun n undeclared => ?_) fun call member => ?_
  · rw [known n] at undeclared
    cases undeclared
  · obtain ⟨old, member, same⟩ := SameCalls.mem awaits.same member
    have offset := congrArg CallEdge.offset same
    change old.offset = call.offset at offset
    rw [← offset]
    exact tidy.calls old member

end FuncletCalls

namespace Validation

variable {setting : Setting} {bytes : List UInt8} {s t u v w x : State} {place index : Nat}

/-- All that is recorded stands in front of a place, in tidy call graphs. -/
structure InFront (place : Nat) (regions : List OpenRegion) (closed : Array Region) : Prop where
  regions : ∀ r ∈ regions, r.offset < place ∧ r.graph.Tidy place
  closed : ∀ r ∈ closed, r.offset < place ∧ ∀ call ∈ r.edges, call.offset < place

theorem InFront.grown {r : OpenRegion} {outer : List OpenRegion} {closed : Array Region}
    {g : FuncletCalls} (front : InFront place (r :: outer) closed)
    (tidies : r.graph.Tidy place → g.Tidy place) :
    InFront place ({ r with graph := g } :: outer) closed where
  regions q member := by
    rcases List.mem_cons.mp member with rfl | old
    · obtain ⟨offset, tidy⟩ := front.regions r List.mem_cons_self
      exact ⟨offset, tidies tidy⟩
    · exact front.regions q (List.mem_cons_of_mem _ old)
  closed := front.closed

theorem startsKeep_inFront (place : Nat) : StartsKeep True (· < place) (InFront place) where
  call _ here front ok := front.grown fun tidy => by
    have accounted := ((FuncletCalls.call_accounts _ _ _ _ _ tidy.toAccounted).of_ok ok).1
    obtain ⟨_, _, _, rfl, _⟩ := FuncletCalls.call_ok.mp ok
    refine tidy.change accounted ?_ fun call member => ?_
    · exact fun n undeclared => ⟨undeclared, rfl⟩
    · rcases Array.mem_push.mp member with old | rfl
      · exact tidy.calls call old
      · exact here
  complete front ok := front.grown fun tidy => by
    have accounted := ((FuncletCalls.markComplete_accounts _ _ tidy.toAccounted).of_ok ok).1
    obtain ⟨_, _, ⟨_, rfl⟩ | ⟨_, _, rfl⟩⟩ := FuncletCalls.markComplete_ok.mp ok
    · exact tidy
    · refine tidy.change accounted ?_ tidy.calls
      exact fun n undeclared => ⟨undeclared, rfl⟩
  opens {r regions closed funclets} here front sized := by
    have fresh := FuncletCalls.coherent_of_size sized
    refine ⟨fun q member => ?_, front.closed⟩
    rcases List.mem_cons.mp member with rfl | old
    · refine ⟨here, FuncletCalls.accounted_of_size sized, fun node member _ => ?_, fun call member => ?_⟩
      · obtain ⟨i, present⟩ := Array.mem_iff_getElem?.mp member
        have below := (Array.getElem?_eq_some_iff.mp present).1
        have same := fresh.2.2.2.2.2 i (fresh.2.1 ▸ below)
        rw [present] at same
        rw [Option.some.inj same]
        rfl
      · rw [fresh.2.2.2.2.1] at member
        simp at member
    · exact front.regions q old
  closes {r record outer closed} front _ yields := by
    refine ⟨fun q member => front.regions q (List.mem_cons_of_mem _ member), fun q member => ?_⟩
    rcases Array.mem_push.mp member with old | rfl
    · exact front.closed q old
    · obtain ⟨offset, tidy⟩ := front.regions r List.mem_cons_self
      exact ⟨yields.offset ▸ offset, yields.edges ▸ tidy.calls⟩
  enter front ok := front.grown fun tidy => by
    have accounted := ((FuncletCalls.enter_accounts _ _ tidy.toAccounted).of_ok ok).1
    obtain ⟨_, rfl⟩ := FuncletCalls.enter_ok.mp ok
    refine tidy.change accounted ?_ tidy.calls
    exact fun n undeclared => ⟨undeclared, rfl⟩
  declare front ok := front.grown fun tidy => by
    have accounted := ((FuncletCalls.declare_accounts _ _ _ _ _ tidy.toAccounted).of_ok ok).1
    obtain ⟨_, _, awaits, rfl⟩ := FuncletCalls.declare_ok.mp ok
    exact tidy.settled awaits accounted fun _ => rfl
  infer front ok := front.grown fun tidy => by
    have accounted := ((FuncletCalls.infer_accounts _ _ tidy.toAccounted).of_ok ok).1
    obtain ⟨_, _, _, awaits, _, _, rfl⟩ := FuncletCalls.infer_ok.mp ok
    exact tidy.settled awaits accounted fun _ => rfl

section Announced

variable {home : Nat} {params : List ValueType} {explicit : Bool} {called : Prop}

def IsDirect (index : Nat) (call : CallEdge) : Prop :=
  call.target = index ∧ call.backward = false ∧ call.polymorphic = false

/-- A funclet of the region at home has started with its parameters, and the calls from above to it
have been made. -/
structure Announced (home index : Nat) (params : List ValueType) (explicit : Bool) (called : Prop)
    (r : OpenRegion) : Prop where
  offset : r.offset = home
  block : index < r.blocks.size
  current : index ≤ r.graph.current
  visited : index < r.graph.visited
  node : ∃ node, r.graph.nodes[index]? = some node ∧ node.params = some params ∧
    node.explicit = explicit
  direct : ∀ call ∈ r.graph.edges, IsDirect index call → called

structure Reported (home index : Nat) (params : List ValueType) (explicit : Bool) (called : Prop)
    (r : Region) : Prop where
  offset : r.offset = home
  funclet : ∃ f, r.funclets[index]? = some f ∧ f.params = params ∧ f.explicit = explicit
  direct : ∀ call ∈ r.edges, IsDirect index call → called

theorem Announced.reported {r : OpenRegion} {record : Region}
    (announced : Announced home index params explicit called r) (yields : OpenRegion.RecordedAs r record) :
    Reported home index params explicit called record where
  offset := yields.offset.trans announced.offset
  funclet := by
    obtain ⟨node, present, known, same⟩ := announced.node
    obtain ⟨block, there⟩ : ∃ block, r.blocks[index]? = some block :=
      ⟨_, Array.getElem?_eq_getElem announced.block⟩
    exact ⟨_, yields.getElem?.mpr ⟨node, params, block, present, known, there, rfl⟩, rfl, same⟩
  direct := yields.edges ▸ announced.direct

theorem Announced.change {r : OpenRegion} {change : FuncletNode → FuncletNode} {i : Nat}
    {edges : Array CallEdge} {visited current : Nat}
    (announced : Announced home index params explicit called r) (onward : index ≤ current)
    (more : index < visited)
    (keeps : i = index → ∀ n, (change n).params = n.params ∧ (change n).explicit = n.explicit)
    (direct : ∀ call ∈ edges, IsDirect index call → called) :
    Announced home index params explicit called
      { r with graph := ⟨r.graph.nodes.modify i change, edges, visited, current⟩ } where
  offset := announced.offset
  block := announced.block
  current := onward
  visited := more
  node := by
    obtain ⟨node, present, known, same⟩ := announced.node
    simp only [Array.getElem?_modify, present]
    split
    · rename_i here
      obtain ⟨params', explicit'⟩ := keeps here node
      exact ⟨change node, rfl, params'.trans known, explicit'.trans same⟩
    · exact ⟨node, rfl, known, same⟩
  direct := direct

theorem Announced.settled {r : OpenRegion} {i : Nat} {node : FuncletNode} {types : List ValueType}
    {edges : Array CallEdge} {change : FuncletNode → FuncletNode}
    (announced : Announced home index params explicit called r)
    (awaits : r.graph.AwaitsParams i node types edges) : Announced home index params explicit called
      { r with graph := r.graph.settled i change edges } := by
  refine announced.change announced.current announced.visited ?_ fun call member direct => ?_
  · rintro rfl
    obtain ⟨known, present, some_, -⟩ := announced.node
    obtain rfl := Option.some.inj (present.symm.trans awaits.present)
    rw [awaits.undeclared] at some_
    cases some_
  · obtain ⟨old, member, same⟩ := SameCalls.mem awaits.same member
    have target := congrArg CallEdge.target same
    have backward := congrArg CallEdge.backward same
    have polymorphic := congrArg CallEdge.polymorphic same
    exact announced.direct old member ⟨target.trans direct.1, backward.trans direct.2.1,
      polymorphic.trans direct.2.2⟩

/-- A funclet that has started is at hand in its region, or it is recorded. -/
def Remembers (home index : Nat) (params : List ValueType) (explicit : Bool) (called : Prop)
    (regions : List OpenRegion) (closed : Array Region) : Prop :=
  (∃ r ∈ regions, Announced home index params explicit called r) ∨
    ∃ r ∈ closed, Reported home index params explicit called r

theorem Remembers.grown {r : OpenRegion} {outer : List OpenRegion} {closed : Array Region}
    {g : FuncletCalls} (remembers : Remembers home index params explicit called (r :: outer) closed)
    (grows : Announced home index params explicit called r →
      Announced home index params explicit called { r with graph := g }) :
    Remembers home index params explicit called ({ r with graph := g } :: outer) closed := by
  rcases remembers with ⟨q, member, announced⟩ | reported
  · rcases List.mem_cons.mp member with rfl | old
    · exact .inl ⟨_, List.mem_cons_self, grows announced⟩
    · exact .inl ⟨q, List.mem_cons_of_mem _ old, announced⟩
  · exact .inr reported

theorem startsKeep_remembers : StartsKeep True (fun _ => True) (Remembers home index params explicit called) where
  call _ _ remembers ok := remembers.grown fun announced => by
    obtain ⟨_, _, _, rfl, _⟩ := FuncletCalls.call_ok.mp ok
    refine announced.change announced.current announced.visited ?_ fun call member direct => ?_
    · exact fun _ n => ⟨rfl, rfl⟩
    · rcases Array.mem_push.mp member with old | rfl
      · exact announced.direct call old direct
      · -- A call that is made now comes from below.
        obtain ⟨rfl, backward, -⟩ := direct
        exact absurd announced.current (by simpa [FuncletCalls.callEdge] using backward)
  complete remembers ok := remembers.grown fun announced => by
    obtain ⟨_, _, ⟨_, rfl⟩ | ⟨_, _, rfl⟩⟩ := FuncletCalls.markComplete_ok.mp ok
    · exact announced
    · refine announced.change announced.current announced.visited ?_ announced.direct
      exact fun _ n => ⟨rfl, rfl⟩
  opens _ remembers _ := remembers.imp (fun ⟨q, member, announced⟩ =>
    ⟨q, List.mem_cons_of_mem _ member, announced⟩) id
  closes {r record outer closed} remembers _ yields := by
    rcases remembers with ⟨q, member, announced⟩ | ⟨q, member, reported⟩
    · rcases List.mem_cons.mp member with rfl | old
      · exact .inr ⟨_, Array.mem_push_self, announced.reported yields⟩
      · exact .inl ⟨q, old, announced⟩
    · exact .inr ⟨q, Array.mem_push_of_mem _ member, reported⟩
  enter remembers ok := remembers.grown fun announced => by
    obtain ⟨⟨rfl, _⟩, rfl⟩ := FuncletCalls.enter_ok.mp ok
    refine announced.change (Nat.le_of_lt announced.visited) (Nat.lt_succ_of_lt announced.visited) ?_
      announced.direct
    exact fun _ n => ⟨rfl, rfl⟩
  declare remembers ok := remembers.grown fun announced => by
    obtain ⟨_, _, awaits, rfl⟩ := FuncletCalls.declare_ok.mp ok
    exact announced.settled awaits
  infer remembers ok := remembers.grown fun announced => by
    obtain ⟨_, _, _, awaits, _, _, rfl⟩ := FuncletCalls.infer_ok.mp ok
    exact announced.settled awaits

end Announced

section Settle

variable {header : Option Decode.FuncletHeader} {params : List ValueType} {node : FuncletNode}
variable {edges : Array CallEdge} {r : OpenRegion} {outer : List OpenRegion} {g : FuncletCalls}

/-- A header tells the parameters and asks for no calls; without one the first funclet has none, and
another one those of a call from above. -/
def Tells (g : FuncletCalls) (index : Nat) (node : FuncletNode) (params : List ValueType) :
    Option Decode.FuncletHeader → Prop
  | some header => header = ⟨params, 0⟩
  | none =>
      if index = 0 then params = []
      else ∃ call, (g.edgesTo node).find? (fun call => !call.polymorphic) = some call ∧
        call.args = params

def told (g : FuncletCalls) (index : Nat) (params : List ValueType) (explicit : Bool)
    (edges : Array CallEdge) : FuncletCalls :=
  g.settled index (fun n => { n with params := some params, explicit }) edges

/-- The state in which the funclet of the innermost region has its parameters. -/
def State.told (s : State) (r : OpenRegion) (outer : List OpenRegion) (index : Nat)
    (params : List ValueType) (explicit : Bool) (edges : Array CallEdge) : State :=
  { s with regions := { r with graph := Validation.told r.graph index params explicit edges } :: outer }

theorem settled_congr {change change' : FuncletNode → FuncletNode}
    (present : g.nodes[index]? = some node) (same : change node = change' node) :
    g.settled index change edges = g.settled index change' edges := by
  refine congrArg (FuncletCalls.mk · edges g.visited g.current) (Array.ext_getElem? fun i => ?_)
  rw [Array.getElem?_modify, Array.getElem?_modify]
  split
  · rename_i here
    rw [← here, present, Option.map_some, Option.map_some, same]
  · rfl

/-- A header that asks for no calls sets the parameters of a tidy funclet and its mark, and what tells
the parameters without one sets the parameters alone. -/
theorem settleFunclet_ok (regions : s.regions = r :: outer) (tidy : r.graph.Tidy place)
    (nothing : ∀ h ∈ header, h.predecessors = 0) :
    settleFunclet index header s = .ok params t ↔ ∃ node edges,
      r.graph.AwaitsParams index node params edges ∧ Tells r.graph index node params header ∧
        t = s.told r outer index params header.isSome edges := by
  have plain {node : FuncletNode} {types : List ValueType} {edges : Array CallEdge}
      (awaits : r.graph.AwaitsParams index node types edges) :
      node.declared = 0 ∧ node.explicit = false :=
    ⟨(tidy.nodes awaits.present).declared_of_none awaits.undeclared,
      tidy.implicit node (Array.mem_of_getElem? awaits.present) awaits.undeclared⟩
  have byHeader {node : FuncletNode} {types : List ValueType} {explicit : Bool}
      {edges : Array CallEdge} (awaits : r.graph.AwaitsParams index node types edges) :
      r.graph.settled index (fun n => { n with params := some types, declared := 0, explicit }) edges =
        told r.graph index types explicit edges :=
    settled_congr awaits.present (by rw [(plain awaits).1])
  have byCalls {node : FuncletNode} {types : List ValueType} {edges : Array CallEdge}
      (awaits : r.graph.AwaitsParams index node types edges) :
      r.graph.settled index (fun n => { n with params := some types }) edges =
        told r.graph index types false edges :=
    settled_congr awaits.present (by rw [(plain awaits).2])
  have declares {types : List ValueType} {explicit : Bool} {t : State} :
      onGraph (FuncletCalls.declare index types 0 explicit) s = .ok () t ↔ ∃ node edges,
        r.graph.AwaitsParams index node types edges ∧ t = s.told r outer index types explicit edges := by
    simp only [onGraph_ok, FuncletCalls.declare_ok, regions]
    constructor
    · rintro ⟨_, _, _, ⟨⟩, ⟨node, edges, awaits, rfl⟩, rfl⟩
      exact ⟨node, edges, awaits, by rw [State.told, byHeader awaits]⟩
    · rintro ⟨node, edges, awaits, rfl⟩
      exact ⟨r, outer, _, rfl, ⟨node, edges, awaits, rfl⟩, by rw [State.told, byHeader awaits]⟩
  cases header with
  | some header =>
      obtain ⟨types, predecessors⟩ := header
      obtain rfl : predecessors = 0 := nothing _ rfl
      simp only [settleFunclet, bind_ok, pure_ok, Tells, Decode.FuncletHeader.mk.injEq, and_true]
      constructor
      · rintro ⟨_, _, declared, rfl, rfl⟩
        obtain ⟨node, edges, awaits, same⟩ := declares.mp declared
        exact ⟨node, edges, awaits, rfl, same⟩
      · rintro ⟨node, edges, awaits, rfl, same⟩
        exact ⟨(), t, declares.mpr ⟨node, edges, awaits, same⟩, rfl, rfl⟩
  | none =>
      simp only [settleFunclet, Tells]
      by_cases first : index = 0
      · simp only [if_pos first, bind_ok, pure_ok]
        constructor
        · rintro ⟨_, _, declared, rfl, rfl⟩
          obtain ⟨node, edges, awaits, same⟩ := declares.mp declared
          exact ⟨node, edges, awaits, rfl, same⟩
        · rintro ⟨node, edges, awaits, rfl, same⟩
          exact ⟨(), t, declares.mpr ⟨node, edges, awaits, same⟩, rfl, rfl⟩
      · simp only [if_neg first, onGraph_ok, FuncletCalls.infer_ok, regions]
        constructor
        · rintro ⟨_, _, _, ⟨⟩, ⟨node, edges, call, awaits, found, args, rfl⟩, rfl⟩
          exact ⟨node, edges, awaits, ⟨call, found, args⟩, by rw [State.told, byCalls awaits]; rfl⟩
        · rintro ⟨node, edges, awaits, ⟨call, found, args⟩, rfl⟩
          exact ⟨r, outer, _, rfl, ⟨node, edges, call, awaits, found, args, rfl⟩,
            by rw [State.told, byCalls awaits]; rfl⟩

def marking (home index : Nat) (explicit : Bool) : Relabelling := ⟨id, home, index, explicit⟩

theorem graph_told {home : Nat} (explicit explicit' : Bool) :
    (marking home index explicit').graph home (told g index params explicit edges) =
      told g index params explicit' edges := by
  have calls : edges.map (marking home index explicit').edge = edges := Array.map_id _
  refine congrArg₂ (FuncletCalls.mk · · g.visited g.current) ?_ calls
  refine Array.ext_getElem? fun i => ?_
  simp only [told, FuncletCalls.settled, Array.getElem?_mapIdx, Array.getElem?_modify]
  by_cases here : index = i
  · subst here
    cases g.nodes[index]? with
    | none => simp
    | some n => simp [Relabelling.node, Relabelling.mark, marking]
  · cases g.nodes[i]? with
    | none => simp [here]
    | some n => simp [Relabelling.node, Relabelling.mark, marking, here, Ne.symm here]

theorem region_away {ρ : Relabelling} {r : Region} (away : r.offset ≠ ρ.home)
    (still : ρ.move r.offset = r.offset) (calls : ∀ call ∈ r.edges, ρ.move call.offset = call.offset) :
    ρ.region r = r := by
  have funclets : r.funclets.map (ρ.funclet r.offset) = r.funclets := by
    refine (List.map_congr_left fun f _ => ?_).trans (List.map_id _)
    simp [Relabelling.funclet, Relabelling.mark, away]
  have edges : r.edges.map ρ.edge = r.edges := by
    refine (Array.map_congr_left fun call member => ?_).trans (Array.map_id _)
    rw [Relabelling.edge, calls call member]
    rfl
  rw [Relabelling.region, funclets, edges, still]

theorem relabelled_told {explicit explicit' : Bool} (outside : ∀ q ∈ outer, q.offset ≠ r.offset)
    (closed : ∀ q ∈ s.closed, q.offset ≠ r.offset) :
    (s.told r outer index params explicit edges).relabelled (marking r.offset index explicit') =
      s.told r outer index params explicit' edges := by
  have around : outer.map (marking r.offset index explicit').openRegion = outer := by
    refine (List.map_congr_left fun q member => ?_).trans (List.map_id _)
    rw [Relabelling.openRegion, Relabelling.graph_away (outside q member) fun _ _ => rfl]
    rfl
  have records : s.closed.map (marking r.offset index explicit').region = s.closed := by
    refine (Array.map_congr_left fun q member => ?_).trans (Array.map_id _)
    exact region_away (closed q member) rfl fun _ _ => rfl
  simp only [State.relabelled, State.told, List.map_cons, around, records, Relabelling.openRegion,
    graph_told]
  rfl

end Settle

end Validation

end WasmFunclets
