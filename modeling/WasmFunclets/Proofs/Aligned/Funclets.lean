import WasmFunclets.Proofs.Aligned.Calls
import WasmFunclets.Proofs.Moves

/-! Funclets start and regions end. -/

namespace WasmFunclets.Validation

open Attempt
open Ssa (Forest Predecessor)

variable {context : Context} {strict : Bool} {f g : Forest} {written : BlockId → Nat → Prop}
variable {extra : List BlockId} {s t : State} {types : List ValueType} {args : List ValueId}
variable {b : Ssa.Builder} {c d e : BlockId} {r : OpenRegion} {outer : List OpenRegion} {index : Nat}
variable {frame : Frame}

theorem mem_frames_of_layers {l : Layer} (member : l ∈ s.layers) : l.frame ∈ s.frames := by
  rw [← s.map_frame_layers]
  exact List.mem_map_of_mem member

theorem Nested.region {l : Layer} {around : List Layer} (nested : Nested (l :: around))
    (region : l.region = some r) : l.frame.construct = .region ∧ l.frame.target = r.exit ∧
      r.signature = l.frame.signature := by
  cases nested with
  | function _ _ _ plain => simp [plain] at region
  | inside _ inside =>
      obtain ⟨construct, _, signature, exit, _⟩ := inside.region r region
      exact ⟨construct, exit.symm, signature⟩

theorem Framed.region_frame (framed : Framed s) (regions : s.regions = r :: outer) :
    ∃ frame ∈ s.frames, frame.target = r.exit ∧ r.base = frame.mark.height := by
  obtain ⟨inner, l, around, layers, region, _⟩ := framed.innermost_region regions
  have nested : Nested (l :: around) :=
    framed.nested.drop (d := inner.length) (by rw [layers, List.drop_left])
  have member : l ∈ s.layers := by
    rw [layers]
    exact List.mem_append_right _ List.mem_cons_self
  exact ⟨l.frame, mem_frames_of_layers member, (nested.region region).2.1, nested.base_eq region⟩

theorem Aligned.within_region (aligned : Aligned context strict f written extra s) (framed : Framed s)
    (regions : s.regions = r :: outer) : ∀ e, f[r.exit]? = some (some e) → f.Within s.current e := by
  obtain ⟨frame, member, target, _⟩ := framed.region_frame regions
  rw [← target]
  exact aligned.within frame member

/-- Frames inside a region that were entered on reachable code have no operand of unknown type below
them. -/
theorem known_of_reachable {operands : List Operand} {inner around : List Layer} {l : Layer}
    (nested : Nested (inner ++ l :: around)) (region : l.region = some r)
    (plain : ∀ m ∈ inner, m.region = none)
    (clear : ∀ m ∈ inner, ∀ operand ∈ (operands.take m.frame.mark.height).drop m.frame.mark.floor,
      operand.type = .any → m.frame.mark.polymorphic = true) {m : Layer} {rest : List Layer}
    (head : inner ++ l :: around = m :: rest) (reachable : m.frame.outerUnreachable = false)
    {i : Nat} {operand : Operand} (place : operands[i]? = some operand) (base : r.base ≤ i)
    (below : i < m.frame.mark.height) : operand.type ≠ .any := by
  induction inner generalizing m rest with
  | nil =>
      cases head
      have := nested.base_eq region
      omega
  | cons n inner ih =>
      obtain ⟨rfl, rfl⟩ := List.cons.inj head
      obtain ⟨parent, outer, split⟩ : ∃ parent outer, inner ++ l :: around = parent :: outer := by
        cases inner <;> exact ⟨_, _, rfl⟩
      rw [List.cons_append, split] at nested
      cases nested with
      | inside nested inside =>
          have unreachable := (inside.plain (plain n List.mem_cons_self)).2
          rw [reachable, eq_comm, Bool.or_eq_false_iff] at unreachable
          by_cases high : n.frame.mark.floor ≤ i
          · intro unknown
            have polymorphic := clear n List.mem_cons_self operand (by
              rw [List.mem_iff_getElem?]
              refine ⟨i - n.frame.mark.floor, ?_⟩
              rw [List.getElem?_drop, Nat.add_sub_cancel' high, List.getElem?_take, if_pos below, place]) unknown
            simp [unreachable.2] at polymorphic
          · rw [split] at ih
            refine ih nested (fun m member => plain m (List.mem_cons_of_mem _ member))
              (fun m member => clear m (List.mem_cons_of_mem _ member)) rfl unreachable.1 ?_
            rw [← inside.floor]
            omega

theorem Aligned.region_known (aligned : Aligned context strict f written extra s) (framed : Framed s)
    (regions : s.regions = r :: outer) (checked : strict = true) {top : Frame}
    (innermost : s.frame? 0 = some top) (polymorphic : s.stack.polymorphic = false)
    (reachable : top.outerUnreachable = false) :
    ∀ operand ∈ s.stack.operands.toList.drop r.base, operand.type ≠ .any := by
  intro operand member
  obtain ⟨inner, l, around, layers, region, plain⟩ := framed.innermost_region regions
  obtain ⟨i, place⟩ := List.mem_iff_getElem?.mp member
  rw [List.getElem?_drop] at place
  obtain ⟨m, rest, head⟩ : ∃ m rest, inner ++ l :: around = m :: rest := by
    cases inner <;> exact ⟨_, _, rfl⟩
  have floor := framed.floor m rest (layers.trans head)
  have top_eq : top = m.frame := by
    have frames := s.map_frame_layers
    rw [layers, head, List.map_cons] at frames
    rw [s.frame?_eq, ← frames] at innermost
    exact (Option.some.inj innermost).symm
  by_cases high : s.stack.floor ≤ r.base + i
  · intro unknown
    have absurd_ := aligned.clear checked operand (by
      rw [List.mem_iff_getElem?]
      refine ⟨r.base + i - s.stack.floor, ?_⟩
      rw [List.getElem?_drop, Nat.add_sub_cancel' high, place]) unknown
    simp [polymorphic] at absurd_
  · refine known_of_reachable (layers ▸ framed.nested) region plain (fun n listed => ?_) head
      (top_eq ▸ reachable) place (Nat.le_add_right _ _) (by omega)
    have member : n ∈ s.layers := by
      rw [layers]
      exact List.mem_append_left _ listed
    obtain ⟨e, entered⟩ := aligned.frames n.frame (mem_frames_of_layers member)
    exact entered.clear checked

/-- The operands that a call passes. A call that is not polymorphic passes operands of known types. -/
structure Gathered (strict : Bool) (f : Forest) (s : State) (operands : List Operand)
    (polymorphic : Bool) : Prop where
  backs : ∀ operand ∈ operands, s.builder.Backs strict f s.current operand
  known : strict = true → polymorphic = false → ∀ operand ∈ operands, operand.type ≠ .any
  dead : polymorphic = true → f.Dead s.current

theorem Aligned.base_le (aligned : Aligned context strict f written extra s) (framed : Framed s)
    (regions : s.regions = r :: outer) : r.base ≤ s.stack.height := by
  obtain ⟨frame, member, _, base⟩ := framed.region_frame regions
  obtain ⟨e, entered⟩ := aligned.frames frame member
  rw [base]
  exact Nat.le_trans entered.reach aligned.above

theorem Aligned.dead_of_unreachable (aligned : Aligned context strict f written extra s) {top : Frame}
    (innermost : s.frame? 0 = some top)
    (unreachable : (s.stack.polymorphic || top.outerUnreachable) = true) : f.Dead s.current := by
  rcases Bool.or_eq_true _ _ |>.mp unreachable with polymorphic | outside
  · exact aligned.dead polymorphic
  · have member : top ∈ s.frames := by
      rw [s.frame?_eq] at innermost
      exact List.mem_of_getElem? innermost
    obtain ⟨e, entered⟩ := aligned.frames top member
    exact entered.within.dead (entered.dead (.inr outside))

theorem ends_gather {β : Type} {Q : β → State → Prop} {rest : List Operand → Bool → Step β}
    (aligned : Aligned context strict f written extra s) (framed : Framed s)
    (regions : s.regions = r :: outer)
    (good : ∀ operands polymorphic, Gathered strict f s operands polymorphic →
      Ends (rest operands polymorphic) s Q Refused) :
    Ends (regionOperands >>= fun operands => operandsUnreachable >>= rest operands) s Q Refused := by
  obtain ⟨top, _, _, innermost, _⟩ := framed.cons
  rw [ends_bind, regionOperands, ends_bind]
  refine ends_openRegion regions ?_
  rw [ends_bind, ends_get]
  have gathered : s.stack.operandsFrom r.base = some (s.stack.operands.toList.drop r.base) :=
    TypedStack.operandsFrom_eq_some.mpr ⟨aligned.base_le framed regions, rfl⟩
  rw [gathered]
  change Ends (operandsUnreachable >>= rest _) s Q Refused
  rw [ends_bind, operandsUnreachable, ends_bind, ends_get, ends_bind]
  refine ends_innermost innermost ?_
  rw [ends_pure]
  refine good _ _ ⟨fun operand member => aligned.operands operand (List.mem_of_mem_drop member),
    fun checked reachable => ?_, aligned.dead_of_unreachable innermost⟩
  obtain ⟨polymorphic, outside⟩ := Bool.or_eq_false_iff.mp reachable
  exact aligned.region_known framed regions checked innermost polymorphic outside

/-- A graph whose entered funclet got its parameters, and that is otherwise as before. -/
structure GetsParams (g h : FuncletCalls) (index : Nat) (params : List ValueType) : Prop where
  settled : h.SettledBut index
  keeps : FuncletCalls.KeepsCalls g h
  calls : h.calls = g.calls
  derived : g.Derived → h.Derived
  nodes : ∀ (i : Nat) (later : FuncletNode), h.nodes[i]? = some later → ∃ node, g.nodes[i]? = some node ∧
    later.sealed = node.sealed ∧ later.params = if i = index then some params else node.params

/-- What entering a funclet leaves of the graph. -/
structure Begun (g h : FuncletCalls) (index : Nat) : Prop where
  coherent : h.Coherent
  keeps : FuncletCalls.KeepsCalls g h
  visited : 0 < h.visited
  calls : h.calls = g.calls
  derived : g.Derived → h.Derived
  nodes : ∀ (i : Nat) (later : FuncletNode), h.nodes[i]? = some later → ∃ node, g.nodes[i]? = some node ∧
    later.sealed = node.sealed ∧ later.params = node.params
  fresh : ∃ node, h.nodes[index]? = some node ∧ node.entered = true ∧ node.params = none
  others : ∀ (i : Nat) (node : FuncletNode), i ≠ index → h.nodes[i]? = some node →
    (node.entered = true → node.params.isSome) ∧ node.ready = false

theorem enter_begins {g : FuncletCalls} (enterable : Enterable g index) :
    Ends (FuncletCalls.enter index) g (fun _ h => Begun g h index) fun e _ => e.IsRefusal := by
  have first := FuncletCalls.enter_ends enterable.toCoherent enterable.next enterable.inside
  have second := FuncletCalls.enter_settles enterable.toCoherent enterable.next enterable.inside
    enterable.params enterable.waiting
  refine ends_of_forall (fun _ h ok => ?_) fun _ _ error => (first.of_error error).elim
  obtain ⟨coherent, keeps, visited, _, edges, nodes⟩ := first.of_ok ok
  obtain ⟨_, _, _, _, _, fresh, others⟩ := second.of_ok ok
  have back (i : Nat) (later : FuncletNode) (found : h.nodes[i]? = some later) :
      ∃ node, g.nodes[i]? = some node ∧ later = { node with entered := later.entered } := by
    rw [nodes, Array.getElem?_modify] at found
    split at found
    · obtain ⟨node, present, rfl⟩ := Option.map_eq_some_iff.mp found
      exact ⟨node, present, rfl⟩
    · exact ⟨later, found, rfl⟩
  refine ⟨coherent, keeps, by omega, by rw [FuncletCalls.calls, edges, FuncletCalls.calls],
    fun derived => ?_, fun i later found => ?_, fresh, others⟩
  · refine derived.same ((FuncletCalls.enter_accounts index g derived.toAccounted).of_ok ok).1 keeps
      fun i later found => ?_
    obtain ⟨node, present, same⟩ := back i later found
    exact ⟨node, present, by rw [same], by rw [same], by rw [same]⟩
  · obtain ⟨node, present, same⟩ := back i later found
    exact ⟨node, present, by rw [same], by rw [same]⟩

theorem Begun.getsParams {g h k : FuncletCalls} {params : List ValueType} (begun : Begun g h index)
    (change : FuncletNode → FuncletNode) (coherent : k.Coherent) (keeps : FuncletCalls.KeepsCalls h k)
    (visited : k.visited = h.visited) (calls : k.calls = h.calls) (derives : h.Derived → k.Derived)
    (changed : ∀ node : FuncletNode, (change node).params = some params ∧
      (change node).sealed = node.sealed)
    (nodes : ∀ i, k.nodes[i]? = h.nodes[i]?.map fun node => if i = index then change node else node) :
    GetsParams g k index params where
  settled := FuncletCalls.settledBut_of_params params coherent (visited ▸ begun.visited)
    (fun node => (changed node).1) nodes begun.others
  keeps := begun.keeps.trans keeps
  calls := calls.trans begun.calls
  derived derived := derives (begun.derived derived)
  nodes i later found := by
    rw [nodes] at found
    obtain ⟨before, old, rfl⟩ := Option.map_eq_some_iff.mp found
    obtain ⟨node, present, sealed, params'⟩ := begun.nodes i before old
    refine ⟨node, present, ?_, ?_⟩
    · split
      · rw [(changed before).2, sealed]
      · exact sealed
    · split
      · exact (changed before).1
      · exact params'

theorem header_known {setting : Setting} {header : Decode.FuncletHeader} {c d : Cursor}
    (ok : Decode.funcletHeader setting c = .ok (some header) d) : ∀ type ∈ header.params, type.isValue = true := by
  rw [Decode.funcletHeader, get_bind_ok] at ok
  split at ok
  · simp only [bind_ok, pure_ok] at ok
    obtain ⟨_, _, _, n, _, _, params, _, read, _, _, _, same, _⟩ := ok
    cases same
    intro type member
    exact Decode.mem_of_entries (P := fun type => type.isValue = true)
      (fun _ _ _ found => Decode.valueType_isValue found) (by simp) read type member
  · simp at ok

theorem funcletParams_aligned {setting : Setting} {g : FuncletCalls}
    (regions : s.regions = r :: outer) (begun : Begun g r.graph index)
    (known : strict = true → ∀ edge ∈ r.graph.edges, edge.polymorphic = false →
      ∀ type ∈ edge.args, type.isValue = true) :
    Ends (funcletParams setting index) s (fun params t => ∃ h cursor decoded,
      t = { s with cursor, decoded, regions := { r with graph := h } :: outer } ∧
        GetsParams g h index params ∧ (strict = true → ∀ type ∈ params, type.isValue = true)) Refused := by
  obtain ⟨node, present, entered, open_⟩ := begun.fresh
  have declares (params : List ValueType) (declared : Nat) (explicit : Bool) (cursor : Cursor)
      (decoded : Nat) (fine : strict = true → ∀ type ∈ params, type.isValue = true)
      (first : explicit = true ∨ index = 0) :
      Ends (onGraph (FuncletCalls.declare index params declared explicit) >>= fun _ => pure params)
        { s with cursor, decoded } (fun params t => ∃ h cursor decoded,
          t = { s with cursor, decoded, regions := { r with graph := h } :: outer } ∧
            GetsParams g h index params ∧ (strict = true → ∀ type ∈ params, type.isValue = true)) Refused := by
    rw [ends_bind]
    refine @ends_onGraph _ _ _ _ r outer regions ?_
    have ends := @FuncletCalls.declare_ends r.graph index begun.coherent node params declared explicit
      present entered open_
    refine ends_of_forall (fun _ h ok => ?_) fun e h error => ends.of_error error
    obtain ⟨coherent, keeps, graph, nodes⟩ := ends.of_ok ok
    have calls := (FuncletCalls.declare_leaves index params declared explicit).of_ok ok
    have derives (derived : r.graph.Derived) : h.Derived := by
      refine derived.keep ((FuncletCalls.declare_accounts index params declared explicit r.graph
        derived.toAccounted).of_ok ok).1 keeps fun i later found other known implicit => .inl ?_
      rw [nodes] at found
      obtain ⟨node, present, rfl⟩ := Option.map_eq_some_iff.mp found
      grind
    rw [ends_pure]
    exact ⟨h, cursor, decoded, rfl, begun.getsParams
      (fun node => { node with params := some params, declared, explicit }) coherent keeps
      (by rw [graph]) calls derives (fun _ => ⟨rfl, rfl⟩) nodes, fine⟩
  rw [funcletParams, ends_bind]
  refine ends_onCursor (Decode.funcletHeader_readsOnward setting) fun header c ok => ?_
  cases header with
  | some header =>
      dsimp only
      rw [ends_bind, ends_modify]
      exact declares header.params header.predecessors true c _ (fun _ => header_known ok) (.inl rfl)
  | none =>
      dsimp only
      rw [ends_ite]
      refine ⟨fun first => declares [] 0 false c _ (by simp) (.inr first), fun _ => ?_⟩
      refine @ends_onGraph _ _ _ _ r outer regions ?_
      have ends := @FuncletCalls.infer_ends r.graph index begun.coherent node present entered open_
      refine ends_of_forall (fun params h ok => ?_) fun e h error => ends.of_error error
      obtain ⟨coherent, keeps, graph, nodes, edge, listed, direct, rfl⟩ := ends.of_ok ok
      have calls := (FuncletCalls.infer_leaves index).of_ok ok
      have derives (derived : r.graph.Derived) : h.Derived := by
        refine derived.keep ((FuncletCalls.infer_accounts index r.graph derived.toAccounted).of_ok ok).1
          keeps fun i later found other known implicit => ?_
        rw [nodes] at found
        obtain ⟨before, old, rfl⟩ := Option.map_eq_some_iff.mp found
        by_cases here : i = index
        · subst here
          cases present.symm.trans old
          rw [if_pos rfl]
          obtain ⟨member, target, forward⟩ := derived.forward present open_ listed
          exact .inr ⟨(derived.nodes present).declared_of_none open_, edge, member, target, forward, direct⟩
        · simp only [here, if_false] at known implicit ⊢
          exact .inl ⟨before, old, known, implicit, rfl⟩
      refine ⟨h, c, s.decoded, rfl, begun.getsParams (fun node => { node with params := some edge.args })
        coherent keeps (by rw [graph]) calls derives (fun _ => ⟨rfl, rfl⟩) nodes, fun checked => ?_⟩
      obtain ⟨n, _, place⟩ := List.mem_filterMap.mp listed
      exact known checked edge (Array.mem_of_getElem? place) direct

theorem exists_of_forall₂ {α β : Type} {R : α → β → Prop} {as : List α} {bs : List β}
    (related : List.Forall₂ R as bs) : ∀ b ∈ bs, ∃ a ∈ as, R a b := by
  induction related with
  | nil => simp
  | cons head _ ih =>
      intro b member
      rcases List.mem_cons.mp member with rfl | rest
      · exact ⟨_, List.mem_cons_self, head⟩
      · obtain ⟨a, listed, holds⟩ := ih b rest
        exact ⟨a, List.mem_cons_of_mem _ listed, holds⟩

theorem mem_arrivals {params : List ValueType} {edges : List CallEdge} {way : Arrival}
    (member : way ∈ arrivals params edges index) : index = 0 ∧ way = ⟨params, false⟩ ∨
      ∃ edge ∈ edges, edge.target = index ∧ way = ⟨edge.args, edge.polymorphic⟩ := by
  rcases List.mem_append.mp member with first | call
  · split at first
    · exact .inl ⟨‹_›, List.mem_singleton.mp first⟩
    · cases first
  · obtain ⟨edge, listed, rfl⟩ := List.mem_map.mp call
    obtain ⟨listed, target⟩ := List.mem_filter.mp listed
    exact .inr ⟨edge, listed, by simpa using target, rfl⟩

theorem Ready.fits {node : FuncletNode} {edges : List CallEdge} {first params : List ValueType}
    {x : Ssa.Shape} (ready : Ready strict f b e (arrivals first edges index) node c)
    (undeclared : node.params = none) (present : b.shape c = some x)
    (entry : index = 0 → params = first)
    (agree : ∀ edge ∈ edges, edge.target = index → edge.agrees params = true) :
    ∀ pred ∈ x.predecessors, pred.args.length ≤ params.length ∧
      (strict = true → b.Suits pred.args params) ∧
      (f.Dead pred.block ∨ pred.args.length = params.length) := by
  intro pred member
  obtain ⟨x', shown, _, _, arrive⟩ := ready.shape
  cases present.symm.trans shown
  obtain ⟨way, listed, arrives⟩ := exists_of_forall₂ arrive pred (Array.mem_toList_iff.mpr member)
  have holds := arrives.args undeclared
  rcases mem_arrivals listed with ⟨here, rfl⟩ | ⟨edge, recorded, target, rfl⟩
  · rw [entry here]
    exact ⟨Nat.le_of_eq holds.length_eq, holds.suits, .inr holds.length_eq⟩
  · exact fits_of_agrees (agree edge recorded target) arrives.dead holds

theorem GetsParams.agree {g h : FuncletCalls} {params : List ValueType}
    (settles : GetsParams g h index params) {node : FuncletNode} (present : g.nodes[index]? = some node) :
    ∀ edge ∈ h.edges.toList, edge.target = index → edge.agrees params = true := by
  intro edge member target
  obtain ⟨n, place⟩ := List.mem_iff_getElem?.mp member
  rw [Array.getElem?_toList] at place
  have below : index < h.nodes.size := by
    have := (Array.getElem?_eq_some_iff.mp present).1
    exact Nat.lt_of_lt_of_eq this settles.keeps.size_eq.symm
  obtain ⟨later, found⟩ : ∃ later, h.nodes[index]? = some later := ⟨_, Array.getElem?_eq_getElem below⟩
  obtain ⟨_, _, _, known⟩ := settles.nodes index later found
  rw [if_pos rfl] at known
  rw [← target] at found
  have checked := settles.settled.checked_of_params place found (by rw [known]; rfl)
  obtain ⟨later', params', found', known', agrees⟩ := settles.settled.agrees_of_checked place checked
  cases found.symm.trans found'
  cases known.symm.trans known'
  exact agrees

theorem Aligned.reading (aligned : Aligned context strict f written extra s) (cursor : Cursor)
    (start decoded : Nat) :
    Aligned context strict f written extra { s with cursor, start, decoded } :=
  ⟨aligned.built, aligned.inside, aligned.above, aligned.operands, aligned.clear, aligned.dead,
    aligned.frames, aligned.nested, aligned.regions, aligned.closed, aligned.opens, aligned.exit,
    aligned.ground⟩

theorem waiting_settled {h : FuncletCalls} (settles : GetsParams r.graph h index types) :
    OpenRegion.waiting { r with graph := h } = r.waiting := by
  have flags : h.nodes.toList.map FuncletNode.sealed = r.graph.nodes.toList.map FuncletNode.sealed := by
    have size : h.nodes.size = r.graph.nodes.size := settles.keeps.size_eq
    refine List.ext_getElem (by simpa using size) fun i one two => ?_
    rw [List.length_map, Array.length_toList] at one
    obtain ⟨node, present, sealed, _⟩ := settles.nodes i _ (Array.getElem?_eq_getElem one)
    obtain ⟨below, rfl⟩ := Array.getElem?_eq_some_iff.mp present
    simpa using sealed
  rw [OpenRegion.waiting, OpenRegion.waiting, flags]

theorem Ready.declared {ways : List Arrival} {node later : FuncletNode} {b' : Ssa.Builder}
    (ready : Ready strict f b e ways node c) (given : b.Given c types b')
    (params : later.params = some types) (sealed : later.sealed = node.sealed)
    (known : strict = true → ∀ type ∈ types, type.isValue = true) : Ready strict f b' e ways later c := by
  obtain ⟨x, present, isSealed, _, arrive⟩ := ready.shape
  obtain ⟨phis, edges, same, shape⟩ := given.shape
  refine ⟨⟨{ x with args := some phis, predecessors := edges },
    by rw [shape, if_pos rfl, present, Option.map_some], isSealed.trans sealed.symm,
    fun none_ => by simp [params] at none_, ?_⟩, fun none_ => by simp [params] at none_,
    fun types' same' => ?_⟩
  · have blocks : List.Forall₂ (fun way block => way.polymorphic = true → f.Dead block) ways
        (edges.toList.map Predecessor.block) := by
      rw [same x present, List.forall₂_map_right_iff]
      exact arrive.imp fun _ _ arrives => arrives.dead
    rw [List.forall₂_map_right_iff] at blocks
    exact blocks.imp fun way pred dead => ⟨dead, fun none_ => by simp [params] at none_⟩
  · cases params.symm.trans same'
    exact ⟨given.takes, known⟩

/-- The block of a funclet takes the parameters that the funclet has got. -/
theorem declareArguments_aligned {h : FuncletCalls} {node : FuncletNode}
    (aligned : Aligned context strict f written extra s) (regions : s.regions = r :: outer)
    (present : r.graph.nodes[index]? = some node) (undeclared : node.params = none)
    (place : r.blocks[index]? = some c) (settles : GetsParams r.graph h index types)
    (entry : index = 0 → types = r.signature.params)
    (known : strict = true → ∀ type ∈ types, type.isValue = true) :
    Ends (Ssa.Builder.declareArguments c types) s.builder (fun _ b => s.builder.Given c types b ∧
      s.builder.Advances f s.current b f s.current (fun _ => False) ∧
      Aligned context strict f written extra
        { s with regions := { r with graph := h } :: outer, builder := b }) Ssa.Builder.Exhausted := by
  have prepared := aligned.regions r (by rw [regions]; exact List.mem_cons_self)
  have ready := prepared.nodes present place
  have waits := prepared.waits present place undeclared
  obtain ⟨_, _, others⟩ := aligned.waiting_nodup regions waits
  obtain ⟨x, shown, sealed, args, _⟩ := ready.shape
  obtain ⟨open_, _⟩ := ready.sleeps undeclared
  have fits := ready
  rw [← arrivals_of_calls settles.calls] at fits
  refine (Ssa.Builder.declare_built aligned.built shown (args undeclared) (sealed.trans open_)
    (fun checked type member => ValueType.ne_any (known checked type member))
    (fits.fits undeclared shown entry (settles.agree present))).imp ?_
  rintro _ b ⟨built, given⟩
  have formed := aligned.built.sound.formed
  have formed' := built.sound.formed
  have advances : s.builder.Advances f s.current b f s.current fun _ => False :=
    given.advances shown (sealed.trans open_) (args undeclared)
  have perm := @opens_perm extra s b r outer h [] regions
    (by rw [waiting_settled settles]; exact .refl _)
  refine ⟨given, advances, ?_⟩
  refine aligned.carry advances built rfl rfl rfl (.refl aligned.above) ?_ aligned.within
    (fun operand member => (aligned.operands operand member).grow given.later given.size formed formed'
      (.refl f)) aligned.clear aligned.dead (fun _ _ => id) (fun q member => ?_)
    ((aligned.opens.given given).perm perm)
  · exact Nat.lt_of_lt_of_le aligned.inside advances.count
  · obtain ⟨_, _, _, shape⟩ := given.shape
    rcases List.mem_cons.mp member with rfl | inner
    · refine ⟨prepared.count.trans settles.keeps.size_eq.symm, prepared.distinct, prepared.made,
        fun {i later block} found place' => ?_, fun checked => ⟨(prepared.known checked).1, ?_⟩,
        settles.derived prepared.derived, fun {later types'} found known' => ?_⟩
      · change Ready _ _ _ _ (arrivals r.signature.params h.edges.toList i) _ _
        rw [arrivals_of_calls settles.calls]
        obtain ⟨before, old, sealed', params'⟩ := settles.nodes i later found
        by_cases here : i = index
        · subst here
          cases place.symm.trans place'
          cases present.symm.trans old
          rw [if_pos rfl] at params'
          exact ready.declared given params' sealed' known
        · rw [if_neg here] at params'
          have apart : block ≠ c := fun same =>
            here (prepared.injective (by rw [same] at place'; exact place') place)
          exact ((prepared.nodes old place').move advances.toProceeds formed formed'
            (fun _ => by rw [shape, if_neg apart]) fun _ => id).congr params' sealed'
      · intro edge listed direct
        obtain ⟨edge', listed', args, polymorphic⟩ := FuncletCalls.edge_of_calls settles.calls listed
        rw [← args]
        exact (prepared.known checked).2 edge' listed' (polymorphic.trans direct)
      · obtain ⟨before, old, _, params'⟩ := settles.nodes 0 later found
        rw [known'] at params'
        split at params'
        · rename_i first
          cases params'
          exact entry first.symm
        · exact prepared.entry old params'.symm
    · refine (aligned.regions q (by rw [regions]; exact List.mem_cons_of_mem _ inner)).move
        advances.toProceeds formed formed' (fun d waits' => ?_) fun _ _ => id
      rw [shape, if_neg (others q inner d waits')]

/-- Another block is at hand, with operands of its own above the floor. -/
theorem Aligned.goto (aligned : Aligned context strict f written extra s) (wakes : Wakes s c)
    (within : ∀ frame ∈ s.frames, ∀ e, f[frame.target]? = some (some e) → f.Within c e)
    (below : ∀ operand ∈ s.stack.operands.toList.take s.stack.floor, s.builder.Backs strict f c operand)
    (holds : s.builder.HoldAll strict f c args types)
    (known : strict = true → ∀ type ∈ types, type.isValue = true) :
    Aligned context strict f written extra
      { s with current := c, stack := (s.stack.cleared false).extend (operandsOf types args) } := by
  have cleared : (s.stack.cleared false).operands.toList = s.stack.operands.toList.take s.stack.floor :=
    TypedStack.toList_resize aligned.above
  have rests : TypedStack.Rests s.stack ((s.stack.cleared false).extend (operandsOf types args)) :=
    (TypedStack.rests_cleared false aligned.above).trans
      (TypedStack.rests_extend _ (TypedStack.rests_cleared false aligned.above).above)
  refine aligned.resume (.inr wakes) rests.above (fun frame member => ?_) within
    (fun operand member => ?_) (fun checked operand member unknown => ?_) (fun absurd_ => by cases absurd_)
  · obtain ⟨e, entered⟩ := aligned.frames frame member
    exact ⟨rests.floor ▸ entered.reach, TypedStack.take_of_take entered.reach rests.below⟩
  · rw [TypedStack.toList_extend, cleared] at member
    rcases List.mem_append.mp member with old | new
    · exact below operand old
    · exact (mem_operandsOf holds known new).2
  · have length : (s.stack.operands.toList.take s.stack.floor).length = s.stack.floor := by
      rw [List.length_take, ← TypedStack.height_eq]
      exact Nat.min_eq_left aligned.above
    change operand ∈ List.drop s.stack.floor _ at member
    rw [TypedStack.toList_extend, cleared, List.drop_left' length] at member
    exact absurd unknown (ValueType.ne_any (known checked _ (mem_operandsOf holds known member).1))

end WasmFunclets.Validation
