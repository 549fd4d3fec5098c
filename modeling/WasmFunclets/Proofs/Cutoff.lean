import WasmFunclets.Diagnostic
import WasmFunclets.Proofs.Aligned.Records
import WasmFunclets.Proofs.Outlined
import WasmFunclets.Proofs.Signatures

/-! What becomes of a body that is cut off inside a region, between two of its lines: the rest of the
region is missed, but a funclet that loses its header is refused before that if no call to it tells its
parameters. -/

namespace WasmFunclets

open Attempt
open Encoding (Piece join Split)

def Level.funclet? : Level → Option Nat
  | .plain => none
  | .region _ funclet => some funclet

def Outline.funclet? (o : Outline) : Option Nat := o.levels.findSome? Level.funclet?

namespace Validation

variable {setting : Setting} {context : Context} {bytes : List UInt8} {valid : ValidBody}
variable {s t u v : State} {o : Outline} {pieces front back : List Piece} {index : Nat}

theorem funclet?_levelsOf {frames : List Frame} {regions : List OpenRegion}
    (count : regions.length = frames.countP fun frame => frame.construct = .region) :
    (levelsOf (layersOf frames regions)).findSome? Level.funclet? =
      regions.head?.map fun r => r.graph.current := by
  induction frames generalizing regions with
  | nil =>
      obtain rfl := List.length_eq_zero_iff.mp count
      rfl
  | cons frame frames ih =>
      by_cases isRegion : frame.construct = .region
      · cases regions with
        | nil => simp [isRegion] at count
        | cons r regions =>
            rw [layersOf_region isRegion]
            rfl
      · rw [layersOf_plain isRegion]
        rw [List.countP_cons_of_neg (by simpa using isRegion)] at count
        exact ih count

theorem Drawn.funclet? (drawn : Drawn s o) (framed : Framed s) :
    o.funclet? = s.regions.head?.map fun r => r.graph.current := by
  rw [Outline.funclet?, ← drawn.levels]
  exact funclet?_levelsOf framed.count

theorem LineWalk.framed (walk : LineWalk setting s pieces t) (framed : s.control ≠ #[] → Framed s)
    (isOpen : t.control ≠ #[]) : Framed t := by
  induction walk with
  | here s => exact framed isOpen
  | step open_ ok _ _ _ ih => exact ih (fun isOpen' => (framed open_).step ok isOpen') isOpen

theorem LineWalk.drawn (walk : LineWalk setting s pieces t) (framed : s.control ≠ #[] → Framed s)
    (drawn : Drawn s o) : Drawn t (o.readAll s.cursor.offset pieces) := by
  induction walk generalizing o with
  | here s => exact drawn
  | @step s t u p header pieces isOpen ok _ first _ ih =>
      obtain ⟨lines, consumes, drawn'⟩ := step_drawn (framed isOpen) drawn ok
      have same : lines = p :: header.toList :=
        Encoding.join_injective (List.append_cancel_right (consumes.rest.symm.trans first.rest))
      rw [same] at drawn'
      have rest := ih (fun isOpen' => (framed isOpen).step ok isOpen') drawn'
      rwa [first.offset, ← Outline.readAll_append] at rest

theorem step_at_end (nothing : s.cursor.rest = []) (inside : s.regions ≠ []) :
    step setting s = .error (.invalid ⟨.unfinishedRegion, none, none⟩)
      { s with start := s.cursor.offset } := by
  have ends : Ends (step setting) s (fun _ _ => False) fun e t =>
      e = .invalid ⟨.unfinishedRegion, none, none⟩ ∧ t = { s with start := s.cursor.offset } := by
    rw [step, ends_bind, ends_modify, ends_bind, ends_get, ends_bind, ends_require]
    refine ⟨fun left => ?_, fun _ => ⟨rfl, rfl⟩⟩
    simp [Cursor.isEmpty, nothing, inside] at left
  obtain ⟨_, _, failed, rfl, rfl⟩ := ends.fails
  exact failed

theorem validateWith_at_end (opened : openFunction setting.context (initial bytes) = .ok () s)
    (walk : LineWalk setting s pieces t) (isOpen : t.control ≠ #[]) (nothing : t.cursor.rest = [])
    {r : OpenRegion} {outer : List OpenRegion} (regions : t.regions = r :: outer) :
    validateWith setting bytes =
      .error (.invalid ⟨.unfinishedRegion, some r.graph.current, some t.cursor.offset⟩) := by
  have failed := body_of_failure opened walk isOpen
    (step_at_end nothing (by rw [regions]; exact List.cons_ne_nil _ _))
  simp only [validateWith, failed, located, regions]
  rfl

variable {i : Instruction} {c : Cursor} {x : State} {r q : OpenRegion} {outer : List OpenRegion}
variable {node : FuncletNode} {params : List ValueType} {edges : Array CallEdge}

/-- A funclet that is entered, and waits for the parameters that the calls to it agree with. -/
structure Entering (u : State) (index : Nat) (x : State) (r : OpenRegion) (outer : List OpenRegion)
    (node : FuncletNode) (params : List ValueType) (edges : Array CallEdge) : Prop where
  entered : onGraph (FuncletCalls.enter index) { u with start := u.cursor.offset } = .ok () x
  regions : x.regions = r :: outer
  awaits : r.graph.AwaitsParams index node params edges

structure Started (index : Nat) (t : State) (q : OpenRegion) (incoming : Array Nat)
    (params : List ValueType) (edges : Array CallEdge) : Prop where
  head : t.regions.head? = some q
  current : q.graph.current = index
  edges : q.graph.edges = edges
  node : ∃ node, q.graph.nodes[index]? = some node ∧ node.params = some params ∧
    node.incoming = incoming

theorem Entering.current (entering : Entering u index x r outer node params edges) :
    r.graph.current = index := by
  obtain ⟨before, around, graph, _, entered, rfl⟩ := onGraph_ok.mp entering.entered
  obtain ⟨rfl, -⟩ := List.cons.inj entering.regions
  simp only [FuncletCalls.enter, FuncletCalls.modifyNode, bind_ok, get_ok, maintain_ok, modify_ok]
    at entered
  obtain ⟨_, _, ⟨rfl, rfl⟩, _, _, ⟨_, rfl⟩, _, _, rfl, rfl⟩ := entered
  rfl

theorem Entering.started (entering : Entering u index x r outer node params edges)
    {change : FuncletNode → FuncletNode} {w : State} (known : (change node).params = some params)
    (incoming : (change node).incoming = node.incoming)
    (settled : w.regions = { r with graph := r.graph.settled index change edges } :: outer)
    (began : beginFunclet index params w = .ok () t) :
    ∃ q, Started index t q node.incoming params edges := by
  have calls := (beginFunclet_calls index params).of_ok began
  rw [State.calls, State.calls, settled] at calls
  cases regions : t.regions with
  | nil => simp [regions] at calls
  | cons q rest =>
      rw [regions, List.map_cons, List.map_cons] at calls
      have view := (List.cons.inj calls).1
      have nodes : q.graph.nodes.map (fun node => (node.params, node.incoming)) =
          (r.graph.nodes.modify index change).map fun node => (node.params, node.incoming) :=
        congrArg CallView.nodes view
      refine ⟨q, by rw [regions]; rfl, (congrArg CallView.current view).trans entering.current,
        congrArg CallView.edges view, ?_⟩
      have there := congrArg (fun nodes => nodes[index]?) nodes
      simp only [Array.getElem?_map, Array.getElem?_modify, entering.awaits.present, if_true,
        Option.map_some, known, incoming] at there
      obtain ⟨later, present, same⟩ := Option.map_eq_some_iff.mp there
      obtain ⟨known', incoming'⟩ := Prod.mk.inj same
      exact ⟨later, present, known', incoming'⟩

theorem Starting.headed (starting : Starting setting s i c index u) (ok : Validation.step setting s = .ok () t)
    (two : t.decoded = s.decoded + 2) :
    ∃ x r outer node params edges q, Entering u index x r outer node params edges ∧
      Started index t q node.incoming params edges := by
  rw [starting.step] at ok
  obtain ⟨x, header, d, params, y, entered, read, settled, began⟩ := startFunclet_reads.mp ok
  have count : t.decoded = u.decoded + counted header := by
    rw [(blind_beginFunclet _ _).decoded began, (blind_settleFunclet _ _).decoded settled]
    rfl
  rw [two, starting.count] at count
  cases header with
  | none => simp [counted] at count
  | some header =>
      obtain ⟨_, _, declared, done⟩ := bind_ok.mp settled
      obtain ⟨rfl, rfl⟩ := pure_ok.mp done
      obtain ⟨r, outer, graph, regions, settles, rfl⟩ := onGraph_ok.mp declared
      obtain ⟨node, edges, awaits, rfl⟩ := FuncletCalls.declare_ok.mp settles
      have entering : Entering u index x r outer node header.params edges := ⟨entered, regions, awaits⟩
      obtain ⟨q, started⟩ := entering.started rfl rfl rfl began
      exact ⟨x, r, outer, node, header.params, edges, q, entering, started⟩

theorem Starting.without (starting : Starting setting s i c index u)
    (entering : Entering u index x r outer node params edges) {e : List UInt8}
    (decoded : Decode.instruction (scopeOf setting s) ⟨s.cursor.offset, e⟩ = .ok i ⟨c.offset, []⟩) :
    Validation.step setting (s.ahead e) =
      (settleFunclet index none >>= beginFunclet index) (x.moved ⟨c.offset, []⟩ (s.decoded + 1)) := by
  obtain rfl := starting.cursor
  have fetched : Validation.step setting (s.ahead e) =
      execute setting i ((s.fetched u.cursor).moved ⟨u.cursor.offset, []⟩ (s.decoded + 1)) :=
    step_fetched (s := s.ahead e) decoded
  have entered := (blind_onGraph _).of_ok entering.entered ⟨u.cursor.offset, []⟩ (s.decoded + 1)
  have none_ : Decode.funcletHeader setting ⟨u.cursor.offset, []⟩ = .ok none ⟨u.cursor.offset, []⟩ :=
    Decode.funcletHeader_none.mpr ⟨rfl, by simp⟩
  rw [fetched, starting.starts]
  exact startFunclet_settles (s := u.moved ⟨u.cursor.offset, []⟩ (s.decoded + 1))
    (u := x.moved ⟨u.cursor.offset, []⟩ (s.decoded + 1)) entered none_

theorem Started.calls (started : Started index t q node.incoming params edges)
    (entering : Entering u index x r outer node params edges) (derived : q.graph.Derived) :
    (r.graph.edgesTo node).map CallEdge.unchecked =
      (q.graph.edges.toList.filter fun edge => edge.target == index).map CallEdge.unchecked := by
  obtain ⟨later, present, _, incoming⟩ := started.node
  rw [entering.awaits.calls, ← derived.edgesTo_eq present, FuncletCalls.edgesTo, incoming, started.edges]

theorem Started.none_called (started : Started index t q node.incoming params edges)
    (derived : q.graph.Derived) : node.incoming.isEmpty = true ↔
      (q.graph.edges.toList.filter fun edge => edge.target == index) = [] := by
  obtain ⟨later, present, _, incoming⟩ := started.node
  rw [Array.isEmpty_iff, ← Array.toList_eq_nil_iff, ← incoming, (derived.nodes present).incoming]
  simp only [List.eq_nil_iff_forall_not_mem, mem_callsTo, List.mem_filter, Array.mem_toList_iff,
    beq_iff_eq]
  constructor
  · rintro none_ edge ⟨member, target⟩
    obtain ⟨n, place⟩ := Array.mem_iff_getElem?.mp member
    exact none_ n ⟨edge, place, target⟩
  · rintro none_ n ⟨edge, place, target⟩
    exact none_ edge ⟨Array.mem_of_getElem? place, target⟩

theorem cut_polymorphic (later : index ≠ 0) (entering : Entering u index x r outer node params edges)
    (polymorphic : ∀ edge ∈ r.graph.edgesTo node, edge.polymorphic = true) (n : Nat) :
    ∃ w, w.start = u.cursor.offset ∧
      (settleFunclet index none >>= beginFunclet index) (x.moved c n) =
        .error (.invalid ⟨if node.incoming.isEmpty then .unreachableFunclet else .uninferableFunclet,
          some index, none⟩) w := by
  have awaits := entering.awaits
  have failed := FuncletCalls.infer_error awaits.present awaits.entered awaits.undeclared polymorphic
  have start : x.start = u.cursor.offset := by
    obtain ⟨_, _, _, _, _, rfl⟩ := onGraph_ok.mp entering.entered
    rfl
  refine ⟨x.moved c n, start, ?_⟩
  have infers := onGraph_error (s := x.moved c n) entering.regions failed
  have settles : settleFunclet index none = onGraph (FuncletCalls.infer index) := if_neg later
  simp only [settles, bind, EStateM.bind, infers]

theorem cut_direct (later : index ≠ 0) (entering : Entering u index x r outer node params edges)
    {edge : CallEdge} (first : (r.graph.edgesTo node).find? (fun edge => !edge.polymorphic) = some edge)
    (same : edge.args = params) (n : Nat) :
    Ends (settleFunclet index none >>= beginFunclet index) (x.moved c n)
      (fun _ t => t.cursor = c ∧ t.decoded = n ∧ t.control ≠ #[] ∧
        ∃ q, Started index t q node.incoming params edges)
      fun e _ => ¬ e.IsRefusal := by
  obtain ⟨graph, made⟩ : ∃ graph, graph = r.graph.settled index
    (fun node => { node with params := some params }) edges := ⟨_, rfl⟩
  have inferred : FuncletCalls.infer index r.graph = .ok params graph :=
    FuncletCalls.infer_ok.mpr ⟨node, edges, edge, entering.awaits, first, same, made⟩
  have infers : onGraph (FuncletCalls.infer index) (x.moved c n) = .ok params
      { x.moved c n with regions := { r with graph } :: outer } :=
    onGraph_ok.mpr ⟨r, outer, graph, entering.regions, inferred, rfl⟩
  have settles : settleFunclet index none = onGraph (FuncletCalls.infer index) := if_neg later
  rw [settles]
  refine ends_bind_of_ok infers (ends_of_forall (fun _ t ok => ?_) fun e t error => ?_)
  · exact ⟨(blind_beginFunclet _ _).cursor ok, (blind_beginFunclet _ _).decoded ok,
      beginFunclet_isOpen ok, entering.started rfl rfl (by rw [made]) ok⟩
  · exact (beginFunclet_unrefused later params _).of_error error

/-- Behind a line that opens a region there are as many bytes as it has funclets. -/
def Roomy (pieces : List Piece) : Prop :=
  ∀ before p after n, pieces = before ++ p :: after → Outline.declares p.line = some n →
    n ≤ (join after).length

def missed (funclet offset : Nat) : Fault :=
  .invalid ⟨.unfinishedRegion, some funclet, some offset⟩

theorem LineWalk.no_header {p : Piece} (walk : LineWalk setting s (p :: pieces) t) :
    p.line.opcode ≠ Decode.funcletSig := by
  generalize whole : p :: pieces = lines at walk
  cases walk with
  | here => cases whole
  | @step _ t _ q header rest isOpen ok isHeader first walk =>
      obtain ⟨rfl, -⟩ := List.cons.inj whole
      obtain ⟨q', header', i, c, _, found, _, _, _, consumes⟩ := step_consumes ok
      have lines : join (q' :: header'.toList) = join (p :: header.toList) :=
        List.append_cancel_right (consumes.rest.symm.trans first.rest)
      obtain ⟨rfl, -⟩ := List.cons.inj (Encoding.join_injective lines)
      intro isSig
      rw [Decode.resolve, isSig] at found
      cases found

section Cut

variable {split : Split bytes} {p q : Piece}

theorem Walked.region (walked : Walked setting split valid s t) (before : LineWalk setting s front u)
    (inside : (Outline.start.readAll split.head.length front).funclet? = some index) :
    u.control ≠ #[] ∧ ∃ r outer, u.regions = r :: outer ∧ r.graph.current = index := by
  obtain ⟨_, _, _, _, _, _, drawn⟩ := openFunction_drawn walked.opened
  have framed := framed_of_openFunction walked.opened
  have here := before.drawn (fun _ => framed) drawn
  rw [walked.offset] at here
  have isOpen : u.control ≠ #[] := fun closed => by
    have levels := here.levels
    rw [State.layers, State.frames, closed] at levels
    rw [Outline.funclet?, ← levels] at inside
    cases inside
  have regions := here.funclet? (before.framed (fun _ => framed) isOpen)
  rw [inside] at regions
  obtain ⟨r, head, current⟩ := Option.map_eq_some_iff.mp regions.symm
  cases rest : u.regions with
  | nil => simp [rest] at head
  | cons q outer => exact ⟨isOpen, q, outer, rfl, by rw [← current]; simp [rest] at head; rw [head]⟩

theorem LineWalk.cutOff {rest : List UInt8} (walk : LineWalk setting s front u) (there : rest <+: u.cursor.rest)
    (roomy : ∀ before p after n, front = before ++ p :: after → Outline.declares p.line = some n →
      n ≤ (join after ++ rest).length) :
    LineWalk setting (s.ahead (join front ++ rest)) front (u.ahead rest) := by
  obtain ⟨tail, split⟩ := there
  have behind : LineWalk setting (s.ahead (join front ++ (rest ++ []))) front (u.ahead (rest ++ [])) :=
    walk.behind rfl split.symm
      (fun _ a p b n same declares => by simpa using roomy a p b n same declares) fun _ => by simp
  rwa [List.append_nil] at behind

theorem Walked.cut_between (walked : Walked setting split valid s t) (roomy : Roomy front)
    (inside : (Outline.start.readAll split.head.length front).funclet? = some index)
    (before : LineWalk setting s front u) :
    validateWith setting (split.head ++ join front) =
      .error (missed index (split.head ++ join front).length) := by
  obtain ⟨isOpen, r, outer, regions, rfl⟩ := walked.region before inside
  have walk := before.cutOff List.nil_prefix fun a p b n same declares => by
    simpa using roomy a p b n same declares
  rw [List.append_nil] at walk
  have place : u.cursor.offset = (split.head ++ join front).length := by
    rw [before.consumes.offset, walked.offset, List.length_append]
  rw [← place]
  exact validateWith_at_end (walked.reopens _) walk isOpen rfl regions

theorem args_of_direct (typed : setting.context.ValueTyped) (reached : Reached setting bytes v)
    (isOpen : v.control ≠ #[]) (member : r ∈ v.regions) {edge : CallEdge}
    (listed : edge ∈ r.graph.edges) (present : r.graph.nodes[edge.target]? = some node)
    (known : node.params = some params) (direct : edge.polymorphic = false) : edge.args = params := by
  have midway := @Reached.midway setting true bytes v reached fun _ => typed
  obtain ⟨f, written, aligned⟩ := midway.aligned
  have settled := (midway.framed (frames_ne_nil isOpen)).settled r member
  obtain ⟨n, place⟩ := Array.mem_iff_getElem?.mp listed
  have checked := settled.checked_of_params place present (by simp [known])
  obtain ⟨node', params', present', known', agrees⟩ := settled.agrees_of_checked place checked
  obtain rfl : node = node' := Option.some.inj (present.symm.trans present')
  obtain rfl : params = params' := Option.some.inj (known.symm.trans known')
  obtain ⟨_, length, each⟩ := agrees_drop agrees
  have same := length.resolve_left (by simp [direct])
  rw [same, Nat.sub_self, List.drop_zero] at each
  exact eq_of_known each (((aligned.regions r member).known rfl).2 edge listed direct)

/-- What a body is refused for that is cut off between a funclet and its header, as the calls to the
funclet are. -/
structure Headless (setting : Setting) (cut : List UInt8) (index : Nat) (calls : List CallEdge) : Prop where
  polymorphic : (∀ edge ∈ calls, edge.polymorphic = true) → validateWith setting cut =
    .error (.invalid ⟨if calls = [] then .unreachableFunclet else .uninferableFunclet, some index,
      some cut.length⟩)
  direct : setting.context.ValueTyped → (∃ edge ∈ calls, edge.polymorphic = false) →
    validateWith setting cut = .error (missed index cut.length) ∨
      validateWith setting cut = .error (.broken .arenaExhausted) ∧
        Ssa.Builder.arenaLimit ≤ (remains setting cut).values.size

/-- A line that starts a funclet is read without the header of the funclet as it is read with it, and
the funclet is not the first one of its region. -/
theorem Starting.cut (starting : Starting setting u i c index w) (ok : Validation.step setting u = .ok () v)
    (first : Consumes [p, q] u v) (room : ∀ n, Outline.declares p.line = some n → n = 0) :
    index ≠ 0 ∧ c.offset = u.cursor.offset + p.bytes.length ∧ p.bytes <+: u.cursor.rest ∧
      Decode.instruction (scopeOf setting u) ⟨u.cursor.offset, p.bytes⟩ = .ok i ⟨c.offset, []⟩ := by
  obtain ⟨p', header, i', c', decoded, found, _, behind, _, consumes⟩ := step_consumes ok
  obtain ⟨rfl, rfl⟩ := EStateM.Result.ok.inj (starting.decoded.symm.trans decoded)
  have lines : join (p' :: header.toList) = join [p, q] :=
    List.append_cancel_right (consumes.rest.symm.trans first.rest)
  obtain ⟨rfl, sameHeader⟩ := List.cons.inj (Encoding.join_injective lines)
  have closed {signature : Signature} {n : Nat} (opens : i = .funcletRegion signature n) : False := by
    obtain ⟨declares, some_⟩ := declares_of_resolve (opens ▸ found)
    exact some_ (room n declares)
  have split : u.cursor.rest = p'.bytes ++ c.rest := by
    rw [consumes.rest, behind, Encoding.join_cons, List.append_assoc]
  have within : Decode.FuncletsBounded setting i ([] ++ []) := fun _ _ _ opens => (closed opens).elim
  obtain ⟨e, rest, decoded'⟩ := instruction_behind rfl decoded (List.nil_append c.rest).symm within
  rw [List.append_nil] at rest
  obtain rfl : e = p'.bytes := List.append_cancel_right (rest.symm.trans split)
  have total := ((Decode.instruction_consumes _ _).of_ok decoded).1.total
  rw [split, List.length_append] at total
  refine ⟨fun none_ => ?_, by omega, ⟨_, split.symm⟩, by simpa using decoded'⟩
  obtain ⟨_, _, opens⟩ := starting.first.mp none_
  exact closed opens

/-- The calls that the funclet waits for are those that are recorded once it has begun. -/
theorem Started.polymorphic {d : OpenRegion} (started : Started index v d node.incoming params edges)
    (entering : Entering u index x r outer node params edges) (derived : d.graph.Derived)
    (polymorphic : ∀ edge ∈ d.graph.edges.toList.filter fun edge => edge.target == index,
      edge.polymorphic = true) : ∀ edge ∈ r.graph.edgesTo node, edge.polymorphic = true := by
  intro edge member
  obtain ⟨edge', member', same⟩ :=
    List.mem_map.mp (started.calls entering derived ▸ List.mem_map_of_mem member)
  exact (congrArg CallEdge.polymorphic same).symm.trans (polymorphic edge' member')

theorem Started.direct {d : OpenRegion} (started : Started index v d node.incoming params edges)
    (entering : Entering u index x r outer node params edges) (derived : d.graph.Derived)
    (typed : setting.context.ValueTyped) (reached : Reached setting bytes v) (isOpen : v.control ≠ #[])
    (member : d ∈ v.regions) (direct : ∃ edge ∈ d.graph.edges.toList.filter fun edge =>
      edge.target == index, edge.polymorphic = false) :
    ∃ edge, (r.graph.edgesTo node).find? (fun edge => !edge.polymorphic) = some edge ∧
      edge.args = params := by
  have calls := started.calls entering derived
  have agree : ∀ edge ∈ r.graph.edgesTo node, edge.polymorphic = false → edge.args = params := by
    intro edge listed direct
    obtain ⟨edge', member', same⟩ := List.mem_map.mp (calls ▸ List.mem_map_of_mem listed)
    obtain ⟨recorded, target⟩ := List.mem_filter.mp member'
    obtain ⟨last, present, known, _⟩ := started.node
    rw [← show edge'.target = index by simpa using target] at present
    have args := args_of_direct typed reached isOpen member (Array.mem_toList_iff.mp recorded) present
      known ((congrArg CallEdge.polymorphic same).trans direct)
    exact (congrArg CallEdge.args same).symm.trans args
  obtain ⟨edge', member', isDirect⟩ := direct
  obtain ⟨edge, listed, same⟩ := List.mem_map.mp (calls.symm ▸ List.mem_map_of_mem member')
  have called : (r.graph.edgesTo node).find? (fun edge => !edge.polymorphic) ≠ none := by
    rw [Ne, List.find?_eq_none]
    intro none_
    have isDirect : edge.polymorphic = false := (congrArg CallEdge.polymorphic same).trans isDirect
    simpa [isDirect] using none_ edge listed
  obtain ⟨edge, found⟩ := Option.ne_none_iff_exists'.mp called
  exact ⟨edge, found, agree edge (List.mem_of_find?_eq_some found)
    (by simpa using List.find?_some found)⟩

theorem Walked.cut_header (walked : Walked setting split valid s t) (roomy : Roomy (front ++ [p]))
    (inside : (Outline.start.readAll split.head.length (front ++ [p])).funclet? = some index)
    (before : LineWalk setting s front u) (isOpen : u.control ≠ #[]) (ok : step setting u = .ok () v)
    (isHeader : q.line.opcode = Decode.funcletSig) (first : Consumes [p, q] u v) :
    ∃ r, v.regions.head? = some r ∧ r.graph.current = index ∧
      Headless setting (split.head ++ join (front ++ [p])) index
        (r.graph.edges.toList.filter fun edge => edge.target == index) := by
  obtain ⟨i, c, k, w, starting⟩ := starting_of_header ok first.decoded
  obtain ⟨x, r, outer, node, params, edges, d, entering, started⟩ := starting.headed ok first.decoded
  -- The whole body up to the header.
  have headers : ∀ h ∈ some q, h.line.opcode = Decode.funcletSig := by
    rintro _ ⟨⟩
    exact isHeader
  have taken : LineWalk setting s (front ++ [p, q]) v :=
    before.append (@LineWalk.step setting u v v p (some q) [] isOpen ok headers first (.here v))
  have unread : Outline.start.readAll split.head.length (front ++ [p, q]) =
      Outline.start.readAll split.head.length (front ++ [p]) := by
    rw [show front ++ [p, q] = (front ++ [p]) ++ [q] by simp, Outline.readAll_append]
    exact Outline.readAll_headers _ _ (by simpa using isHeader)
  obtain ⟨isOpen', d', around, regions, current⟩ := walked.region taken (unread ▸ inside)
  have head := started.head
  rw [regions] at head
  obtain rfl := Option.some.inj head
  obtain rfl : k = index := started.current.symm.trans current
  have reached := taken.reached (.opened walked.opened)
  have inner : d' ∈ v.regions := by simp [regions]
  have derived : d'.graph.Derived := by
    obtain ⟨f, written, aligned⟩ := reached.loose.aligned
    exact (aligned.regions d' inner).derived
  refine ⟨d', by rw [regions]; rfl, current, ?_⟩
  -- The body that is cut off.
  obtain ⟨later, place, there, decoded⟩ := starting.cut ok first fun n declares => by
    simpa using roomy front p [] n rfl declares
  have walk := before.cutOff there fun a h b n same declares => by
    simpa using roomy a h (b ++ [p]) n (by simp [same]) declares
  have whole : split.head ++ join (front ++ [p]) = split.head ++ (join front ++ p.bytes) := by simp
  have opened := walked.reopens (join front ++ p.bytes)
  have final : c.offset = (split.head ++ (join front ++ p.bytes)).length := by
    rw [place, before.consumes.offset, walked.offset]
    simp [Nat.add_assoc]
  have stepped := starting.without entering decoded
  rw [whole]
  refine ⟨fun polymorphic => ?_, fun typed direct => ?_⟩
  · have all := started.polymorphic entering derived polymorphic
    obtain ⟨y, start, failed⟩ := cut_polymorphic (c := ⟨c.offset, []⟩) later entering all (u.decoded + 1)
    have refused := body_of_failure opened walk isOpen (stepped.trans failed)
    have start : y.start = (split.head ++ (join front ++ p.bytes)).length := by
      rw [start, starting.cursor, final]
    have cause : (if node.incoming.isEmpty = true then Cause.unreachableFunclet
        else .uninferableFunclet) = if (d'.graph.edges.toList.filter fun edge => edge.target == k) = []
        then .unreachableFunclet else .uninferableFunclet :=
      if_congr (started.none_called derived) rfl rfl
    simp only [validateWith, refused, located, cause, start]
    rfl
  · obtain ⟨edge, found, args⟩ :=
      started.direct entering derived typed reached isOpen' inner direct
    have ends := cut_direct (c := ⟨c.offset, []⟩) later entering found args (u.decoded + 1)
    cases outcome : step setting (u.ahead p.bytes) with
    | ok _ y =>
      obtain ⟨cursor, count, isOpen'', z, again⟩ := ends.of_ok (stepped.symm.trans outcome)
      have lines : Consumes [p] (u.ahead p.bytes) y := by
        refine ⟨?_, ?_, count⟩
        · rw [cursor]
          simp [State.ahead, State.moved]
        · rw [cursor, place]
          simp [State.ahead, State.moved]
      have walk := walk.append (@LineWalk.step setting _ y y p none [] isOpen outcome (by simp) lines (.here y))
      obtain ⟨rest, opens⟩ : ∃ rest, y.regions = z :: rest := List.head?_eq_some_iff.mp again.head
      have refused := validateWith_at_end opened walk isOpen'' (by rw [cursor]) opens
      rw [again.current, cursor, final] at refused
      exact .inl refused
    | error e y =>
      have failed := body_of_failure opened walk isOpen outcome
      have midway := @body_midway setting false (fun never => absurd never Bool.false_ne_true)
        (split.head ++ (join front ++ p.bytes))
      obtain ⟨rfl, full⟩ := (midway.of_error failed).resolve_left (ends.of_error (stepped.symm.trans outcome))
      refine .inr ⟨by simp only [validateWith, failed], ?_⟩
      rwa [remains, failed]

end Cut

/-- A body that is accepted, and cut off between two lines while a region is open, is refused as
structural: funclets of the region are missed at the end of the input. Only where the header of a
funclet is cut off, all of whose calls come from unreachable code, it is refused instead because the
signature of the funclet is unresolved. -/
theorem cutoff_inside_region (context : Context) (bytes : List UInt8) {valid : ValidBody}
    (accepted : validate context bytes = .ok valid) (split : Split bytes) {front back : List Piece}
    {index : Nat} (whole : split.pieces = front ++ back) (roomy : Roomy front)
    (inside : (Outline.start.readAll split.head.length front).funclet? = some index) :
    ((∀ q ∈ back.head?, q.line.opcode ≠ Decode.funcletSig) →
      validate context (split.head ++ join front) =
        .error (missed index (split.head ++ join front).length)) ∧
    ∀ q ∈ back.head?, q.line.opcode = Decode.funcletSig → ∃ t r, Reached ⟨context, true⟩ bytes t ∧
      t.cursor.offset = (split.head ++ join front).length + q.bytes.length ∧
      t.regions.head? = some r ∧ r.graph.current = index ∧
      Headless ⟨context, true⟩ (split.head ++ join front) index
        (r.graph.edges.toList.filter fun edge => edge.target == index) := by
  obtain ⟨s, t, walked⟩ := walked_of_valid accepted split
  rcases (whole ▸ walked.walk).cut with ⟨u, before, behind⟩ |
    ⟨u, v, before, p, q, after, rfl, rfl, walk, isOpen, ok, isHeader, first, _⟩
  · refine ⟨fun _ => walked.cut_between roomy inside before, fun q next isHeader => ?_⟩
    cases back with
    | nil => cases next
    | cons p back =>
        obtain rfl : p = q := by simpa using next
        exact absurd isHeader behind.no_header
  · refine ⟨fun none_ => absurd isHeader (none_ q (by simp)), fun q' next _ => ?_⟩
    obtain rfl : q = q' := by simpa using next
    obtain ⟨r, head, current, headless⟩ := walked.cut_header roomy inside walk isOpen ok isHeader first
    have reached := (walk.reached (.opened walked.opened)).step isOpen ok
    refine ⟨v, r, reached, ?_, head, current, headless⟩
    rw [first.offset, walk.consumes.offset, walked.offset]
    simp [Nat.add_assoc]

def headless : List UInt8 :=
  [0x00, 0x16, 0x40, 0x02, 0x01, 0x00, 0x17, 0x00, 0x00, 0x0b, 0x0b]

theorem headless_valid : ∃ valid, validate bareContext headless = .ok valid :=
  exists_of_isOk (by decide +kernel)

theorem two_written : Encoding.Unsigned 32 2 [0x02] :=
  @Encoding.Unsigned.last 32 0x02 (by decide) (by decide)

def headlessSplit : Split headless where
  head := [0x00]
  runs := []
  pieces := [
    ⟨⟨⟨0x16, "funclet_region", .funcletRegion⟩, .region .empty 2⟩, [0x16, 0x40, 0x02],
      .mk rfl (.region .empty two_written)⟩,
    ⟨⟨⟨0x01, "nop", .nop⟩, .nothing⟩, [0x01], .mk rfl .nothing⟩,
    ⟨⟨⟨0x00, "unreachable", .unreachable⟩, .nothing⟩, [0x00], .mk rfl .nothing⟩,
    ⟨⟨Decode.funcletSig, .header [] 0⟩, [0x17, 0x00, 0x00],
      .mk rfl (@Encoding.OfImmediate.header [] 0 [0x00] [] [0x00] Encoding.zero_written .nil
        Encoding.zero_written)⟩,
    ⟨_, _, Encoding.end_written⟩,
    ⟨_, _, Encoding.end_written⟩]
  locals := Encoding.noLocals_written
  whole := rfl

/-- Cut off in front of the header, the body is not refused as structural. -/
theorem headless_unresolved : (∃ valid, validate bareContext headless = .ok valid) ∧
    validate bareContext (headless.take 6) =
      .error (.invalid ⟨.unreachableFunclet, some 1, some 6⟩) := by
  refine ⟨headless_valid, ?_⟩
  have outcome : (match validate bareContext (headless.take 6) with
      | .ok _ => none
      | .error fault => some fault) = some (.invalid ⟨.unreachableFunclet, some 1, some 6⟩) := by
    decide +kernel
  split at outcome
  · cases outcome
  · rename_i refused
    rw [refused, Option.some.inj outcome]

theorem cutoff_inside_region_headless :
    validate bareContext (headless.take 9) = .error (missed 1 9) ∧
    ∃ t r, Reached ⟨bareContext, true⟩ headless t ∧ t.cursor.offset = 9 ∧
      t.regions.head? = some r ∧ r.graph.current = 1 ∧
      Headless ⟨bareContext, true⟩ (headless.take 6) 1
        (r.graph.edges.toList.filter fun edge => edge.target == 1) := by
  obtain ⟨valid, accepted⟩ := headless_valid
  have roomy {front : List Piece} (some_ : 2 ≤ (join front.tail).length)
      (once : ∀ p ∈ front.tail, Outline.declares p.line = none)
      (first : ∀ p ∈ front.head?, Outline.declares p.line = some 2) : Roomy front := by
    rintro before p after n rfl declares
    cases before with
    | nil =>
        obtain rfl := Option.some.inj ((first p rfl).symm.trans declares)
        exact some_
    | cons q before => simp [once p (by simp)] at declares
  have behind := (@cutoff_inside_region bareContext headless valid accepted headlessSplit
    (headlessSplit.pieces.take 4) (headlessSplit.pieces.drop 4) 1 rfl
    (roomy (by decide) (by decide) (by decide)) (by decide)).1 (by decide)
  have before := (@cutoff_inside_region bareContext headless valid accepted headlessSplit
    (headlessSplit.pieces.take 3) (headlessSplit.pieces.drop 3) 1 rfl
    (roomy (by decide) (by decide) (by decide)) (by decide)).2 _ rfl rfl
  exact ⟨behind, before⟩

end Validation

end WasmFunclets
