import WasmFunclets.Proofs.Headers

/-! A header that tells no more than what is known without it can be put into a body and taken out of it:
the rest of the body is validated alike. -/

namespace WasmFunclets

open Attempt
open Encoding (Piece join Split)

/-- The body with what is recorded of its regions relabelled, and so many instructions. -/
def ValidBody.relabelled (valid : ValidBody) (ρ : Relabelling) (instructions : Nat) : ValidBody :=
  ⟨instructions, valid.regions.map ρ.region, valid.builder, valid.exit⟩

namespace Validation

variable {setting other : Setting} {context : Context} {bytes : List UInt8} {valid : ValidBody}
variable {s t u v w x : State} {c d : Cursor} {place index n : Nat} {r : OpenRegion}
variable {outer : List OpenRegion} {node : FuncletNode} {params : List ValueType}
variable {edges : Array CallEdge} {header header' : Option Decode.FuncletHeader} {explicit : Bool}

theorem Entering.inFront (entering : Entering w index x r outer node params edges)
    (front : InFront place w.regions w.closed) : InFront place x.regions x.closed :=
  StartsKeep.onGraph (s := { w with start := w.cursor.offset }) (startsKeep_inFront place).enter front
    entering.entered

theorem startFunclet_tells (front : InFront place w.regions w.closed)
    (ok : startFunclet setting index w = .ok () v)
    (read : Decode.funcletHeader setting w.cursor = .ok header v.cursor)
    (nothing : ∀ h ∈ header, h.predecessors = 0) : ∃ x r outer node params edges,
      Entering w index x r outer node params edges ∧ Tells r.graph index node params header ∧
        beginFunclet index params ((x.moved v.cursor (w.decoded + counted header)).told r outer index
          params header.isSome edges) = .ok () v := by
  obtain ⟨x, found, d, params, y, entered, first, settled, began⟩ := startFunclet_reads.mp ok
  obtain ⟨rfl, rfl⟩ := EStateM.Result.ok.inj (read.symm.trans first)
  have after := StartsKeep.onGraph (s := { w with start := w.cursor.offset }) (startsKeep_inFront place).enter
    front entered
  obtain ⟨_, _, g, _, _, rfl⟩ := onGraph_ok.mp entered
  have tidy := (after.regions _ List.mem_cons_self).2
  obtain ⟨node, edges, awaits, tells, rfl⟩ := (settleFunclet_ok rfl tidy nothing).mp settled
  exact ⟨_, _, _, node, params, edges, ⟨entered, rfl, awaits⟩, tells, began⟩

theorem Entering.visited (entering : Entering w index x r outer node params edges) :
    index < r.graph.visited := by
  obtain ⟨_, _, _, _, entered, rfl⟩ := onGraph_ok.mp entering.entered
  obtain ⟨rfl, -⟩ := List.cons.inj entering.regions
  obtain ⟨⟨rfl, _⟩, rfl⟩ := FuncletCalls.enter_ok.mp entered
  exact Nat.lt_succ_self _

theorem Entering.still (entering : Entering w index x r outer node params edges) :
    x.start = w.cursor.offset ∧ x.closed = w.closed := by
  obtain ⟨_, _, _, _, _, rfl⟩ := onGraph_ok.mp entering.entered
  exact ⟨rfl, rfl⟩

/-- With another header, or without one, that tells the same parameters, a funclet starts alike. -/
theorem Entering.exchange (entering : Entering w index x r outer node params edges)
    (front : InFront place w.regions w.closed) (tells : Tells r.graph index node params header)
    (outside : ∀ q ∈ outer, q.offset ≠ r.offset) (closed : ∀ q ∈ x.closed, q.offset ≠ r.offset)
    (away : w.cursor.offset ≠ r.offset)
    (began : beginFunclet index params ((x.moved v.cursor n).told r outer index params explicit edges) =
      .ok () v)
    (offset : c.offset = w.cursor.offset) (read : Decode.funcletHeader other c = .ok header d) (m : Nat) :
    startFunclet other index (w.moved c m) =
      .ok () ((v.relabelled (marking r.offset index header.isSome)).moved d (m + counted header)) := by
  have tidy : r.graph.Tidy place := ((entering.inFront front).regions r (by simp [entering.regions])).2
  have nothing : ∀ h ∈ header, h.predecessors = 0 := by
    rintro h ⟨⟩
    exact congrArg Decode.FuncletHeader.predecessors tells
  have start := entering.still.1
  have entered := (blind_onGraph _).of_ok entering.entered c m
  have began' := (carried_beginFunclet (ρ := marking r.offset index header.isSome) index params _ () v
    (start ▸ away) began).2
  rw [relabelled_told (s := x.moved v.cursor n) outside closed] at began'
  refine startFunclet_reads.mpr ⟨x.moved c m, header, d, params, _, ?_, read,
    (settleFunclet_ok (s := x.moved d (m + counted header)) entering.regions tidy nothing).mpr
      ⟨node, edges, entering.awaits, tells, rfl⟩,
    (blind_beginFunclet _ _).of_ok began' d (m + counted header)⟩
  rw [← entered]
  simp only [State.moved, offset]

theorem beginFunclet_block (ok : beginFunclet index params s = .ok () t)
    (regions : s.regions = r :: outer) : index < r.blocks.size := by
  unfold beginFunclet at ok
  obtain ⟨frame, _, top, ok⟩ := bind_ok.mp ok
  obtain ⟨_, rfl⟩ := innermost_ok.mp top
  obtain ⟨_, _, needs, ok⟩ := bind_ok.mp ok
  obtain ⟨_, rfl⟩ := require_ok.mp needs
  obtain ⟨region, _, inner, ok⟩ := bind_ok.mp ok
  obtain ⟨head, rfl⟩ := openRegion_ok.mp inner
  obtain ⟨block, _, found, ok⟩ := bind_ok.mp ok
  obtain ⟨present, _⟩ := blockOf_ok.mp found
  rw [regions] at head
  obtain rfl := Option.some.inj head
  exact (Array.getElem?_eq_some_iff.mp present).1

section Started

variable (entering : Entering w index x r outer node params edges)
variable (front : InFront place w.regions w.closed)
variable (began : beginFunclet index params ((x.moved c n).told r outer index params explicit edges) =
  .ok () v)

include entering front began

def Called (g : FuncletCalls) (node : FuncletNode) : Prop :=
  ∃ call ∈ g.edgesTo node, call.polymorphic = false

theorem Entering.remembers :
    Remembers r.offset index params explicit (Called r.graph node) v.regions v.closed := by
  have tidy : r.graph.Tidy place := ((entering.inFront front).regions r (by simp [entering.regions])).2
  have block : index < r.blocks.size :=
    beginFunclet_block (r := { r with graph := told r.graph index params explicit edges }) began rfl
  refine startsKeep_remembers.begins (.inl ⟨{ r with graph := told r.graph index params explicit edges },
    List.mem_cons_self, rfl, block, ?_, ?_, ?_, fun call member direct => ?_⟩) began
  · exact Nat.le_of_eq entering.current.symm
  · exact entering.visited
  · refine ⟨{ node with params := some params, explicit }, ?_, rfl, rfl⟩
    rw [told, FuncletCalls.settled, Array.getElem?_modify, if_pos rfl, entering.awaits.present]
    rfl
  · obtain ⟨old, member, same⟩ := SameCalls.mem entering.awaits.same member
    have target : old.target = index := (congrArg CallEdge.target same).trans direct.1
    refine ⟨old, ?_, (congrArg CallEdge.polymorphic same).trans direct.2.2⟩
    rw [tidy.toAccounted.edgesTo_eq entering.awaits.present]
    exact List.mem_filter.mpr ⟨Array.mem_toList_iff.mpr member, by simp [target]⟩

/-- The first call that tells the parameters passes just these. -/
theorem Entering.infers (typed : setting.context.ValueTyped) (reached : Reached setting bytes v)
    (called : Called r.graph node) : ∃ call,
      (r.graph.edgesTo node).find? (fun call => !call.polymorphic) = some call ∧ call.args = params := by
  have tidy : r.graph.Tidy place := ((entering.inFront front).regions r (by simp [entering.regions])).2
  obtain ⟨direct, listed, isDirect⟩ := called
  have some_ : (r.graph.edgesTo node).find? (fun call => !call.polymorphic) ≠ none := by
    rw [Ne, List.find?_eq_none]
    intro none_
    simpa [isDirect] using none_ direct listed
  obtain ⟨call, found⟩ := Option.ne_none_iff_exists'.mp some_
  have known : call.polymorphic = false := by simpa using List.find?_some found
  have member := List.mem_of_find?_eq_some found
  rw [tidy.toAccounted.edgesTo_eq entering.awaits.present, List.mem_filter] at member
  -- The call is checked against the parameters once these are told.
  obtain ⟨later, member', same⟩ := SameCalls.mem (Eq.symm entering.awaits.same)
    (Array.mem_toList_iff.mp member.1)
  obtain ⟨q, started⟩ : ∃ q, Started index v q node.incoming params edges := by
    let change (n : FuncletNode) : FuncletNode := { n with params := some params, explicit }
    exact entering.started (show (change node).params = some params from rfl) rfl rfl began
  obtain ⟨node', present, params', _⟩ := started.node
  have target : later.target = call.target :=
    show later.unchecked.target = call.unchecked.target from congrArg CallEdge.target same
  have polymorphic : later.polymorphic = call.polymorphic :=
    show later.unchecked.polymorphic = call.unchecked.polymorphic from
      congrArg CallEdge.polymorphic same
  have here : later.target = index := target.trans (by simpa using member.2)
  have args := args_of_direct typed reached (beginFunclet_isOpen began)
    (List.mem_of_mem_head? (by simp [started.head])) (started.edges ▸ member') (here ▸ present) params'
    (polymorphic.trans known)
  exact ⟨call, found, (congrArg CallEdge.args same).symm.trans args⟩

end Started

def HeaderLines (H : Option Piece) (header : Option Decode.FuncletHeader) : Prop :=
  H.map Piece.line = header.map Decode.headerLine

theorem headerLines_of_read {H : Option Piece} (read : Decode.funcletHeader setting c = .ok header d)
    (here : c.rest = join H.toList ++ d.rest) : HeaderLines H header := by
  cases header with
  | none =>
      obtain ⟨rfl, -⟩ := Decode.funcletHeader_none.mp read
      have nothing : join H.toList = [] := List.append_cancel_right (here.symm.trans rfl)
      obtain rfl : H = none := by
        cases H with
        | none => rfl
        | some h => exact absurd (List.append_eq_nil_iff.mp nothing).1 h.bytes_ne_nil
      rfl
  | some header =>
      obtain ⟨e, written, split, -⟩ := Decode.funcletHeader_some.mp read
      have same : e = join H.toList := List.append_cancel_right (split.symm.trans here)
      obtain ⟨⟩ | ⟨h⟩ := H
      · exact absurd (same ▸ written) Encoding.line_ne_nil
      · obtain rfl : e = h.bytes := by simpa using same
        obtain ⟨line, -, -⟩ := Encoding.line_free written h.written (rfl : h.bytes ++ [] = h.bytes ++ [])
        exact congrArg some line.symm

theorem HeaderLines.read {H : Option Piece} {rest : List UInt8} (lines : HeaderLines H header)
    (here : c.rest = join H.toList ++ rest) (ahead : rest.head? ≠ some Opcode.funcletSigByte) :
    Decode.funcletHeader setting c = .ok header ⟨c.offset + (join H.toList).length, rest⟩ := by
  cases header with
  | none =>
      obtain rfl := Option.map_eq_none_iff.mp lines
      obtain rfl : c.rest = rest := here
      exact Decode.funcletHeader_none.mpr ⟨rfl, ahead⟩
  | some header =>
      obtain ⟨h, rfl, line⟩ := Option.map_eq_some_iff.mp lines
      refine Decode.funcletHeader_some.mpr ⟨h.bytes, line ▸ h.written, ?_, ?_⟩
      · simpa using here
      · simp

theorem HeaderLines.opcode {H : Option Piece} (lines : HeaderLines H header) {h : Piece} (is : h ∈ H) :
    h.line.opcode = Decode.funcletSig := by
  obtain rfl : H = some h := is
  obtain ⟨_, -, line⟩ := Option.map_eq_some_iff.mp (Eq.symm lines)
  rw [← line]
  rfl

theorem HeaderLines.count {H : Option Piece} (lines : HeaderLines H header) :
    H.toList.length = counted header := by
  have same := congrArg (fun o => o.toList.length) lines
  simpa [counted, Option.toList_map] using same

/-- Where an offset comes to lie when old bytes at a place are exchanged for new ones. -/
def shifted (place old new offset : Nat) : Nat :=
  if offset < place + old then offset else offset - old + new

def exchanging (place old new home index : Nat) (explicit : Bool) : Relabelling :=
  ⟨shifted place old new, home, index, explicit⟩

variable {old new home : Nat}

theorem rigid_exchanging (before : home < place) :
    (exchanging place old new home index explicit).Rigid (place + old) where
  behind := Nat.lt_of_lt_of_le before (Nat.le_add_right _ _)
  onward a b behind := by
    change shifted place old new (a + b) = shifted place old new a + b
    rw [shifted, shifted, if_neg (by omega), if_neg (by omega)]
    omega

/-- What stands in front of the place stays where it is. -/
theorem relabelled_exchanging (front : InFront place s.regions s.closed) :
    s.relabelled (exchanging place old new home index explicit) =
      { s.relabelled (marking home index explicit) with start := shifted place old new s.start } := by
  have still {offset : Nat} (before : offset < place) : shifted place old new offset = offset :=
    if_pos (by omega)
  have calls {edges : Array CallEdge} (before : ∀ call ∈ edges, call.offset < place) :
      edges.map (exchanging place old new home index explicit).edge =
        edges.map (marking home index explicit).edge :=
    Array.map_congr_left fun call member =>
      congrArg (fun offset => { call with offset }) (still (before call member))
  have regions : s.regions.map (exchanging place old new home index explicit).openRegion =
      s.regions.map (marking home index explicit).openRegion :=
    List.map_congr_left fun r member => by
      obtain ⟨offset, tidy⟩ := front.regions r member
      have same := still offset
      simp only [Relabelling.openRegion, Relabelling.graph, calls tidy.calls]
      exact congrArg (fun offset => { r with
        offset := offset
        graph := { r.graph with
          nodes := r.graph.nodes.mapIdx ((marking home index explicit).node r.offset)
          edges := r.graph.edges.map (marking home index explicit).edge } }) same
  have closed : s.closed.map (exchanging place old new home index explicit).region =
      s.closed.map (marking home index explicit).region :=
    Array.map_congr_left fun r member => by
      obtain ⟨offset, before⟩ := front.closed r member
      have same := still offset
      simp only [Relabelling.region, calls before]
      exact congrArg (fun offset => { r with
        offset := offset
        funclets := r.funclets.map ((marking home index explicit).funclet r.offset)
        edges := r.edges.map (marking home index explicit).edge }) same
  simp only [State.relabelled, regions, closed]
  rfl

theorem LineWalk.restart {pieces : List Piece} (walk : LineWalk setting s pieces t) (isOpen : s.control ≠ #[])
    (closed : t.control = #[]) (n : Nat) : LineWalk setting { s with start := n } pieces t := by
  cases walk with
  | here => exact absurd closed isOpen
  | step _ ok isHeader first walk => exact .step isOpen ok isHeader ⟨first.rest, first.offset, first.decoded⟩ walk

theorem LineWalk.lax {pieces : List Piece} (walk : LineWalk ⟨context, true⟩ s pieces t) :
    LineWalk ⟨context, false⟩ s pieces t := by
  induction walk with
  | here s => exact .here s
  | step isOpen ok isHeader first _ ih => exact .step isOpen (step_of_strict ok) isHeader first ih

section Exchange

variable {split : Split bytes} {front rest : List Piece} {p : Piece} {H H' : Option Piece} {i : Instruction}

theorem LineWalk.head?_ne (walk : LineWalk setting s rest t) (isOpen : s.control ≠ #[]) (closed : t.control = #[]) :
    (join rest).head? ≠ some Opcode.funcletSigByte := by
  cases rest with
  | nil =>
      generalize none_ : ([] : List Piece) = lines at walk
      cases walk with
      | here => exact absurd closed isOpen
      | step => cases none_
  | cons q rest =>
      obtain ⟨_, _, listed, -⟩ := Decode.ofLine_iff.mp q.written
      exact Decode.head?_ne q.written (fun header => walk.no_header (Decode.eq_funcletSig listed header)) _

/-- The start of a funclet in a body that is accepted: its line is taken up, and its header if there is
one; the parameters are told, and the funclet begins. -/
structure Entrance (context : Context) (split : Split bytes) (valid : ValidBody) (front : List Piece)
    (p : Piece) (H : Option Piece) (rest : List Piece) (index : Nat) where
  (s u w x v t : State)
  (i : Instruction)
  (r : OpenRegion)
  (outer : List OpenRegion)
  (node : FuncletNode)
  (params : List ValueType)
  (edges : Array CallEdge)
  (header : Option Decode.FuncletHeader)
  walked : Walked ⟨context, true⟩ split valid s t
  passage : Passage ⟨context, true⟩ s front p H rest u v t
  found : Decode.resolve (scopeOf ⟨context, true⟩ u) p.line = some i
  inner : p.line.opcode.form ≠ .funcletSig
  starts : ∀ other d n, execute other i ((u.fetched w.cursor).moved d n) =
    startFunclet other index (w.moved d n)
  place : w.cursor.offset = u.cursor.offset + p.bytes.length
  lines : HeaderLines H header
  started : startFunclet ⟨context, true⟩ index w = .ok () v
  inFront : InFront w.cursor.offset w.regions w.closed
  entering : Entering w index x r outer node params edges
  tells : Tells r.graph index node params header
  began : beginFunclet index params ((x.moved v.cursor (w.decoded + counted header)).told r outer index
    params header.isSome edges) = .ok () v

namespace Entrance

variable (o : Entrance context split valid front p H rest index)

theorem isOpen : o.v.control ≠ #[] := beginFunclet_isOpen o.began

theorem rest_eq : o.v.cursor.rest = join rest := by
  rw [o.passage.behind.consumes.rest, o.walked.nothing, List.append_nil]

theorem offset_eq : o.v.cursor.offset = o.w.cursor.offset + (join H.toList).length := by
  rw [o.passage.first.offset, o.place, Encoding.join_cons, List.length_append, Nat.add_assoc]

theorem apart : (∀ q ∈ o.outer, q.offset ≠ o.r.offset) ∧ ∀ q ∈ o.x.closed, q.offset ≠ o.r.offset := by
  have distinct := o.walked.distinct o.passage.walk
  obtain ⟨-, closed, regions⟩ := beginFunclet_regions o.began
  have offsets : o.v.regions.map OpenRegion.offset = o.r.offset :: o.outer.map OpenRegion.offset := by
    rcases regions with same | ⟨q, around, g, same, -, later⟩
    · rw [same]
      rfl
    · obtain ⟨rfl, rfl⟩ := List.cons.inj same
      rw [later]
      rfl
  rw [offsets, closed] at distinct
  obtain ⟨-, inside, disjoint⟩ := List.nodup_append.mp distinct
  refine ⟨fun q member same => ?_, fun q member same => ?_⟩
  · exact (List.nodup_cons.mp inside).1 (same ▸ List.mem_map_of_mem member)
  · exact disjoint _ (List.mem_map_of_mem (Array.mem_toList_iff.mpr member)) _ List.mem_cons_self same

theorem behind_home : o.r.offset < o.w.cursor.offset :=
  ((o.entering.inFront o.inFront).regions o.r (by rw [o.entering.regions]; exact List.mem_cons_self)).1

theorem elapsed (ρ : Relabelling) (home : ρ.home = o.r.offset) (same : ρ.index = index) :
    Elapsed ρ o.v.regions := by
  refine (startsKeep_elapsed ρ).begins (s := (o.x.moved o.v.cursor (o.w.decoded + counted o.header)).told
    o.r o.outer index o.params o.header.isSome o.edges) ?_ o.began
  intro q member offset
  rcases List.mem_cons.mp member with rfl | around
  · rw [same]
    exact o.entering.visited
  · exact absurd (offset.trans home) (o.apart.1 q around)

def exchange (H' : Option Piece) : Relabelling :=
  exchanging o.w.cursor.offset (join H.toList).length (join H'.toList).length o.r.offset index H'.isSome

variable {header' : Option Decode.FuncletHeader}

def begun (H' : Option Piece) : State :=
  (o.v.relabelled (marking o.r.offset index H'.isSome)).moved
    ⟨o.w.cursor.offset + (join H'.toList).length, join rest⟩ (o.u.decoded + 1 + H'.toList.length)

theorem step_exchanged (lines' : HeaderLines H' header')
    (tells' : Tells o.r.graph index o.node o.params header') :
    Validation.step ⟨context, false⟩ (o.u.ahead (p.bytes ++ (join H'.toList ++ join rest))) =
      .ok () (o.begun H') := by
  let c : Cursor := ⟨o.w.cursor.offset, join H'.toList ++ join rest⟩
  have found : Decode.resolve (scopeOf ⟨context, false⟩ o.u) p.line = some o.i := o.found
  have decoded := (@Decode.instruction_line (scopeOf ⟨context, false⟩ o.u) _ _
    (join H'.toList ++ join rest) ⟨o.u.cursor.offset, p.bytes ++ (join H'.toList ++ join rest)⟩ c _
    p.written o.inner rfl).mpr ⟨found, by rw [← o.place], nofun⟩
  have ahead := o.passage.behind.head?_ne o.isOpen o.walked.closed
  have read : Decode.funcletHeader ⟨context, false⟩ c = .ok header' _ := lines'.read rfl ahead
  have isSome : header'.isSome = H'.isSome := by
    have same := congrArg Option.isSome lines'
    rw [Option.isSome_map, Option.isSome_map] at same
    exact same.symm
  have started := o.entering.exchange o.inFront tells' o.apart.1 o.apart.2 (Nat.ne_of_gt o.behind_home) o.began
    (c := c) rfl read (o.u.decoded + 1)
  rw [isSome, ← lines'.count] at started
  exact step_ok_iff.mpr ⟨o.i, c, decoded, (o.starts ⟨context, false⟩ c (o.u.decoded + 1)).trans started⟩

theorem walk_exchanged (H' : Option Piece) : LineWalk ⟨context, false⟩ (o.begun H') rest
    ((o.t.relabelled (o.exchange H')).moved ((o.exchange H').cursor o.t.cursor)
      (o.u.decoded + 1 + H'.toList.length + rest.length)) := by
  have front := (startsKeep_inFront _).starts o.inFront o.started
  have behind : o.w.cursor.offset + (join H.toList).length ≤ o.v.cursor.offset := Nat.le_of_eq o.offset_eq.symm
  have walk := o.passage.behind.relabelled (rigid_exchanging o.behind_home) behind
    (o.elapsed (o.exchange H') rfl rfl) (o.u.decoded + 1 + H'.toList.length)
  have walk := (walk.restart o.isOpen o.walked.closed o.v.start).lax
  have cursor : (o.exchange H').cursor o.v.cursor =
      ⟨o.w.cursor.offset + (join H'.toList).length, join rest⟩ := by
    refine Cursor.eq_iff.mpr ⟨o.rest_eq, ?_⟩
    change _ = shifted _ _ _ o.v.cursor.offset
    rw [shifted, o.offset_eq, if_neg (Nat.lt_irrefl _), Nat.add_sub_cancel]
  have same : { (o.v.relabelled (o.exchange H')).moved ((o.exchange H').cursor o.v.cursor)
      (o.u.decoded + 1 + H'.toList.length) with start := o.v.start } = o.begun H' := by
    rw [cursor, exchange, relabelled_exchanging front]
    rfl
  rw [← same]
  exact walk

/-- The body is accepted with the other header: the function and the funclets stay as they are, apart from
offsets and the mark of the funclet. -/
theorem accepted (lines' : HeaderLines H' header')
    (tells' : Tells o.r.graph index o.node o.params header') :
    validate context (split.head ++ join (front ++ p :: (H'.toList ++ rest))) =
      .ok (valid.relabelled (o.exchange H') (front ++ p :: (H'.toList ++ rest)).length) := by
  refine ((guards_transparent context _).1 _).mp ?_
  have bytes : join (front ++ p :: (H'.toList ++ rest)) =
      join front ++ ([] ++ (p.bytes ++ (join H'.toList ++ join rest))) := by simp
  have before : LineWalk ⟨context, false⟩ (o.s.ahead (join front ++ ([] ++ (p.bytes ++ (join H'.toList ++
      join rest))))) front (o.u.ahead ([] ++ (p.bytes ++ (join H'.toList ++ join rest)))) :=
    o.passage.before.behind rfl (List.nil_append _).symm nofun
      fun _ => Decode.head?_ne p.written o.inner _
  have consumes : Consumes (p :: H'.toList) (o.u.ahead (p.bytes ++ (join H'.toList ++ join rest)))
      (o.begun H') := by
    refine ⟨by simp [State.ahead, begun, State.moved], ?_, ?_⟩
    · simp [State.ahead, begun, State.moved, o.place, Nat.add_assoc]
    · simp [State.ahead, begun, State.moved, Nat.add_assoc, Nat.add_comm]
  have walk := before.append (@LineWalk.step _ _ _ _ p H' rest o.passage.isOpen
    (o.step_exchanged lines' tells') (fun _ => lines'.opcode) consumes (o.walk_exchanged H'))
  rw [← bytes] at walk
  have whole := @validateWith_of_walk ⟨context, false⟩ _ _ _ _ (o.walked.reopens _) walk o.walked.closed
    o.walked.nothing
  have regions : valid.regions = o.t.closed := congrArg ValidBody.regions o.walked.result
  have builder : valid.builder = o.t.builder := congrArg ValidBody.builder o.walked.result
  have exit : valid.exit = o.t.exit := congrArg ValidBody.exit o.walked.result
  have count : o.u.decoded = front.length := by
    rw [o.passage.before.consumes.decoded, o.walked.decoded, Nat.zero_add]
  have instructions : o.u.decoded + 1 + H'.toList.length + rest.length =
      (front ++ p :: (H'.toList ++ rest)).length := by
    simp only [count, List.length_append, List.length_cons]
    omega
  rw [whole, ValidBody.relabelled, regions, builder, exit, ← instructions]
  rfl

theorem recorded {r : Region} (member : r ∈ valid.regions) (same : r.offset = o.r.offset) :
    Reported o.r.offset index o.params o.header.isSome (Called o.r.graph o.node) r := by
  have began := o.entering.remembers o.inFront o.began
  have remembers := startsKeep_remembers.walk o.passage.behind (fun _ _ _ => trivial) began
  have reached := o.walked.walk.reached (.opened o.walked.opened)
  have nothing : o.t.regions = [] := reached.loose.bottom (by simp [State.frames, o.walked.closed])
  have distinct := o.walked.distinct o.walked.walk
  have closed : valid.regions = o.t.closed := congrArg ValidBody.regions o.walked.result
  rw [nothing, List.map_nil, List.append_nil] at distinct
  rw [nothing] at remembers
  obtain ⟨_, never, _⟩ | ⟨q, listed, reported⟩ := remembers
  · exact absurd never List.not_mem_nil
  · rw [closed] at member
    obtain rfl : q = r := List.inj_on_of_nodup_map distinct (Array.mem_toList_iff.mpr listed)
      (Array.mem_toList_iff.mpr member) (reported.offset.trans same.symm)
    exact reported

end Entrance

/-- A body that is accepted opens the funclet that a line starts, with a header that asks for no calls. -/
theorem Walked.entrance (walked : Walked ⟨context, true⟩ split valid s t) {back : List Piece} {offset : Nat}
    (starts : Outline.Starts split front p back offset index)
    (nothing : ∀ h ∈ back.head?, ∀ header, h.line = Decode.headerLine header →
      header.predecessors = 0) :
    ∃ H rest, back = H.toList ++ rest ∧
      ∃ o : Entrance context split valid front p H rest index, o.r.offset = offset := by
  obtain ⟨H, rest, u, v, i, c, w, r, outer, rfl, passage, starting, regions, rfl, keeps⟩ :=
    walked.starting starts
  obtain ⟨_, _, listed, -⟩ := Decode.ofLine_iff.mp p.written
  have inner : p.line.opcode.form ≠ .funcletSig := fun header =>
    starts.no_header (Decode.eq_funcletSig listed header)
  have here : u.cursor.rest = p.bytes ++ (join H.toList ++ v.cursor.rest) := by
    simpa using passage.first.rest
  obtain ⟨found, same, -⟩ := (Decode.instruction_line p.written inner here).mp starting.decoded
  have cursor : w.cursor = ⟨u.cursor.offset + p.bytes.length, join H.toList ++ v.cursor.rest⟩ :=
    starting.cursor.trans same
  have started : startFunclet ⟨context, true⟩ index w = .ok () v := starting.step ▸ passage.ok
  obtain ⟨header, read, -⟩ := startFunclet_header started
  have lines : HeaderLines H header := headerLines_of_read read (by rw [cursor])
  have further : u.cursor.offset < w.cursor.offset := by
    rw [cursor]
    exact Nat.lt_add_of_pos_right (List.length_pos_iff.mpr p.bytes_ne_nil)
  have early : InFront w.cursor.offset u.regions u.closed := by
    obtain ⟨_, _, _, _, none_, empty, _⟩ := openFunction_ok walked.opened
    refine (startsKeep_inFront _).walk passage.before (fun _ _ ahead => Nat.lt_trans ahead further) ?_
    rw [none_, empty]
    exact ⟨nofun, nofun⟩
  have front := (keeps _ _ (startsKeep_inFront w.cursor.offset).toPartsKeep further early).2
  obtain ⟨x, q, around, node, params, edges, entering, tells, began⟩ := startFunclet_tells front started read
    fun h is => by
      obtain ⟨piece, rfl, line⟩ := Option.map_eq_some_iff.mp (Eq.trans lines (congrArg _ is))
      exact nothing piece rfl h line
  refine ⟨H, rest, rfl, ⟨s, u, w, x, v, t, i, q, around, node, params, edges, header, walked, passage,
    found, inner, fun other d n => ?_, congrArg Cursor.offset cursor, lines, started, front, entering, tells,
    began⟩, ?_⟩
  · rw [starting.cursor]
    exact starting.starts other d n
  · obtain ⟨r', _, g, regions', _, rfl⟩ := onGraph_ok.mp entering.entered
    obtain ⟨rfl, -⟩ := List.cons.inj (regions.symm.trans regions')
    obtain ⟨rfl, -⟩ := List.cons.inj entering.regions
    rfl

theorem Entrance.place_eq (o : Entrance context split valid front p H rest index) :
    o.w.cursor.offset = (split.head ++ join (front ++ [p])).length := by
  rw [o.place, o.passage.before.consumes.offset, o.walked.offset]
  simp [Nat.add_assoc]

end Exchange

theorem funclet_at_index {split : Split bytes} (listed : Listed split valid) {r : Region}
    (member : r ∈ valid.regions) {f : Funclet} (funclet : f ∈ r.funclets) :
    r.funclets[f.index]? = some f := by
  obtain ⟨sketch, -, records⟩ :=
    exists_of_forall₂ (List.Forall₂.flip listed.records) r (Array.mem_toList_iff.mpr member)
  obtain ⟨i, there⟩ := List.mem_iff_getElem?.mp funclet
  have index := congrArg (·[i]?) records.funclets
  simp only [List.getElem?_map, there, Option.map_some] at index
  obtain ⟨_, same⟩ := List.getElem?_eq_some_iff.mp index.symm
  rw [List.getElem_range] at same
  rwa [← same]

def passing : List UInt8 := [0x00, 0x16, 0x7f, 0x02, 0x20, 0x00, 0x0b, 0x0b, 0x0b]

def passingSplit : Split passing where
  head := [0x00]
  runs := []
  pieces := [
    ⟨⟨⟨0x16, "funclet_region", .funcletRegion⟩, .region (.value .i32) 2⟩, [0x16, 0x7f, 0x02],
      .mk rfl (.region (@Encoding.OfBlockType.value .i32 rfl) two_written)⟩,
    ⟨_, _, Encoding.get_written⟩,
    ⟨_, _, Encoding.end_written⟩,
    ⟨_, _, Encoding.end_written⟩,
    ⟨_, _, Encoding.end_written⟩]
  locals := Encoding.noLocals_written
  whole := rfl

def oneNumber : Piece where
  line := Decode.headerLine ⟨[.i32], 0⟩
  bytes := [0x17, 0x01, 0x7f, 0x00]
  written := by
    have one : Encoding.Unsigned 32 1 [0x01] := @Encoding.Unsigned.last 32 0x01 (by decide) (by decide)
    exact .mk rfl (@Encoding.OfImmediate.header [.i32] 0 [0x01] [0x7f] [0x00] one
      (.cons (@Encoding.OfType.mk .i32 rfl) .nil) Encoding.zero_written)

end Validation

end WasmFunclets
