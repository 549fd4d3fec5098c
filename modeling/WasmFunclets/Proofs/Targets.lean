import WasmFunclets.Proofs.Headers
import WasmFunclets.Proofs.Padding
import WasmFunclets.Proofs.Twins.Runs

/-! A table of calls depends on the set of its targets alone: a body is validated alike with another table
that lists the same targets, in another order or more than once, and either table calls each of them
once. -/

namespace WasmFunclets

open Attempt
open Encoding (OfLocals Piece join Split)

def lead (caller : Nat) (delta : Int) : Nat := (caller + delta).toNat

/-- A line is a table of calls with the given deltas, of which the default is the last one. -/
structure Lists (p : Piece) (deltas : List Int) : Prop where
  table : p.line.opcode.form = .funcletCallTable
  entries : ∃ front default, p.line.immediate = .deltas front default ∧ deltas = front ++ [default]

namespace FuncletCalls

variable {g : FuncletCalls} {delta : Int} {deltas : List Int} {targets : List Nat} {i : Nat}

def DeltaInside (g : FuncletCalls) (delta : Int) : Prop := 0 ≤ g.current + delta ∧ g.current + delta < g.size

theorem target?_eq_some : g.target? delta = some i ↔ g.DeltaInside delta ∧ lead g.current delta = i := by
  simp only [target?, Option.ite_none_right_eq_some, Option.some.injEq]
  rfl

theorem mapM_target? : deltas.mapM g.target? = some targets ↔
    (∀ delta ∈ deltas, g.DeltaInside delta) ∧ deltas.map (lead g.current) = targets := by
  induction deltas generalizing targets with
  | nil => simp [eq_comm]
  | cons delta rest ih =>
      simp only [List.mapM_cons, Option.bind_eq_bind, Option.bind_eq_some_iff, target?_eq_some, ih,
        Option.pure_def, Option.some.injEq, List.forall_mem_cons, List.map_cons]
      constructor
      · rintro ⟨_, ⟨first, rfl⟩, _, ⟨others, rfl⟩, rfl⟩
        exact ⟨⟨first, others⟩, rfl⟩
      · rintro ⟨⟨first, others⟩, rfl⟩
        exact ⟨_, ⟨first, rfl⟩, _, ⟨others, rfl⟩, rfl⟩

end FuncletCalls

variable {p q : Piece} {deltas others : List Int}

theorem Lists.resolve_iff (lists : Lists p deltas) {scope : Scope} {i : Instruction} :
    Decode.resolve scope p.line = some i ↔ ∃ g targets default, scope.region = some g ∧
      (∀ delta ∈ deltas, g.DeltaInside delta) ∧ targets ++ [default] = deltas.map (lead g.current) ∧
        i = .funcletCallTable targets default := by
  obtain ⟨table, front, default, immediate, rfl⟩ := lists
  simp only [Decode.resolve, table, immediate, Option.bind_eq_bind, Option.bind_eq_some_iff,
    FuncletCalls.mapM_target?, FuncletCalls.target?_eq_some, Option.pure_def, Option.some.injEq,
    List.forall_mem_append, List.forall_mem_singleton, List.map_append, List.map_cons, List.map_nil]
  constructor
  · rintro ⟨g, region, _, ⟨first, rfl⟩, _, ⟨last, rfl⟩, rfl⟩
    exact ⟨g, _, _, region, ⟨first, last⟩, rfl, rfl⟩
  · rintro ⟨g, targets, index, region, ⟨first, last⟩, same, rfl⟩
    obtain ⟨rfl, rest⟩ := List.append_inj' same rfl
    obtain rfl := List.head_eq_of_cons_eq rest
    exact ⟨g, region, _, ⟨first, rfl⟩, _, ⟨last, rfl⟩, rfl⟩

theorem Lists.inner (lists : Lists p deltas) : p.line.opcode.form ≠ .funcletSig := by
  rw [lists.table]
  exact Form.noConfusion

def callsAt (place : Nat) (edges : Array CallEdge) : List (Nat × Nat) :=
  (edges.toList.filter fun edge => edge.offset == place).map fun edge => (edge.caller, edge.target)

section Places

variable {place : Nat} {edges later : Array CallEdge}

theorem callsAt_push {edge : CallEdge} (away : edge.offset ≠ place) :
    callsAt place (edges.push edge) = callsAt place edges := by
  simp [callsAt, away]

theorem callsAt_eq_nil (away : ∀ edge ∈ edges, edge.offset ≠ place) : callsAt place edges = [] := by
  rw [callsAt, List.map_eq_nil_iff, List.filter_eq_nil_iff]
  intro edge member
  simpa using away edge (Array.mem_toList_iff.mp member)

theorem callsAt_unchecked (edges : Array CallEdge) :
    callsAt place (edges.map CallEdge.unchecked) = callsAt place edges := by
  simp only [callsAt, Array.toList_map, List.filter_map, List.map_map]
  rfl

theorem SameCalls.callsAt (same : SameCalls edges later) :
    callsAt place later = callsAt place edges := by
  rw [← callsAt_unchecked later, ← callsAt_unchecked edges]
  exact congrArg _ same

theorem callsAt_tookAll {g : FuncletCalls} {targets : List Nat} {args : List ValueType}
    {polymorphic : Bool} (away : ∀ edge ∈ g.edges, edge.offset ≠ place) :
    callsAt place (g.tookAll targets args polymorphic place).edges =
      targets.map fun index => (g.current, index) := by
  have old := callsAt_eq_nil away
  rw [callsAt] at old
  rw [callsAt, FuncletCalls.edges_tookAll, List.filter_append, List.map_append, old, List.nil_append,
    List.filter_map]
  simp [Function.comp_def, FuncletCalls.callEdge]

end Places

namespace Validation

variable {setting : Setting} {context : Context} {s t u v : State} {r : OpenRegion} {place : Nat}
variable {outer : List OpenRegion} {closed : Array Region} {listed : List (List (Nat × Nat))}
variable {pieces before after : List Piece} {targets : List Nat} {default : Nat}

def calledAt (place : Nat) (regions : List OpenRegion) (closed : Array Region) :
    List (List (Nat × Nat)) :=
  ((closed.toList.map Region.edges ++ regions.map (·.graph.edges)).map (callsAt place)).filter
    (· ≠ [])

theorem calledAt_congr {g : FuncletCalls}
    (same : callsAt place g.edges = callsAt place r.graph.edges) :
    calledAt place ({ r with graph := g } :: outer) closed = calledAt place (r :: outer) closed := by
  simp only [calledAt, List.map_cons, List.map_append, same]

/-- Calls that stand there stay as they are while the validation is elsewhere. -/
theorem startsKeep_calledAt (place : Nat) (listed : List (List (Nat × Nat))) :
    StartsKeep True (· ≠ place) fun regions closed => calledAt place regions closed = listed where
  call _ away holds ok := by
    obtain ⟨_, _, _, rfl, _⟩ := FuncletCalls.call_ok.mp ok
    exact (calledAt_congr (callsAt_push away)).trans holds
  complete holds ok := by
    obtain ⟨_, _, ⟨_, rfl⟩ | ⟨_, _, rfl⟩⟩ := FuncletCalls.markComplete_ok.mp ok
    · exact holds
    · exact (calledAt_congr rfl).trans holds
  opens _ holds sized := by
    have none_ := (FuncletCalls.coherent_of_size sized).2.2.2.2.1
    rw [← holds]
    simp [calledAt, none_, callsAt]
  closes holds _ yields := by
    rw [← holds]
    simp [calledAt, yields.edges]
  enter holds ok := by
    obtain ⟨_, rfl⟩ := FuncletCalls.enter_ok.mp ok
    exact (calledAt_congr rfl).trans holds
  declare holds ok := by
    obtain ⟨_, _, awaits, rfl⟩ := FuncletCalls.declare_ok.mp ok
    exact (calledAt_congr awaits.same.callsAt).trans holds
  infer holds ok := by
    obtain ⟨_, _, _, awaits, _, _, rfl⟩ := FuncletCalls.infer_ok.mp ok
    exact (calledAt_congr awaits.same.callsAt).trans holds

theorem InFront.calledAt {regions : List OpenRegion} (front : InFront place regions closed) :
    calledAt place regions closed = [] := by
  rw [Validation.calledAt, List.filter_eq_nil_iff]
  intro calls member
  obtain ⟨edges, either, rfl⟩ := List.mem_map.mp member
  have away : ∀ edge ∈ edges, edge.offset ≠ place := by
    rcases List.mem_append.mp either with recorded | isOpen
    · obtain ⟨q, old, rfl⟩ := List.mem_map.mp recorded
      exact fun edge listed => Nat.ne_of_lt ((front.closed q (Array.mem_toList_iff.mp old)).2 edge listed)
    · obtain ⟨q, inner, rfl⟩ := List.mem_map.mp isOpen
      exact fun edge listed => Nat.ne_of_lt ((front.regions q inner).2.calls edge listed)
  simp [callsAt_eq_nil away]

/-- A table calls each of its targets once, however often they are listed. -/
theorem called_once (regions : s.regions = r :: outer) (front : InFront s.start s.regions s.closed)
    (ok : funcletCallTable setting targets default s = .ok () t) :
    calledAt s.start t.regions t.closed =
      [(targets ++ [default]).eraseDups.map fun index => (r.graph.current, index)] := by
  rw [funcletCallTable_eq] at ok
  obtain ⟨index, _, popped, ok⟩ := bind_ok.mp ok
  obtain ⟨_, took, _⟩ := takeValue_ok.mp popped
  obtain ⟨_, b, _, rfl⟩ := takeValues_ok.mp took
  obtain ⟨_, _, emitted, ok⟩ := bind_ok.mp ok
  obtain ⟨_, c, _, rfl⟩ := emitStatement_ok.mp emitted
  obtain ⟨args, _, operands, ok⟩ := bind_ok.mp ok
  obtain ⟨_, _, _, rfl⟩ := regionOperands_ok.mp operands
  obtain ⟨polymorphic, _, unreachable, ok⟩ := bind_ok.mp ok
  obtain ⟨_, _, _, rfl⟩ := operandsUnreachable_ok.mp unreachable
  obtain ⟨_, u, called, ended⟩ := bind_ok.mp ok
  have different := nodup_eraseDups (targets ++ [default])
  have callable := callable_of_transferAll (s := { s with
    stack := s.stack.without [.i32], builder := c }) regions different called
  have near := ((ends_transferAll (s := { s with
    stack := s.stack.without [.i32], builder := c }) regions different callable).of_ok called).1
  refine (startsKeep_calledAt s.start _).ends ?_ ended
  rw [near.regions, near.closed]
  have away : ∀ edge ∈ r.graph.edges, edge.offset ≠ s.start := fun edge member =>
    Nat.ne_of_lt ((front.regions r (by rw [regions]; exact List.mem_cons_self)).2.calls edge member)
  have others : calledAt s.start outer s.closed = [] :=
    InFront.calledAt ⟨fun q member => front.regions q (regions ▸ List.mem_cons_of_mem _ member),
      front.closed⟩
  have some_ : (targets ++ [default]).eraseDups ≠ [] :=
    List.ne_nil_of_mem (List.mem_eraseDups.mpr (List.mem_append_right _ List.mem_cons_self))
  rw [calledAt, List.map_append, List.filter_append, List.append_eq_nil_iff] at others
  simp only [calledAt, List.map_append, List.map_cons, List.filter_append, others.1, List.nil_append,
    calling, callsAt_tookAll away]
  rw [List.filter_cons_of_pos (by simpa using some_), others.2]

theorem LineWalk.first {p : Piece} (walk : LineWalk setting s (p :: after) t)
    (inner : p.line.opcode.form ≠ .funcletSig) : ∃ v header later i, s.control ≠ #[] ∧
      after = header ++ later ∧ Validation.step setting s = .ok () v ∧
      Decode.resolve (scopeOf setting s) p.line = some i ∧
      execute setting i (s.fetched ⟨s.cursor.offset + p.bytes.length, join after ++ t.cursor.rest⟩) =
        .ok () v ∧ LineWalk setting v later t := by
  have here : s.cursor.rest = p.bytes ++ (join after ++ t.cursor.rest) := by
    simpa using walk.consumes.rest
  generalize whole : p :: after = lines at walk
  cases walk with
  | here => cases whole
  | @step _ v _ q header later isOpen ok isHeader first walk =>
      obtain ⟨rfl, behind⟩ := List.cons.inj whole
      obtain ⟨i, c, decoded, executed⟩ := step_ok_iff.mp ok
      obtain ⟨found, rfl, _⟩ := (Decode.instruction_line p.written inner here).mp decoded
      exact ⟨v, header.toList, later, i, isOpen, behind, ok, found, executed, walk⟩

/-- How the validation of a body goes that has a table behind some lines: it walks to the table, carries
it out, and walks on to the end. -/
structure Tabled (context : Context) (head : List UInt8) (before : List Piece) (p : Piece)
    (rest : List UInt8) (s u v t : State) (targets : List Nat) (default : Nat) : Prop where
  framed : Framed s
  fresh : s.regions = [] ∧ s.closed = #[]
  offset : s.cursor.offset = head.length
  reopens : ∀ more, openFunction context (initial (head ++ more)) = .ok () (s.ahead more)
  walk : LineWalk ⟨context, true⟩ s before u
  isOpen : u.control ≠ #[]
  ok : step ⟨context, true⟩ u = .ok () v
  executed : funcletCallTable ⟨context, true⟩ targets default
    (u.fetched ⟨u.cursor.offset + p.bytes.length, rest⟩) = .ok () v
  later : ∃ header pieces, rest = header ++ v.cursor.rest ∧ LineWalk ⟨context, true⟩ v pieces t
  closed : t.control = #[]
  nothing : t.cursor.rest = []
  regions : t.regions = []

variable {head rest : List UInt8} {runs : List (Nat × ValueType)} {valid : ValidBody}

theorem tabled_of_valid (locals : OfLocals runs head) (lists : Lists p deltas)
    (accepted : validate context (head ++ (join before ++ (p.bytes ++ rest))) = .ok valid) :
    ∃ s u v t r outer targets default, Tabled context head before p rest s u v t targets default ∧
      valid.regions = t.closed ∧ u.regions = r :: outer ∧
      (∀ delta ∈ deltas, r.graph.DeltaInside delta) ∧
      targets ++ [default] = deltas.map (lead r.graph.current) := by
  -- The lines are those in front of the table, the table and others.
  obtain ⟨some_, -⟩ := listed_of_valid accepted
  obtain ⟨-, -, whole⟩ := Encoding.locals_free some_.locals locals some_.whole.symm
  obtain ⟨after, -, rfl⟩ := @Encoding.join_prefix some_.pieces (before ++ [p]) rest
    (by rw [whole]; simp)
  let split : Split (head ++ (join before ++ (p.bytes ++ join after))) :=
    ⟨head, runs, before ++ p :: after, locals, by simp⟩
  obtain ⟨s, t, walked⟩ := walked_of_valid accepted split
  have walk : LineWalk ⟨context, true⟩ s (before ++ p :: after) t := walked.walk
  rcases walk.cut with ⟨u, one, two⟩ | ⟨_, _, _, _, q, _, -, same, -, -, -, header, -⟩
  swap
  · obtain ⟨rfl, -⟩ := List.cons.inj same
    exact absurd (by rw [header]; rfl) lists.inner
  obtain ⟨v, header, later, i, isOpen, rfl, ok, found, executed, behind⟩ := two.first lists.inner
  obtain ⟨g, targets, default, region, leads, same, rfl⟩ := lists.resolve_iff.mp found
  obtain ⟨r, head_, rfl⟩ := Option.map_eq_some_iff.mp region
  obtain ⟨outer, regions⟩ := List.head?_eq_some_iff.mp head_
  obtain ⟨_, _, _, _, none_, empty, _⟩ := openFunction_ok walked.opened
  have reached := walked.walk.reached (.opened walked.opened)
  refine ⟨s, u, v, t, r, outer, targets, default, ⟨framed_of_openFunction walked.opened,
    ⟨none_, empty⟩, walked.offset, walked.reopens, one, isOpen, ok, ?_, ⟨join header, later, ?_, behind⟩,
    walked.closed, walked.nothing, ?_⟩, ?_, regions, leads, same⟩
  · rwa [walked.nothing, List.append_nil] at executed
  · rw [Encoding.join_append, behind.consumes.rest, walked.nothing, List.append_nil]
  · exact reached.loose.bottom (by simp [State.frames, walked.closed])
  · rw [walked.result]

namespace Tabled

variable (tabled : Tabled context head before p rest s u v t targets default)

include tabled

theorem stands : u.cursor.offset = (head ++ join before).length := by
  rw [tabled.walk.consumes.offset, tabled.offset, List.length_append]

theorem inFront : InFront u.cursor.offset u.regions u.closed := by
  refine (startsKeep_inFront u.cursor.offset).walk tabled.walk (fun _ _ ahead => ahead) ?_
  rw [tabled.fresh.1, tabled.fresh.2]
  exact ⟨nofun, nofun⟩

theorem calledAt (regions : u.regions = r :: outer) :
    Validation.calledAt (head ++ join before).length t.regions t.closed =
      [(targets ++ [default]).eraseDups.map fun index => (r.graph.current, index)] := by
  obtain ⟨_, _, _, behind⟩ := tabled.later
  have further := ((step_onward _ u).of_ok tabled.ok).2
  rw [← tabled.stands]
  exact (startsKeep_calledAt u.cursor.offset _).walk behind (fun _ after _ => by omega)
    (called_once (s := u.fetched ⟨u.cursor.offset + p.bytes.length, rest⟩) regions tabled.inFront
      tabled.executed)

theorem room (q : Piece) : unfinished u.nests ≤ (q.bytes ++ rest).length := by
  obtain ⟨_, _, split, behind⟩ := tabled.later
  have framed := tabled.walk.framed (fun _ => tabled.framed) tabled.isOpen
  have closed : unfinished t.nests ≤ t.cursor.rest.length := by
    rw [nests_eq_nil tabled.closed]
    exact Nat.zero_le _
  have few := (behind.strict (fun isOpen => framed.step tabled.ok isOpen) closed).1
  have fewer := unfinished_step framed tabled.ok
  have some_ := List.length_pos_iff.mpr q.bytes_ne_nil
  rw [split, List.length_append, List.length_append]
  omega

theorem retarget (lists : Lists q others) {targets' : List Nat} {default' : Nat}
    (found : Decode.resolve (scopeOf ⟨context, true⟩ u) q.line = some (.funcletCallTable targets' default'))
    (same : ∀ i, i ∈ targets' ++ [default'] ↔ i ∈ targets ++ [default]) :
    Finishes ⟨context, true⟩ (Twins t) (s.ahead (join before ++ (q.bytes ++ rest))) := by
  have walk : LineWalk ⟨context, false⟩ (s.ahead (join before ++ ([] ++ (q.bytes ++ rest)))) before
      (u.ahead ([] ++ (q.bytes ++ rest))) :=
    tabled.walk.behind rfl (List.nil_append _).symm nofun fun _ => Decode.head?_ne q.written lists.inner rest
  have walk := (walk.strict (fun _ => ⟨tabled.framed.nested, tabled.framed.count, tabled.framed.settled,
    tabled.framed.floor, tabled.framed.above⟩) (tabled.room q)).2
  have decoded := (@Decode.instruction_line (scopeOf ⟨context, true⟩ u) _ _ rest
    ⟨u.cursor.offset, q.bytes ++ rest⟩ _ _ q.written lists.inner rfl).mpr ⟨found, rfl, nofun⟩
  have accounted : ∀ r ∈ u.regions, r.graph.Accounted := fun r member =>
    (tabled.inFront.regions r member).2.toAccounted
  obtain ⟨_, _, _, behind⟩ := tabled.later
  refine walk.finishes (finishes_of_step tabled.isOpen (ends_step decoded ?_))
  refine (twins_funcletCallTable same _ _ ?_ () v tabled.executed).imp fun _ w later =>
    later.finishes behind tabled.closed tabled.nothing
  exact { Twins.refl accounted with rest := rfl }

end Tabled

/-- The table at a place is recorded as one call to each of its targets, from one funclet, and no other
calls stand there. -/
def CallsOnce (place : Nat) (deltas : List Int) (valid : ValidBody) : Prop :=
  ∃ (caller : Nat) (front : List Region) (r : Region) (back : List Region), valid.regions.toList = front ++ r :: back ∧
    (∀ delta ∈ deltas, 0 ≤ caller + delta) ∧
    callsAt place r.edges = (deltas.map (lead caller)).eraseDups.map (fun index => (caller, index)) ∧
    ∀ q ∈ front ++ back, callsAt place q.edges = []

/-- A body that is accepted is accepted as another one, too, with regions that are alike, unless that
makes more values than there are ids. -/
def AcceptedAs (context : Context) (valid : ValidBody) (bytes : List UInt8) : Prop :=
  (∃ valid', validate context bytes = .ok valid' ∧
    List.Forall₂ Region.Alike valid.regions.toList valid'.regions.toList) ∨
  validate context bytes = .error (.broken .arenaExhausted) ∧
    Ssa.Builder.arenaLimit ≤ (remains ⟨context, true⟩ bytes).values.size

theorem retargeted_of_valid (locals : OfLocals runs head) (lists : Lists p deltas)
    (lists' : Lists q others) (same : ∀ delta, delta ∈ others ↔ delta ∈ deltas)
    (accepted : validate context (head ++ (join before ++ (p.bytes ++ rest))) = .ok valid) :
    CallsOnce (head ++ join before).length deltas valid ∧
      AcceptedAs context valid (head ++ (join before ++ (q.bytes ++ rest))) := by
  obtain ⟨s, u, v, t, r, outer, targets, default, tabled, result, regions, leads, listed⟩ :=
    tabled_of_valid locals lists accepted
  constructor
  · have once := tabled.calledAt regions
    rw [listed, tabled.regions, calledAt, List.map_nil, List.append_nil, List.map_map,
      List.filter_eq_cons_iff] at once
    obtain ⟨_, _, split, none_, -, none_'⟩ := once
    obtain ⟨front, _, recorded, rfl, one⟩ := List.map_eq_append_iff.mp split
    obtain ⟨record, back, rfl, once, rfl⟩ := List.map_eq_cons_iff.mp one
    refine ⟨r.graph.current, front, record, back, by rw [result, recorded],
      fun delta member => (leads delta member).1, once, fun q member => ?_⟩
    rcases List.mem_append.mp member with early | late
    · simpa using none_ _ (List.mem_map_of_mem early)
    · simpa using List.filter_eq_nil_iff.mp none_' _ (List.mem_map_of_mem late)
  · have leads' : ∀ delta ∈ others, r.graph.DeltaInside delta := fun delta member =>
      leads delta ((same delta).mp member)
    obtain ⟨targets', default', listed'⟩ : ∃ targets' default',
        targets' ++ [default'] = others.map (lead r.graph.current) := by
      obtain ⟨-, front, last, -, rfl⟩ := lists'
      exact ⟨front.map _, lead _ last, by rw [List.map_append, List.map_singleton]⟩
    have region : (scopeOf ⟨context, true⟩ u).region = some r.graph := by
      rw [scopeOf, regions]
      rfl
    have found := lists'.resolve_iff.mpr ⟨r.graph, targets', default', region, leads', listed', rfl⟩
    have finishes := tabled.retarget lists' found fun i => by
      rw [listed, listed']
      simp only [List.mem_map, same]
    have opens : Ends (openFunction context) (initial (head ++ (join before ++ (q.bytes ++ rest))))
        (fun _ s => Finishes ⟨context, true⟩ (Twins t) s) fun e _ => ¬ e.IsRefusal := by
      rw [Ends, tabled.reopens]
      exact finishes
    refine (accepted_of_finishes opens).imp_left ?_
    rintro ⟨w, twins, accepted'⟩
    exact ⟨_, accepted', result ▸ twins.closed⟩

/-- The state behind a table that comes after the first n instructions of a body. -/
def stateBehindTable (setting : Setting) (bytes : List UInt8) (n : Nat) : Option State := do
  let s ← stateAfter setting bytes n
  if s.control.isEmpty then none
  else
    match Decode.instruction (scopeOf setting s) s.cursor with
    | .ok (.funcletCallTable targets default) c =>
        match callTable setting targets default (s.fetched c) with
        | .ok _ t => some t
        | .error _ _ => none
    | _ => none

theorem walk_of_stateBehindTable {bytes : List UInt8} {n : Nat}
    (behind : stateBehindTable setting bytes n = some t) :
    ∃ s pieces, openFunction setting.context (initial bytes) = .ok () s ∧ LineWalk setting s pieces t := by
  obtain ⟨u, after, behind⟩ := Option.bind_eq_some_iff.mp behind
  split at behind
  · cases behind
  rename_i isOpen
  split at behind
  · rename_i decoded
    split at behind
    · rename_i called
      cases behind
      rw [← funcletCallTable_eq] at called
      have stepped := step_ok_iff.mpr ⟨_, _, decoded, called⟩
      obtain ⟨_, _, _, _, _, _, _, _, isHeader, consumes⟩ := step_consumes stepped
      obtain ⟨_, _, opened, walk⟩ := walk_of_stateAfter after
      exact ⟨_, _, opened, walk.append (.step (mt Array.isEmpty_iff.mpr isOpen) stepped isHeader consumes
        (.here t))⟩
    · cases behind
  · cases behind

theorem valid_of_stateBehindTable {bytes : List UInt8} {n fuel : Nat}
    (behind : stateBehindTable setting bytes n = some s) (ran : run setting fuel s = .ok () t)
    (empty : t.cursor.isEmpty = true) : ∃ valid, validateWith setting bytes = .ok valid := by
  obtain ⟨_, _, opened, walk⟩ := walk_of_stateBehindTable behind
  obtain ⟨_, later, closed⟩ := LineWalk.of_run ran
  exact ⟨_, validateWith_of_walk opened (walk.append later) closed (List.isEmpty_iff.mp empty)⟩

def tablePiece (front : List Int) (default : Int) {count e : List UInt8}
    (size : Encoding.Unsigned 32 front.length count)
    (entries : Encoding.Sequence (Encoding.Signed 32) (front ++ [default]) e) : Piece where
  line := ⟨⟨0x1d, "funclet_call_table", .funcletCallTable⟩, .deltas front default⟩
  bytes := 0x1d :: (count ++ e)
  written := .mk rfl (.deltas size entries)

theorem lists_tablePiece {front : List Int} {default : Int} {count e : List UInt8}
    (size : Encoding.Unsigned 32 front.length count)
    (entries : Encoding.Sequence (Encoding.Signed 32) (front ++ [default]) e) :
    Lists (tablePiece front default size entries) (front ++ [default]) := ⟨rfl, _, _, rfl, rfl⟩

theorem backward_written : Encoding.Signed 32 (-2) [0x7e] ∧ Encoding.Signed 32 (-1) [0x7f] := by
  have two : Leb128.signedGroup (UInt8.toNat 0x7e) = -2 := by decide
  have one : Leb128.signedGroup (UInt8.toNat 0x7f) = -1 := by decide
  exact ⟨two ▸ @Encoding.Signed.last 32 0x7e (by decide) (by decide) (by decide),
    one ▸ @Encoding.Signed.last 32 0x7f (by decide) (by decide) (by decide)⟩

theorem one_written : Encoding.Unsigned 32 1 [0x01] := @Encoding.Unsigned.last 32 0x01 (by decide) (by decide)

theorem header_written : Encoding.OfLine ⟨Decode.funcletSig, .header [] 1⟩ [0x17, 0x00, 0x01] :=
  .mk rfl (@Encoding.OfImmediate.header [] 1 [0x00] [] [0x01] Encoding.zero_written .nil one_written)

/-- A read of a local waits in the second of four funclets, which the third one and the table call. -/
def waitingPieces : List Piece := [
  ⟨⟨⟨0x16, "funclet_region", .funcletRegion⟩, .region .empty 4⟩, [0x16, 0x40, 0x04],
    .mk rfl (.region .empty (@Encoding.Unsigned.last 32 0x04 (by decide) (by decide)))⟩,
  ⟨⟨⟨0x18, "funclet_call", .funcletCall⟩, .integer 3⟩, [0x18, 0x03],
    .mk rfl (.delta (@Encoding.Signed.last 32 0x03 (by decide) (by decide) (by decide)))⟩,
  ⟨⟨Decode.funcletSig, .header [] 2⟩, [0x17, 0x00, 0x02],
    .mk rfl (@Encoding.OfImmediate.header [] 2 [0x00] [] [0x02] Encoding.zero_written .nil
      (@Encoding.Unsigned.last 32 0x02 (by decide) (by decide)))⟩,
  ⟨_, _, Encoding.get_written⟩,
  dropPiece,
  ⟨⟨⟨0x0f, "return", .ret⟩, .nothing⟩, [0x0f], .mk rfl .nothing⟩,
  ⟨_, _, header_written⟩,
  ⟨⟨⟨0x18, "funclet_call", .funcletCall⟩, .integer (-1)⟩, [0x18, 0x7f],
    .mk rfl (.delta backward_written.2)⟩,
  constantPiece]

theorem oneLocal_written : OfLocals [(1, .i32)] [0x01, 0x01, 0x7f] :=
  @OfLocals.mk [(1, .i32)] [0x01] [0x01, 0x7f] one_written
    (.cons (@Encoding.OfRun.mk 1 .i32 [0x01] [0x7f] one_written (.mk rfl)) .nil)

theorem secondFirst_written : Encoding.Sequence (Encoding.Signed 32) ([-2] ++ [-1]) [0x7e, 0x7f] :=
  .cons backward_written.1 (.cons backward_written.2 .nil)

theorem thirdFirst_written : Encoding.Sequence (Encoding.Signed 32) ([-1] ++ [-2]) [0x7f, 0x7e] :=
  .cons backward_written.2 (.cons backward_written.1 .nil)

def secondFirst : Piece := tablePiece [-2] (-1) one_written secondFirst_written

def thirdFirst : Piece := tablePiece [-1] (-2) one_written thirdFirst_written

def backAndForth : List UInt8 :=
  [0x00, 0x16, 0x40, 0x03, 0x0b, 0x17, 0x00, 0x01, 0x41, 0x00, 0x1d, 0x01, 0x00, 0x01, 0x0b, 0x0b]

def forthAndBack : List UInt8 :=
  [0x00, 0x16, 0x40, 0x03, 0x0b, 0x17, 0x00, 0x01, 0x41, 0x00, 0x1d, 0x02, 0x01, 0x00, 0x01, 0x0b, 0x0b]

theorem backAndForth_valid : (∃ valid, validate bareContext backAndForth = .ok valid) ∧
    ∃ valid, validate bareContext forthAndBack = .ok valid := by
  have ends (bytes : List UInt8) (ok : ((stateBehindTable ⟨bareContext, true⟩ bytes 3).any fun s =>
      match run ⟨bareContext, true⟩ bytes.length s with
      | .ok _ t => t.cursor.isEmpty
      | .error _ _ => false) = true) : ∃ valid, validate bareContext bytes = .ok valid := by
    obtain ⟨s, behind, ok⟩ := (Option.any_eq_true ..).mp ok
    split at ok
    · rename_i ran
      exact valid_of_stateBehindTable behind ran ok
    · cases ok
  exact ⟨ends _ (by decide +kernel), ends _ (by decide +kernel)⟩

theorem calls_written : Encoding.Signed 32 0 [0x00] ∧ Encoding.Signed 32 1 [0x01] :=
  ⟨@Encoding.Signed.last 32 0x00 (by decide) (by decide) (by decide),
    @Encoding.Signed.last 32 0x01 (by decide) (by decide) (by decide)⟩

def frontPieces : List Piece := [
  ⟨⟨⟨0x16, "funclet_region", .funcletRegion⟩, .region .empty 3⟩, [0x16, 0x40, 0x03],
    .mk rfl (.region .empty (@Encoding.Unsigned.last 32 0x03 (by decide) (by decide)))⟩,
  ⟨_, _, Encoding.end_written⟩,
  ⟨_, _, header_written⟩,
  ⟨_, _, Encoding.constant_written⟩]

end Validation

end WasmFunclets
