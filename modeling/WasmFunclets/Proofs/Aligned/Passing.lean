import WasmFunclets.Proofs.Aligned.Lockstep
import WasmFunclets.Proofs.Filled
import WasmFunclets.Proofs.Starts

/-! What instructions pass on. The operands above the base of a region go along the edges to the funclets
that are called, and the parameters of a region along the edge to its first funclet. -/

namespace WasmFunclets

/-- What an instruction that calls funclets decides by, and pops before. -/
def Instruction.decider : Instruction → List ValueType
  | .funcletCallIf _ | .funcletCallTable _ _ => [.i32]
  | _ => []

open Attempt

theorem SameCalls.refl (edges : Array CallEdge) : SameCalls edges edges := rfl

theorem SameCalls.trans {edges later last : Array CallEdge} (first : SameCalls edges later)
    (second : SameCalls later last) : SameCalls edges last := Eq.trans second first

namespace Ssa.Builder

variable {b t : Builder} {requests : List Request}

theorem PerformsAll.retains (performs : PerformsAll b requests t) : b.Retains t := by
  induction performs with
  | nil b => exact retains_of_eq rfl
  | cons first _ ih => exact (Request.retains first).trans ih

end Ssa.Builder

namespace Validation

variable {α : Type} {setting : Setting} {bytes : List UInt8} {s t u v : State} {r q : OpenRegion}
variable {outer regions : List OpenRegion} {operands : List Operand} {calls : List CallEdge}
variable {recorded : Array CallEdge} {closed : Array Region} {index : Nat} {polymorphic : Bool}
variable {i : Instruction} {frame : Frame} {a : α}

theorem Requests.retains {allowed : BlockId → List Ssa.Builder.Request → Prop} {m : Step α}
    (requests : Requests allowed m s) (ok : m s = .ok a t) : s.builder.Retains t.builder := by
  obtain ⟨_, performs, _⟩ := requests.of_ok ok
  exact performs.retains

/-- A call at an offset that takes operands along, and the edge for it from a block. -/
structure Sends (offset : Nat) (source : BlockId) (operands : List Operand) (call : CallEdge)
    (pred : Ssa.Predecessor) : Prop where
  offset : call.offset = offset
  args : call.args = operands.map Operand.type
  block : pred.block = source
  values : ∃ passed, List.Forall₂ ValueFor operands passed ∧ passed <:+ pred.args

/-- Some calls from the innermost region, with an edge for each of them, and nothing else. -/
structure Sent (s t : State) (operands : List Operand) (r : OpenRegion) (outer : List OpenRegion)
    (calls : List CallEdge) : Prop where
  regions : s.regions = r :: outer
  same : ∃ graph builder, t = { s with regions := { r with graph } :: outer, builder } ∧
    graph.edges.toList = r.graph.edges.toList ++ calls
  edges : ∀ {index : Nat} {c : BlockId} {old : Array Ssa.Predecessor}, r.blocks[index]? = some c →
    s.builder.edges c = some old → ∃ added, t.builder.edges c = some (old ++ added) ∧
      List.Forall₂ (Sends s.start s.current operands)
        (calls.filter fun call => call.target == index) added.toList

theorem sent_nil (regions : s.regions = r :: outer) : Sent s s operands r outer [] where
  regions := regions
  same := ⟨r.graph, s.builder, by rw [← regions], (List.append_nil _).symm⟩
  edges _ before := ⟨#[], by rw [before, Array.append_empty], .nil⟩

theorem transferTo_sends (ok : transferTo index operands polymorphic s = .ok () t)
    (distinct : ∀ r ∈ s.regions, r.blocks.toList.Nodup) :
    ∃ r outer call, Sent s t operands r outer [call] := by
  obtain ⟨r, graph, outer, c, old, front, passed, regions, after, place, edges, before, each, grown⟩ :=
    (transferTo_delivers ok).region
  have blocks : r.blocks.toList.Nodup := distinct r (by rw [regions]; exact List.mem_cons_self)
  refine ⟨r, outer, r.graph.callEdge index (operands.map Operand.type) polymorphic s.start, regions,
    ⟨graph, t.builder, ?_, by rw [edges, Array.toList_push]⟩, ?_⟩
  · obtain ⟨_, _, last, _, _, _, _, _, _, _, _, _, _, ended⟩ := transferTo_ok.mp ok
    cases last with
    | false =>
        obtain ⟨_, rfl⟩ := pure_ok.mp ended
        rw [← after]
    | true =>
        obtain ⟨_, _, _, _, _, _, _, _, _, rfl⟩ := completeFunclet_ok.mp ended
        rw [← after]
  intro j d old' there present
  by_cases same : index = j
  · subst same
    cases place.symm.trans there
    cases before.symm.trans present
    refine ⟨#[⟨s.current, front ++ passed⟩], by rw [grown, if_pos rfl]; rfl, ?_⟩
    rw [List.filter_cons_of_pos (by simp [FuncletCalls.callEdge]), List.filter_nil]
    exact .cons ⟨rfl, rfl, rfl, passed, each, List.suffix_append _ _⟩ .nil
  · have other : d ≠ c := by
      rintro rfl
      refine same ((List.getElem?_inj ?_ blocks).mp ?_)
      · rw [Array.length_toList]
        exact (Array.getElem?_eq_some_iff.mp place).1
      · rw [Array.getElem?_toList, Array.getElem?_toList, place, there]
    refine ⟨#[], by rw [grown, if_neg other, present, Array.append_empty], ?_⟩
    rw [List.filter_cons_of_neg (by simpa [FuncletCalls.callEdge] using same)]
    exact .nil

theorem Sent.trans {more : List CallEdge} (first : Sent s t operands r outer calls)
    (second : Sent t u operands q regions more) : Sent s u operands r outer (calls ++ more) := by
  obtain ⟨graph, b, rfl, log⟩ := first.same
  obtain ⟨graph', b', rfl, log'⟩ := second.same
  obtain ⟨rfl, rfl⟩ := List.cons.inj second.regions
  refine ⟨first.regions, ⟨graph', b', rfl, by rw [log', log, List.append_assoc]⟩,
    fun place before => ?_⟩
  obtain ⟨added, between, each⟩ := first.edges place before
  obtain ⟨added', after, each'⟩ := second.edges place between
  refine ⟨added ++ added', by rw [after, Array.append_assoc], ?_⟩
  rw [List.filter_append, Array.toList_append]
  exact List.rel_append each each'

theorem callTargets_sends {targets : List Nat} {seen : Std.HashSet Nat}
    (ok : callTargets operands polymorphic targets seen s = .ok () t)
    (regions : s.regions = r :: outer) (distinct : ∀ r ∈ s.regions, r.blocks.toList.Nodup) :
    ∃ calls, Sent s t operands r outer calls := by
  induction targets generalizing seen s r with
  | nil =>
      obtain ⟨_, rfl⟩ := pure_ok.mp ok
      exact ⟨[], sent_nil regions⟩
  | cons target targets ih =>
      rw [callTargets] at ok
      split at ok
      · exact ih ok regions distinct
      · obtain ⟨_, w, first, rest⟩ := bind_ok.mp ok
        obtain ⟨r', outer', call, sent⟩ := transferTo_sends first distinct
        cases regions.symm.trans sent.regions
        obtain ⟨graph, b, rfl, _⟩ := sent.same
        have distinct' : ∀ q ∈ { r with graph } :: outer, q.blocks.toList.Nodup := by
          intro q member
          rcases List.mem_cons.mp member with rfl | old
          · exact distinct r (by rw [regions]; exact List.mem_cons_self)
          · exact distinct q (by rw [regions]; exact List.mem_cons_of_mem _ old)
        obtain ⟨calls, others⟩ := ih rest rfl distinct'
        exact ⟨call :: calls, sent.trans others⟩

/-- The recorded calls of a region, as long as it is open and behind its end. -/
def Logs (r : OpenRegion) (recorded : Array CallEdge) (regions : List OpenRegion)
    (closed : Array Region) : Prop :=
  (∃ q ∈ regions, q = { r with graph := q.graph } ∧ SameCalls recorded q.graph.edges) ∨
    ∃ entry ∈ closed, entry.offset = r.offset ∧ SameCalls recorded entry.edges ∧
      ∀ (i : Nat) (funclet : Funclet), entry.funclets[i]? = some funclet → r.blocks[i]? = some funclet.block

theorem logs_of_mem (member : r ∈ regions) : Logs r r.graph.edges regions closed :=
  .inl ⟨r, member, rfl, .refl _⟩

theorem Logs.grown {g : FuncletCalls} (logs : Logs r recorded (q :: outer) closed)
    (same : SameCalls q.graph.edges g.edges) :
    Logs r recorded ({ q with graph := g } :: outer) closed := by
  refine logs.imp_left ?_
  rintro ⟨p, member, shape, calls⟩
  rcases List.mem_cons.mp member with rfl | old
  · exact ⟨_, List.mem_cons_self, by rw [shape], calls.trans same⟩
  · exact ⟨p, List.mem_cons_of_mem _ old, shape, calls⟩

/-- Without a call the recorded calls stay what they are. -/
theorem startsKeep_logs (r : OpenRegion) (recorded : Array CallEdge) :
    StartsKeep False (fun _ => True) (Logs r recorded) where
  call may := may.elim
  complete logs ok := by
    refine logs.grown ?_
    obtain ⟨_, _, ⟨_, rfl⟩ | ⟨_, _, rfl⟩⟩ := FuncletCalls.markComplete_ok.mp ok
    · exact .refl _
    · exact .refl _
  opens _ logs _ := logs.imp_left fun ⟨q, member, same⟩ => ⟨q, List.mem_cons_of_mem _ member, same⟩
  closes {q record outer closed} logs _ yields := by
    rcases logs with ⟨p, member, shape, calls⟩ | ⟨entry, member, same⟩
    · rcases List.mem_cons.mp member with rfl | old
      · refine .inr ⟨record, Array.mem_push_self, ?_, yields.edges ▸ calls, fun i funclet place => ?_⟩
        · rw [yields.offset, shape]
        · obtain ⟨_, _, block, _, _, there, rfl⟩ := yields.getElem?.mp place
          rw [← there, shape]
      · exact .inl ⟨p, old, shape, calls⟩
    · exact .inr ⟨entry, Array.mem_push_of_mem _ member, same⟩
  enter logs ok := by
    obtain ⟨_, rfl⟩ := FuncletCalls.enter_ok.mp ok
    exact logs.grown (.refl _)
  declare logs ok := by
    obtain ⟨_, _, awaits, rfl⟩ := FuncletCalls.declare_ok.mp ok
    exact logs.grown awaits.same
  infer logs ok := by
    obtain ⟨_, _, _, awaits, _, _, rfl⟩ := FuncletCalls.infer_ok.mp ok
    exact logs.grown awaits.same

/-- What goes on behind the calls of an instruction records none, and keeps the edges. -/
def Concludes (m : Step Unit) : Prop :=
  ∀ s t, m s = .ok () t → s.builder.Retains t.builder ∧
    ∀ r recorded, Logs r recorded s.regions s.closed → Logs r recorded t.regions t.closed

theorem endBlock_concludes : Concludes (endBlock setting) := fun s _ ok =>
  ⟨(lands_endBlock setting s).retains ok, fun r recorded logs => (startsKeep_logs r recorded).ends logs ok⟩

theorem nextFunclet_concludes : Concludes (nextFunclet setting) := fun s _ ok =>
  ⟨(lands_nextFunclet setting s).retains ok, fun r recorded logs => (startsKeep_logs r recorded).next logs ok⟩

theorem fallThrough_concludes : Concludes fallThrough := fun s t ok => by
  have trails : Trails (fun _ => False) fallThrough := trails_fallThrough
  exact ⟨(trails s).retains ok, fun r recorded logs =>
    ((startsKeep_logs r recorded).parts.fallThrough s () t trivial logs ok).2⟩

/-- The calls of an instruction that makes some: they take along the operands above the base of the
region, without what the instruction decides by, and the rest of it keeps what they did. -/
def Dispatches (i : Instruction) (s t : State) : Prop :=
  ∃ r outer b operands calls v m,
    (s.stack.without i.decider).operandsFrom r.base = some operands ∧ b.edges = s.builder.edges ∧
      Sent { s with stack := s.stack.without i.decider, builder := b } v operands r outer calls ∧
      Concludes m ∧ m v = .ok () t

theorem dispatches_of_ok {m : Step Unit} {f : List Operand → Bool → Step Unit} {b : Ssa.Builder}
    (edges : b.edges = s.builder.edges)
    (calls : ∀ operands polymorphic u v r outer, f operands polymorphic u = .ok () v →
      u.regions = r :: outer → (∀ q ∈ u.regions, q.blocks.toList.Nodup) →
        ∃ calls, Sent u v operands r outer calls)
    (distinct : ∀ q ∈ s.regions, q.blocks.toList.Nodup) (concludes : Concludes m)
    (ok : (do
      let operands ← regionOperands
      let polymorphic ← operandsUnreachable
      f operands polymorphic
      m : Step Unit) { s with stack := s.stack.without i.decider, builder := b } = .ok () t) :
    Dispatches i s t := by
  obtain ⟨operands, _, found, ok⟩ := bind_ok.mp ok
  obtain ⟨r, head, above, rfl⟩ := regionOperands_ok.mp found
  obtain ⟨polymorphic, _, unreachable, ok⟩ := bind_ok.mp ok
  obtain ⟨_, _, _, rfl⟩ := operandsUnreachable_ok.mp unreachable
  obtain ⟨_, v, called, ok⟩ := bind_ok.mp ok
  obtain ⟨outer, regions⟩ : ∃ outer, s.regions = r :: outer := List.head?_eq_some_iff.mp head
  obtain ⟨made, sent⟩ := calls operands polymorphic _ v r outer called regions distinct
  exact ⟨r, outer, b, operands, made, v, m, above, edges, sent, concludes, ok⟩

theorem transferTo_calls {target : Nat} (operands : List Operand) (polymorphic : Bool) (u v : State)
    (r : OpenRegion) (outer : List OpenRegion)
    (ok : transferTo target operands polymorphic u = .ok () v) (regions : u.regions = r :: outer)
    (distinct : ∀ q ∈ u.regions, q.blocks.toList.Nodup) :
    ∃ calls, Sent u v operands r outer calls := by
  obtain ⟨r', outer', call, sent⟩ := transferTo_sends ok distinct
  cases regions.symm.trans sent.regions
  exact ⟨_, sent⟩

theorem emit_edges {opcode : UInt8} {args : List ValueId} {immediate : Nat}
    (ok : emitStatement opcode args immediate s = .ok () t) :
    ∃ b, b.edges = s.builder.edges ∧ t = { s with builder := b } := by
  obtain ⟨_, b, emitted, rfl⟩ := emitStatement_ok.mp ok
  exact ⟨b, (Ssa.Builder.emit_leaves _ _ _ _ _).of_ok emitted, rfl⟩

theorem decides_edges {opcode : UInt8} {immediate : Nat} {rest : Step Unit}
    (ok : (do
      let value ← takeValue .i32
      emitStatement opcode [value] immediate
      rest : Step Unit) s = .ok () t) :
    ∃ b, b.edges = s.builder.edges ∧
      rest { s with stack := s.stack.without [.i32], builder := b } = .ok () t := by
  obtain ⟨value, _, taken, ok⟩ := bind_ok.mp ok
  obtain ⟨_, took, _⟩ := takeValue_ok.mp taken
  obtain ⟨_, b, supplied, rfl⟩ := takeValues_ok.mp took
  obtain ⟨_, _, emitted, ok⟩ := bind_ok.mp ok
  obtain ⟨b', edges, rfl⟩ := emit_edges emitted
  exact ⟨b', edges.trans (supply_valueFor supplied).2, ok⟩

theorem funcletCall_dispatches {target : Nat} (distinct : ∀ q ∈ s.regions, q.blocks.toList.Nodup)
    (ok : funcletCall setting target s = .ok () t) : Dispatches (.funcletCall target) s t := by
  obtain ⟨_, _, emitted, ok⟩ := bind_ok.mp ok
  obtain ⟨b, edges, rfl⟩ := emit_edges emitted
  refine dispatches_of_ok (f := transferTo target) (m := endBlock setting) edges transferTo_calls
    distinct endBlock_concludes ?_
  rw [show (Instruction.funcletCall target).decider = [] from rfl, TypedStack.without_nil]
  exact ok

theorem funcletCallIf_dispatches {target : Nat} (distinct : ∀ q ∈ s.regions, q.blocks.toList.Nodup)
    (ok : funcletCallIf target s = .ok () t) : Dispatches (.funcletCallIf target) s t := by
  obtain ⟨b, edges, ok⟩ := decides_edges ok
  exact dispatches_of_ok edges transferTo_calls distinct fallThrough_concludes ok

theorem funcletCallTable_dispatches {targets : List Nat} {default : Nat}
    (distinct : ∀ q ∈ s.regions, q.blocks.toList.Nodup)
    (ok : funcletCallTable setting targets default s = .ok () t) :
    Dispatches (.funcletCallTable targets default) s t := by
  obtain ⟨b, edges, ok⟩ := decides_edges ok
  exact dispatches_of_ok edges (fun operands polymorphic u v r outer => callTargets_sends) distinct
    endBlock_concludes ok

/-- At the end of a frame either the next funclet is called, or none. -/
theorem close_dispatches (distinct : ∀ q ∈ s.regions, q.blocks.toList.Nodup)
    (ok : close setting s = .ok () t) : Dispatches .close s t ∨
      ∀ r recorded, Logs r recorded s.regions s.closed → Logs r recorded t.regions t.closed := by
  obtain ⟨frame, _, top, ok⟩ := bind_ok.mp ok
  obtain ⟨_, rfl⟩ := innermost_ok.mp top
  have silent {m : Step Unit} (made : FromParts False m) (ok : m s = .ok () t) (r : OpenRegion)
      (recorded : Array CallEdge) (logs : Logs r recorded s.regions s.closed) :
      Logs r recorded t.regions t.closed :=
    (made _ (startsKeep_logs r recorded).parts s () t trivial logs ok).2
  cases construct : frame.construct with
  | region =>
      rw [construct] at ok
      obtain ⟨r, _, inner, ok⟩ := bind_ok.mp ok
      obtain ⟨_, rfl⟩ := openRegion_ok.mp inner
      split at ok
      · left
        refine dispatches_of_ok (f := transferTo (r.graph.current + 1)) (m := nextFunclet setting)
          (b := s.builder) rfl transferTo_calls distinct nextFunclet_concludes ?_
        rw [show Instruction.close.decider = [] from rfl, TypedStack.without_nil]
        exact ok
      · refine .inr (silent (fun _ parts => ?_) ok)
        exact parts.bind (parts.takeAll _) fun _ => parts.bind (parts.branchTo _ _) fun _ => parts.close
  | function =>
      rw [construct] at ok
      exact .inr (silent (fun _ parts => parts.bind (parts.takeAll _) fun _ => parts.closeFunction _ _) ok)
  | loop =>
      rw [construct] at ok
      exact .inr (silent (fun _ parts => parts.bind (parts.takeAll _) fun _ => parts.closeLoop _ _) ok)
  | ifThen condition params =>
      rw [construct] at ok
      exact .inr (silent (fun _ parts => parts.bind (parts.takeAll _) fun _ =>
        parts.bind (parts.skipBranch _ _ _) fun _ => parts.closeJoin _ _) ok)
  | block | ifElse =>
      rw [construct] at ok
      exact .inr (silent (fun _ parts => parts.bind (parts.takeAll _) fun _ => parts.closeJoin _ _) ok)

theorem execute_dispatches (distinct : ∀ q ∈ s.regions, q.blocks.toList.Nodup)
    (ok : execute setting i s = .ok () t) : Dispatches i s t ∨
      ∀ r recorded, Logs r recorded s.regions s.closed → Logs r recorded t.regions t.closed := by
  by_cases may : i.Calls
  · cases i with
    | close => exact close_dispatches distinct ok
    | funcletCall target => exact .inl (funcletCall_dispatches distinct ok)
    | funcletCallIf target => exact .inl (funcletCallIf_dispatches distinct ok)
    | funcletCallTable targets default => exact .inl (funcletCallTable_dispatches distinct ok)
    | _ => exact may.elim
  · exact .inr fun r recorded logs => (startsKeep_logs r recorded).executes may trivial logs ok

/-- The first funclet of a region is entered from the block at hand with the parameters of the region. -/
theorem funcletRegion_enters {signature : Signature} {funclets : Nat}
    (ok : funcletRegion setting signature funclets s = .ok () t) (regions : t.regions = q :: s.regions)
    (place : q.blocks[0]? = some t.current) :
    q.signature = signature ∧ q.graph.edges = #[] ∧
      ∃ (old new : Array Ssa.Predecessor) (front values : List ValueId),
        t.builder.edges t.current = some new ∧
          Ssa.Builder.EdgesLast (old.push ⟨s.current, front ++ values⟩) new ∧
          List.Forall₂ ValueFor (s.stack.taken signature.params) values := by
  rw [funcletRegion, get_bind_ok, get_bind_ok] at ok
  cases opened : FuncletCalls.ofSize? funclets with
  | none => simp [opened] at ok
  | some graph =>
      simp only [opened, bind_ok, onBuilder_ok, newTarget_ok, shareValues_ok, branchTo_ok,
        onStack_ok, TypedStack.enter_ok, pushFrame_ok, modify_ok] at ok
      obtain ⟨blocks, _, ⟨b, added, rfl⟩, exit, _, ⟨c, built, rfl⟩, values, _,
        ⟨_, d, supplied, rfl⟩, _, _, ⟨e, connected, rfl⟩, mark, _, ⟨_, ⟨_, rfl, rfl⟩, rfl⟩, _, _,
        rfl, _, _, rfl, ok⟩ := ok
      dsimp only at ok
      obtain ⟨r, outer, g, before, after, _, calls⟩ := startFunclet_regions ok
      cases regions.symm.trans after
      cases before
      obtain ⟨old, front, _, edges, _⟩ := Ssa.Builder.connect_edges connected
      have head : blocks.headD 0 = t.current := by
        cases blocks with
        | nil => cases place
        | cons block rest => exact Option.some.inj place
      obtain ⟨new, found, last⟩ := (lands_startFunclet setting 0 _).retains ok _ _
        ((edges _).trans (if_pos rfl))
      rw [head] at found
      have none_ : graph.edges = #[] := (FuncletCalls.coherent_of_size opened).2.2.2.2.1
      refine ⟨rfl, ?_, old, new, front, values, found, last, (supply_valueFor supplied).1⟩
      rw [none_] at calls
      exact Array.map_eq_empty_iff.mp (Eq.trans calls Array.map_empty)

/-- What an instruction does to an open region: it records some calls of its funclets, and each of them
has an edge to the block of its target, behind the edges that were there. -/
def PassesOn (i : Instruction) (s t : State) (r : OpenRegion) : Prop :=
  ∃ calls : List CallEdge, Logs r (r.graph.edges ++ calls.toArray) t.regions t.closed ∧
    ∀ (index : Nat) (c : BlockId) (old : Array Ssa.Predecessor), r.blocks[index]? = some c →
      s.builder.edges c = some old → ∃ added new, t.builder.edges c = some new ∧
        Ssa.Builder.EdgesLast (old ++ added) new ∧
        List.Forall₂ (fun call pred => ∃ operands,
            (s.stack.without i.decider).operandsFrom r.base = some operands ∧
              Sends s.cursor.offset s.current operands call pred)
          (calls.filter fun call => call.target == index) added.toList

/-- What an instruction does that opens a region: the only edge to the block of the first funclet comes from
the block at hand, and ends with the values of the parameters. -/
def Enters (i : Instruction) (s t : State) (q : OpenRegion) : Prop :=
  ∃ funclets c pred values, i = .funcletRegion q.signature funclets ∧ q.offset = s.cursor.offset ∧
    q.blocks[0]? = some c ∧ t.builder.edges c = some #[pred] ∧ pred.block = s.current ∧
    List.Forall₂ ValueFor (s.stack.taken q.signature.params) values ∧ values <:+ pred.args

theorem Reached.retains (reached : Reached setting bytes s) (isOpen : s.control ≠ #[])
    (ok : Validation.step setting s = .ok () t) : s.builder.Retains t.builder := by
  intro c old before
  obtain ⟨k, present, rfl⟩ := Option.map_eq_some_iff.mp before
  obtain ⟨l, found, _, last, _⟩ := (reached.later isOpen ok).block present
  exact ⟨_, by rw [Ssa.Builder.edges, found, Option.map_some], last⟩

theorem passesOn_none (retains : s.builder.Retains t.builder)
    (logs : Logs r r.graph.edges t.regions t.closed) : PassesOn i s t r := by
  refine ⟨[], by rwa [show ([] : List CallEdge).toArray = #[] from rfl, Array.append_empty],
    fun index c old _ before => ?_⟩
  obtain ⟨new, found, last⟩ := retains c old before
  exact ⟨#[], new, found, by rwa [Array.append_empty], .nil⟩

theorem passesOn_of_dispatches {c : Cursor} (retains : s.builder.Retains t.builder)
    (dispatches : Dispatches i (s.fetched c) t) (member : q ∈ s.regions) : PassesOn i s t q := by
  obtain ⟨r, outer, b, operands, calls, v, m, above, edges, sent, concludes, ok⟩ := dispatches
  obtain ⟨graph, b', rfl, log⟩ := sent.same
  obtain ⟨kept, logs⟩ := concludes _ _ ok
  have regions : s.regions = r :: outer := sent.regions
  rw [regions] at member
  rcases List.mem_cons.mp member with rfl | around
  · refine ⟨calls, logs _ _ (.inl ⟨_, List.mem_cons_self, rfl, ?_⟩), fun index d old place before => ?_⟩
    · refine congrArg (Array.map _) (Array.toList_inj.mp ?_)
      rw [log, Array.toList_append]
    · obtain ⟨added, between, each⟩ := sent.edges place ((congrFun edges d).trans before)
      obtain ⟨new, found, last⟩ := kept d _ between
      exact ⟨added, new, found, last, each.imp fun call pred sends => ⟨operands, above, sends⟩⟩
  · exact passesOn_none retains (logs _ _ (logs_of_mem (List.mem_cons_of_mem _ around)))

theorem length_nextFunclet_le (funclet funclets : Nat) (outer : List Nest) :
    (Nest.nextFunclet funclet funclets outer).length ≤ outer.length + 1 := by
  unfold Nest.nextFunclet
  split
  · exact Nat.le_refl _
  · exact Nat.le_succ _

theorem region_of_advance {nest : List Nest} {funclet funclets : Nat}
    (opened : Nest.region funclet funclets :: nest = Nest.advance nest i) :
    ∃ signature n, i = .funcletRegion signature n := by
  have length := congrArg List.length opened
  cases i with
  | funcletRegion signature n => exact ⟨signature, n, rfl⟩
  | block | loop | ifThen => cases opened
  | close | unreachable | br | brTable | ret | funcletCall | funcletCallTable =>
      rcases nest with _ | ⟨_ | ⟨f, k⟩, outer⟩
      · simp [Nest.advance] at length
      · simp only [Nest.advance, List.length_cons] at length
        omega
      · simp only [Nest.advance, List.length_cons] at length
        have := length_nextFunclet_le f k outer
        omega
  | _ => simp [Nest.advance] at length

theorem regions_of_moves (moves : Moves s i t) (member : q ∈ t.regions) :
    (∃ r ∈ s.regions, q = { r with graph := q.graph }) ∨
      ∃ signature funclets, i = .funcletRegion signature funclets ∧ q.offset = s.start ∧
        t.regions = q :: s.regions ∧ q.blocks[0]? = some t.current := by
  have old (same : t.regions = s.regions) : ∃ r ∈ s.regions, q = { r with graph := q.graph } :=
    ⟨q, same ▸ member, rfl⟩
  cases moves.shift with
  | stays quiet _ =>
      left
      cases regions : s.regions with
      | nil =>
          have head := quiet.region
          rw [regions] at head
          cases later : t.regions with
          | nil => simp [later] at member
          | cons p outer => rw [later] at head; cases head
      | cons r outer =>
          obtain ⟨p, later, steady⟩ := quiet.region_on_top regions
          rw [later] at member
          rcases List.mem_cons.mp member with rfl | around
          · exact ⟨r, List.mem_cons_self, steady.same⟩
          · exact ⟨q, List.mem_cons_of_mem _ around, rfl⟩
  | opens l layers _ _ _ regions region _ _ _ first =>
      rw [regions] at member
      rcases List.mem_append.mp member with new | around
      · rw [Option.mem_toList] at new
        obtain ⟨signature, funclets, opens⟩ : ∃ signature funclets, i = .funcletRegion signature funclets := by
          have nests := moves.nests
          rw [State.nests_of_layers layers, List.map_cons] at nests
          have head : l.nest = .region q.graph.current q.graph.size := by rw [Layer.nest, new]
          rw [head] at nests
          exact region_of_advance nests
        refine .inr ⟨signature, funclets, opens, (region q new).1, ?_, (first q new).1⟩
        rw [regions, new]
        rfl
      · exact .inl ⟨q, around, rfl⟩
  | turns _ _ _ _ _ _ _ _ _ _ _ regions => exact .inl (old regions)
  | goesOn _ _ _ _ _ r p _ _ later _ regions =>
      left
      rw [regions.2] at member
      rcases List.mem_cons.mp member with rfl | around
      · exact ⟨r, by rw [regions.1]; exact List.mem_cons_self, later.same⟩
      · exact ⟨q, List.mem_of_mem_tail around, rfl⟩
  | closes _ _ _ _ _ regions =>
      rw [regions] at member
      exact .inl ⟨q, List.mem_of_mem_drop member, rfl⟩
  | ends _ _ _ _ _ regions => exact .inl (old regions)

theorem Reached.distinct (reached : Reached setting bytes s) : ∀ q ∈ s.regions, q.blocks.toList.Nodup := by
  obtain ⟨_, _, aligned⟩ := reached.loose.aligned
  exact fun q member => (aligned.regions q member).distinct

theorem Reached.entry (reached : Reached setting bytes s) (member : q ∈ s.regions)
    (none_ : q.graph.edges = #[]) {c : BlockId} (place : q.blocks[0]? = some c) :
    ∃ pred, s.builder.edges c = some #[pred] := by
  obtain ⟨node, present⟩ : ∃ node, q.graph.nodes[0]? = some node := by
    obtain ⟨_, _, aligned⟩ := reached.loose.aligned
    have inside := (Array.getElem?_eq_some_iff.mp place).1
    rw [(aligned.regions q member).count] at inside
    exact ⟨_, Array.getElem?_eq_getElem inside⟩
  obtain ⟨_, d, there, k, first, rest, block, _, split, length, _, others⟩ := reached.inStep member present
  cases place.symm.trans there
  have calls : q.graph.edgesTo node = [] := by simp [FuncletCalls.edgesTo, none_]
  rw [calls] at others
  cases others
  rw [if_pos rfl] at length
  obtain ⟨pred, rfl⟩ := List.length_eq_one_iff.mp length
  refine ⟨pred, ?_⟩
  rw [Ssa.Builder.edges, block, Option.map_some, ← Array.toList_inj.mp (show _ = #[pred].toList from split)]

/-- Every new edge to a funclet is one of a call or the entry of a region, and carries what is passed. -/
theorem Reached.passes (reached : Reached setting bytes s) (isOpen : s.control ≠ #[])
    (ok : Validation.step setting s = .ok () t) :
    ∃ i c, Decode.instruction (scopeOf setting s) s.cursor = .ok i c ∧
      (∀ r ∈ s.regions, PassesOn i s t r) ∧
      ∀ q ∈ t.regions, (∃ r ∈ s.regions, q = { r with graph := q.graph }) ∨ Enters i s t q := by
  obtain ⟨i, c, decoded, executed⟩ := step_ok_iff.mp ok
  refine ⟨i, c, decoded, fun r member => ?_, fun q member => ?_⟩
  · rcases execute_dispatches (s := s.fetched c) reached.distinct executed with dispatches | silent
    · exact passesOn_of_dispatches (reached.retains isOpen ok) dispatches member
    · exact passesOn_none (reached.retains isOpen ok) (silent r _ (logs_of_mem member))
  · have framed := reached.loose.framed (frames_ne_nil isOpen)
    rcases regions_of_moves (execute_moves (framed.fetched c) executed) member with
      old | ⟨signature, funclets, rfl, offset, regions, place⟩
    · exact .inl old
    · obtain ⟨rfl, none_, old, new, front, values, found, last, supplies⟩ :=
        funcletRegion_enters executed regions place
      obtain ⟨pred, single⟩ := (reached.step isOpen ok).entry member none_ place
      obtain rfl : #[pred] = new := Option.some.inj (single.symm.trans found)
      obtain ⟨pred', there, from_, suffix⟩ := last old.size _ Array.getElem?_push_size
      have inside := (Array.getElem?_eq_some_iff.mp there).1
      have empty : old.size = 0 := Nat.lt_one_iff.mp inside
      rw [empty] at there
      obtain rfl : pred = pred' := Option.some.inj there
      exact .inr ⟨funclets, t.current, pred, values, rfl, offset, place, single, from_, supplies,
        (List.suffix_append _ _).trans suffix⟩

end Validation

end WasmFunclets
