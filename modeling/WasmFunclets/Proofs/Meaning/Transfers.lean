import WasmFunclets.Proofs.Meaning.Answers
import WasmFunclets.Proofs.Meaning.Straight

/-! Branches and calls of funclets: what the validation supplies an edge for, the machine takes it for. -/

namespace WasmFunclets.Machine

open Validation Attempt
open Ssa (Forest Point)

variable {V : Type} {context : Context} {bytes : List UInt8} {states : Nat → State} {f : Forest}
variable {k n e : Nat} {s t u v : State} {c d d' : Config V} {x y : Point V} {p : Program V}
variable {setting : Setting} {ids : List ValueId} {target : BlockId} {types : List ValueType}
variable {cursor : Cursor} {decision : Nat} {args : List (Typed V)}

theorem take_of_same (taking : d.take types = .ok (args, c)) (stack : d'.stack = d.stack)
    (labels : d'.labels = d.labels) : ∃ e, d'.take types = .ok (args, e) := by
  have floor : d'.floor = d.floor := by rw [Config.floor, labels, Config.floor]
  unfold Config.take at taking ⊢
  rw [stack, floor]
  dsimp only at taking ⊢
  split at taking
  · cases taking
  · split at taking
    · cases taking
      rw [if_neg ‹_›, if_pos ‹_›]
      exact ⟨_, rfl⟩
    · cases taking

theorem Shows.condition {code : List Located} {value : ValueId} (shows : Shows code states f k s d x)
    (taken : takeValue .i32 s = .ok value u) (opcode : UInt8) (immediate : Nat) :
    ∃ a, p.condition d opcode immediate = .ok (p.state (d.without 1) opcode [a.datum] immediate) ∧
      u = { s with stack := s.stack.without [.i32] } ∧ Shows code states f k u (d.without 1) x ∧
      Bears (finished code states) f s.builder.values.size x a value := by
  obtain ⟨a, taking, same, inner, bears⟩ := shows.takeOne taken
  refine ⟨a, ?_, same, inner, bears⟩
  rw [Program.condition, taking]
  rfl

variable (story : Story context bytes p.code states f)
include story

theorem edgeCarries_to_frame {frame : Frame} {source : BlockId} (inside : k ≤ p.code.length)
    (found : (states k).frame? e = some frame) (supplies : (finished p.code states).HasSupplied source frame.target ids)
    (size : ids.length = frame.labelTypes.length) :
    EdgeCarries (finished p.code states) source frame.target ids := by
  refine edgeCarries_of_hasSupplied story supplies ?_
  rw [State.frame?_eq] at found
  obtain ⟨phis, given, same⟩ := story.takes inside (List.mem_of_getElem? found)
  exact ⟨phis, (story.lasts inside (Nat.le_refl _)).given given, same.trans size.symm⟩

variable (described : Described p ⟨context, true⟩ states)
include described

theorem br_answers (live : Live p states c) (meets : Meets p.code states f c x) {depth : Nat}
    (keeps : KeepsLocals p.code c.pc)
    (ok : br ⟨context, true⟩ depth ((states c.pc).fetched cursor) = .ok () (states (c.pc + 1))) :
    Answers p states f x (p.branch depth c) := by
  have sound := br_sound described live ok
  obtain ⟨frame, _, looked, ok⟩ := bind_ok.mp ok
  obtain ⟨found, rfl⟩ := labelled_ok.mp looked
  obtain ⟨ids, u, shared, ok⟩ := bind_ok.mp ok
  obtain ⟨args, taking, _, inner, bears, length⟩ := (meets.fetched cursor).share shared
  have trails : Trails (fun _ => False) (endBlock ⟨context, true⟩) := (lands_endBlock _).trails
  obtain ⟨supplies, leaving, _⟩ := inner.branchTo story trails ok keeps
  exact leaving.branch story described inner live.mid found taking
    (edgeCarries_to_frame story (Nat.le_of_lt live.inside) found supplies length) (reads_of_bears bears) sound

theorem brIf_answers (live : Live p states c) (meets : Meets p.code states f c x) {depth : Nat}
    (keeps : KeepsLocals p.code c.pc)
    (ok : brIf depth ((states c.pc).fetched cursor) = .ok () (states (c.pc + 1))) :
    Answers p states f x (do
      let c ← p.condition c Opcode.brIfByte depth
      if decision = 0 then return .running c.next else p.branch depth c) := by
  have sound := brIf_sound described live decision ok
  obtain ⟨value, u, taken, ok⟩ := bind_ok.mp ok
  obtain ⟨a, stated, rfl, inner, condition⟩ :=
    (meets.fetched cursor).condition (p := p) taken Opcode.brIfByte depth
  obtain ⟨frame, _, looked, ok⟩ := bind_ok.mp ok
  obtain ⟨found, rfl⟩ := labelled_ok.mp looked
  obtain ⟨ids, v, shared, ok⟩ := bind_ok.mp ok
  obtain ⟨args, taking, rfl, inner, bears, length⟩ := inner.share shared
  obtain ⟨_, w, emitted, ok⟩ := bind_ok.mp ok
  have falls : Trails (fun _ => False) fallThrough := trails_fallThrough
  have trails := trails_bind (asks_branchTo frame.target ids) fun _ => falls
  obtain ⟨y, performs, shows, kept⟩ := inner.statement story p (.cons condition .nil) emitted
    fun aliased => ((trails w).lasts ok aliased).trans (story.lasts meets.within (Nat.le_refl _))
  obtain ⟨supplies, leaving, b', behind, later⟩ :=
    shows.branchTo story falls ok keeps
  rw [stated] at sound ⊢
  change LiveOrEnded p states (if decision = 0 then _ else _) at sound
  change Answers p states f x (if decision = 0 then _ else _)
  refine Answers.after ?_ (.single performs)
  split at sound
  · rename_i stays
    rw [if_pos stays]
    exact leaving.falls story later behind sound
  · rename_i leaves
    rw [if_neg leaves]
    obtain ⟨_, taking⟩ :
        ∃ e, (p.state (c.without 1) Opcode.brIfByte [a.datum] depth).take frame.labelTypes = .ok (args, e) :=
      take_of_same taking rfl rfl
    exact leaving.branch story described shows (shows.mid live ⟨rfl, rfl, rfl⟩) found taking
      (edgeCarries_to_frame story (Nat.le_of_lt live.inside) found supplies length)
      (reads_of_bears (bears.imp kept)) sound

theorem ret_answers (live : Live p states c) (meets : Meets p.code states f c x)
    (keeps : KeepsLocals p.code c.pc)
    (ok : ret ⟨context, true⟩ ((states c.pc).fetched cursor) = .ok () (states (c.pc + 1))) :
    Answers p states f x (p.branch (c.labels.length - 1) c) := by
  have sound := ret_sound described live ok
  have inside := Nat.le_of_lt live.inside
  rw [ret, get_bind_ok] at ok
  cases present : ((states c.pc).fetched cursor).control[0]? with
  | none => simp [present] at ok
  | some function =>
      simp only [present, get_bind_ok] at ok
      obtain ⟨ids, u, shared, ok⟩ := bind_ok.mp ok
      obtain ⟨args, taking, rfl, inner, bears, length⟩ := (meets.fetched cursor).share shared
      have trails : Trails (fun _ => False) (endBlock ⟨context, true⟩) := (lands_endBlock _).trails
      obtain ⟨supplies, leaving, _⟩ := inner.branchTo story trails ok keeps
      obtain ⟨construct, found, l, last, rfl⟩ := live.function described present
      have types : l.frame.labelTypes = l.frame.signature.results := by simp [Frame.labelTypes, construct]
      have exit : (states c.pc).exit = l.frame.target :=
        (story.exit_eq inside).trans (story.target_eq_exit inside last).symm
      change (finished p.code states).HasSupplied x.block (states c.pc).exit ids at supplies
      rw [exit] at supplies
      exact leaving.branch story described inner live.mid found (types ▸ taking)
        (edgeCarries_to_frame story inside found supplies (types ▸ length)) (reads_of_bears bears) sound

omit described story in
/-- The edges that a table supplies, each for the label that comes first of those with the same target. -/
theorem brTargets_hasSupplied {b : Ssa.Builder} {expected : List ValueType} {depths : List Nat}
    {seen : Std.HashSet BlockId}
    (shows : Shows p.code states f k u d x) (later : v.builder.Lasts b)
    (onward : b.Lasts (finished p.code states))
    (ok : brTargets expected depths seen u = .ok () v) :
    ∀ depth ∈ depths, ∃ frame, u.frame? depth = some frame ∧ frame.labelTypes.length = expected.length ∧
      (∃ e, d.take frame.labelTypes = .ok (d.stack.drop (d.stack.length - expected.length), e)) ∧
      (seen.contains frame.target = true ∨ ∃ ids,
        b.HasSupplied x.block frame.target ids ∧
        List.Forall₂ (fun a v => x.read (finished p.code states) v = some a.datum)
          (d.stack.drop (d.stack.length - expected.length)) ids) := by
  induction depths generalizing u seen with
  | nil => simp
  | cons first rest ih =>
      obtain ⟨frame, _, looked, ok⟩ := bind_ok.mp ok
      obtain ⟨found, rfl⟩ := labelled_ok.mp looked
      obtain ⟨_, _, required, ok⟩ := bind_ok.mp ok
      obtain ⟨same, rfl⟩ := require_ok.mp required
      obtain ⟨ids, w, shared, ok⟩ := bind_ok.mp ok
      obtain ⟨args, taking, rfl, inner, bears, length⟩ := shows.share shared
      have top : args = d.stack.drop (d.stack.length - expected.length) := by
        obtain ⟨_, split, _⟩ := take_ok taking
        rw [← same]
        have whole := List.take_append_drop (d.stack.length - frame.labelTypes.length) d.stack
        exact (List.append_cancel_left (whole.trans split)).symm
      rw [top] at taking bears
      intro depth member
      have insert (frame' : Frame) (known : (seen.insert frame.target).contains frame'.target = true) :
          frame'.target = frame.target ∨ seen.contains frame'.target = true := by
        rw [Std.HashSet.contains_insert, Bool.or_eq_true, beq_iff_eq] at known
        exact known.imp_left Eq.symm
      split at ok
      · rename_i known
        rcases List.mem_cons.mp member with rfl | inside
        · exact ⟨frame, found, same, ⟨_, taking⟩, .inl known⟩
        · obtain ⟨frame', found', same', taking', edge⟩ := ih inner ok depth inside
          refine ⟨frame', found', same', taking', edge.imp_left fun listed => ?_⟩
          rcases insert frame' listed with here | before
          · rw [here, known]
          · exact before
      · obtain ⟨_, w, joined, ok⟩ := bind_ok.mp ok
        obtain ⟨b', connected, rfl⟩ := branchTo_ok.mp joined
        have here : u.current = x.block := inner.current.trans inner.block.symm
        have step : u.builder.Lasts b' := Ssa.Builder.Request.lasts
          (.connect u.current frame.target ids) inner.lasts.aliased connected
        have asks : Asks (LinksFrom fun _ => False) (brTargets expected rest (seen.insert frame.target)) :=
          asks_brTargets _ _ _
        have before : b'.Lasts b :=
          ((asks.requests _).lasts ok step.aliased).trans later
        have supplies : b.HasSupplied x.block frame.target ids := ⟨_, _, here ▸ connected, before⟩
        rcases List.mem_cons.mp member with rfl | inside
        · exact ⟨frame, found, same, ⟨_, taking⟩, .inr ⟨ids, supplies, reads_of_bears bears⟩⟩
        · obtain ⟨frame', found', same', taking', edge⟩ :=
            ih (inner.connect connected (before.trans onward)) ok depth inside
          refine ⟨frame', found', same', taking', ?_⟩
          rcases edge with listed | edge
          · rcases insert frame' listed with here | before
            · exact .inr ⟨ids, here ▸ supplies, reads_of_bears bears⟩
            · exact .inl before
          · exact .inr edge

theorem brTable_answers (live : Live p states c) (meets : Meets p.code states f c x)
    {depths : List Nat} {default : Nat}
    (keeps : KeepsLocals p.code c.pc)
    (ok : brTable ⟨context, true⟩ depths default ((states c.pc).fetched cursor) =
      .ok () (states (c.pc + 1))) :
    Answers p states f x (do
      let c ← p.condition c Opcode.brTableByte depths.length
      p.branch (depths[decision]?.getD default) c) := by
  have sound := brTable_sound described live decision ok
  have inside := Nat.le_of_lt live.inside
  obtain ⟨value, u, taken, ok⟩ := bind_ok.mp ok
  obtain ⟨a, stated, rfl, inner, condition⟩ :=
    (meets.fetched cursor).condition (p := p) taken Opcode.brTableByte depths.length
  obtain ⟨_, v, emitted, ok⟩ := bind_ok.mp ok
  obtain ⟨_, _, _, rfl⟩ := emitStatement_ok.mp emitted
  have asks (expected : List ValueType) :
      Asks (LinksFrom fun _ => False) (brTargets expected (depths ++ [default]) ∅) := asks_brTargets _ _ _
  have trails := trails_bind (asks_labelled default) fun frame => trails_bind (asks frame.labelTypes)
    fun _ => (lands_endBlock ⟨context, true⟩).trails
  have onward := story.lasts meets.within (Nat.le_refl _)
  obtain ⟨y, performs, shows, kept⟩ := inner.statement story p (.cons condition .nil) emitted
    fun aliased => ((trails _).lasts ok aliased).trans onward
  have whole := ok
  obtain ⟨frame, _, looked, ok⟩ := bind_ok.mp ok
  obtain ⟨_, rfl⟩ := labelled_ok.mp looked
  obtain ⟨_, w, listed, ended⟩ := bind_ok.mp ok
  have before : w.builder.Lasts (states (c.pc + 1)).builder := by
    refine (lands_endBlock _ w).lasts ended ?_
    exact (((asks _).requests _).lasts listed shows.lasts.aliased).aliased
  have member : depths[decision]?.getD default ∈ depths ++ [default] := by
    cases present : depths[decision]? with
    | none => simp
    | some depth => simp [List.mem_of_getElem? present]
  obtain ⟨label, found, _, ⟨_, taking⟩, edge⟩ := brTargets_hasSupplied shows before onward listed _ member
  obtain ⟨ids, supplies, above⟩ := edge.resolve_left (by simp)
  have size : ids.length = label.labelTypes.length := by
    rw [← above.length_eq, ← (take_ok taking).2.2.1, List.length_map]
  have leaving := shows.leaving story trails whole supplies.used keeps
  rw [stated] at sound ⊢
  change LiveOrEnded p states (p.branch _ _) at sound
  change Answers p states f x (p.branch _ _)
  refine Answers.after ?_ (.single performs)
  exact leaving.branch story described shows (shows.mid live ⟨rfl, rfl, rfl⟩) found taking
    (edgeCarries_to_frame story inside found (supplies.later onward) size) above sound

omit described story in
theorem transferTo_hasSupplied {b : Ssa.Builder} {operands : List Operand} {polymorphic : Bool} {index h : Nat}
    (shows : Shows p.code states f k u d x) (given : operands = u.stack.operands.toList.drop h)
    (current : t.current = u.current) (lasts : u.builder.Lasts t.builder)
    (ok : transferTo index operands polymorphic t = .ok () v) (later : v.builder.Lasts b) :
    ∃ r rest target ids, t.regions = r :: rest ∧ r.blocks[index]? = some target ∧
      b.HasSupplied x.block target ids ∧
      List.Forall₂ (fun a v => x.read (finished p.code states) v = some a.datum) (d.stack.drop h) ids := by
  obtain ⟨r, rest, last, graph, target, ids, b', b'', regions, _, place, supplied, connected, ok⟩ :=
    transferTo_ok.mp ok
  obtain ⟨rfl, bears⟩ := supply_bears (given ▸ List.forall₂_drop h shows.stack) supplied
  have here : t.current = x.block := current.trans (shows.current.trans shows.block.symm)
  have step := Ssa.Builder.Request.lasts (.connect t.current target ids) lasts.aliased connected
  have asks : Asks (LinksFrom fun _ => False) (if last then completeFunclet index else pure ()) :=
    along_ite (asks_completeFunclet index) (along_pure ())
  exact ⟨r, rest, target, ids, regions, place,
    ⟨_, b'', here ▸ connected, ((asks.requests _).lasts ok step.aliased).trans later⟩, reads_of_bears bears⟩

theorem Shows.transfer {operands : List Operand} {polymorphic : Bool} {index : Nat} {w : State}
    {i : Instruction} {m : Step Unit} (shows : Shows p.code states f d.pc u d x) (mid : Mid p states d)
    (quiet : Quiet ((states d.pc).fetched cursor) u) (listed : regionOperands u = .ok operands u)
    (unreachable : operandsUnreachable u = .ok polymorphic u) (before : Quiet u t)
    (current : t.current = u.current) (lasts : u.builder.Lasts t.builder)
    (called : transferTo index operands polymorphic t = .ok () v) (behind : Quiet v w)
    (shift : Shift w i (states (d.pc + 1))) (later : v.builder.Lasts (states (d.pc + 1)).builder)
    (trails : Trails (fun _ => False) m) (ok : m u = .ok () (states (d.pc + 1)))
    (keeps : KeepsLocals p.code d.pc) :
    Leaving p.code states d x ∧ Answers p states f x (p.transfer index d) := by
  obtain ⟨inner, l, outer, r, params, layers, plain, region, known, typed, within, given, blocks⟩ :=
    mid.callee described quiet shows.agrees listed unreachable before called behind shift
  obtain ⟨q, rest, target, ids, regions, place, supplies, above⟩ :=
    transferTo_hasSupplied shows given current lasts called later
  have leaving := shows.leaving story trails ok supplies.used keeps
  refine ⟨leaving, leaving.transfer story described mid layers plain region known typed within
    (blocks q rest regions ▸ place) (supplies.later (story.lasts shows.within (Nat.le_refl _)))
    (shows.below ?_) above⟩
  have found : (states d.pc).layers.drop inner.length = l :: outer := by rw [layers, List.drop_left]
  exact mid.floor ▸ mid.height_le described found

theorem funcletCall_answers (live : Live p states c) (meets : Meets p.code states f c x) {index : Nat}
    (keeps : KeepsLocals p.code c.pc)
    (ok : funcletCall ⟨context, true⟩ index ((states c.pc).fetched cursor) = .ok () (states (c.pc + 1))) :
    Answers p states f x (p.transfer index (p.state c Opcode.funcletCallByte [] index)) := by
  have framed := (live.mid.framed described).fetched cursor
  obtain ⟨_, u, emitted, ok⟩ := bind_ok.mp ok
  have quiet := (emitStatement_staysInFrame _ _ _).quiet framed emitted
  have trails : Trails (fun _ => False) (do
      transferTo index (← regionOperands) (← operandsUnreachable)
      endBlock ⟨context, true⟩) :=
    trails_bind asks_regionOperands fun _ => trails_bind asks_operandsUnreachable fun _ =>
      trails_bind (asks_transferTo _ _ _) fun _ => (lands_endBlock _).trails
  obtain ⟨y, performs, shows, _⟩ := (meets.fetched cursor).statement story p (n := 0) .nil emitted
    fun aliased => ((trails _).lasts ok aliased).trans (story.lasts meets.within (Nat.le_refl _))
  have whole := ok
  obtain ⟨operands, polymorphic, listed, unreachable, ok⟩ := gathered_ok ok
  obtain ⟨_, v, called, ended⟩ := bind_ok.mp ok
  have inner := framed.quiet quiet
  have outer := inner.quiet ((transferTo_staysInFrame _ _ _).quiet inner called)
  have asks : Asks (LinksFrom fun _ => False) (transferTo index operands polymorphic) := asks_transferTo _ _ _
  have step := (asks.requests u).lasts called shows.lasts.aliased
  refine Answers.after ?_ (.single performs)
  exact (shows.transfer story described (shows.mid live ⟨rfl, rfl, rfl⟩) quiet listed unreachable
    (.refl inner.above) rfl (.refl shows.lasts.aliased) called (.refl outer.above)
    (endBlock_shift outer ended) ((lands_endBlock _ v).lasts ended step.aliased) trails whole keeps).2

omit described story in
theorem Shows.called {operands : List Operand} {polymorphic : Bool} {index : Nat}
    (shows : Shows p.code states f k u d x) (framed : Framed u)
    (ok : transferTo index operands polymorphic u = .ok () v)
    (onward : v.builder.Aliased → v.builder.Lasts (finished p.code states)) : Shows p.code states f k v d x := by
  have asks : Asks (LinksFrom fun _ => False) (transferTo index operands polymorphic) := asks_transferTo _ _ _
  have step := (asks.requests u).lasts ok shows.lasts.aliased
  have bodies := (asks.requests u).bodyOf ok x.block
  obtain ⟨r, rest, _, _, _, _, _, _, regions, _⟩ := transferTo_ok.mp ok
  obtain ⟨q, b, rfl, _⟩ :=
    transferTo_callsAdded regions (framed.settled r (by rw [regions]; exact List.mem_cons_self)) ok
  exact { shows.rebuild step (onward step.aliased) bodies with }

theorem funcletCallIf_answers (live : Live p states c) (meets : Meets p.code states f c x) {index : Nat}
    (keeps : KeepsLocals p.code c.pc)
    (ok : funcletCallIf index ((states c.pc).fetched cursor) = .ok () (states (c.pc + 1))) :
    Answers p states f x (do
      let c ← p.condition c Opcode.funcletCallIfByte index
      if decision = 0 then return .running c.next else p.transfer index c) := by
  have sound := funcletCallIf_sound described live decision ok
  have framed := (live.mid.framed described).fetched cursor
  obtain ⟨value, t, taken, ok⟩ := bind_ok.mp ok
  have before := (takeValue_staysInFrame _).quiet framed taken
  obtain ⟨a, stated, rfl, inner, condition⟩ :=
    (meets.fetched cursor).condition (p := p) taken Opcode.funcletCallIfByte index
  obtain ⟨_, u, emitted, ok⟩ := bind_ok.mp ok
  have quiet := before.trans ((emitStatement_staysInFrame _ _ _).quiet (framed.quiet before) emitted)
  have falls : Trails (fun _ => False) fallThrough := trails_fallThrough
  have trails := trails_bind asks_regionOperands fun operands => trails_bind asks_operandsUnreachable
    fun polymorphic => trails_bind (asks_transferTo index operands polymorphic) fun _ => falls
  have onward := story.lasts meets.within (Nat.le_refl _)
  obtain ⟨y, performs, shows, _⟩ := inner.statement story p (.cons condition .nil) emitted
    fun aliased => ((trails _).lasts ok aliased).trans onward
  have whole := ok
  obtain ⟨operands, polymorphic, listed, unreachable, ok⟩ := gathered_ok ok
  obtain ⟨_, v, called, passed⟩ := bind_ok.mp ok
  have inside := framed.quiet quiet
  have outer := inside.quiet ((transferTo_staysInFrame _ _ _).quiet inside called)
  have quiet' := fallThrough_staysInFrame.quiet outer passed
  have behind := shows.called inside called fun aliased => ((falls v).lasts passed aliased).trans onward
  obtain ⟨leaving, taken⟩ := shows.transfer story described (shows.mid live ⟨rfl, rfl, rfl⟩) quiet listed
    unreachable (.refl inside.above) rfl (.refl shows.lasts.aliased) called quiet' (i := .nop)
    (.stays (.refl (outer.quiet quiet').above) (by simp)) ((falls v).lasts passed behind.lasts.aliased)
    trails whole keeps
  rw [stated] at sound ⊢
  change LiveOrEnded p states (if decision = 0 then _ else _) at sound
  change Answers p states f x (if decision = 0 then _ else _)
  refine Answers.after ?_ (.single performs)
  split at sound
  · rename_i stays
    rw [if_pos stays]
    exact leaving.falls story behind passed sound
  · rename_i leaves
    rw [if_neg leaves]
    exact taken

theorem funcletCallTable_answers (live : Live p states c) (meets : Meets p.code states f c x)
    {targets : List Nat} {default : Nat}
    (keeps : KeepsLocals p.code c.pc)
    (ok : funcletCallTable ⟨context, true⟩ targets default ((states c.pc).fetched cursor) =
      .ok () (states (c.pc + 1))) :
    Answers p states f x (do
      let c ← p.condition c Opcode.funcletCallTableByte targets.length
      p.transfer (targets[decision]?.getD default) c) := by
  have framed := (live.mid.framed described).fetched cursor
  obtain ⟨value, t, taken, ok⟩ := bind_ok.mp ok
  have before := (takeValue_staysInFrame _).quiet framed taken
  obtain ⟨a, stated, rfl, inner, condition⟩ :=
    (meets.fetched cursor).condition (p := p) taken Opcode.funcletCallTableByte targets.length
  obtain ⟨_, u, emitted, ok⟩ := bind_ok.mp ok
  have quiet := before.trans ((emitStatement_staysInFrame _ _ _).quiet (framed.quiet before) emitted)
  have asks (operands : List Operand) (polymorphic : Bool) (some_ : List Nat) (seen : Std.HashSet Nat) :
      Asks (LinksFrom fun _ => False) (callTargets operands polymorphic some_ seen) := asks_callTargets _ _ _ _
  have trails := trails_bind asks_regionOperands fun operands => trails_bind asks_operandsUnreachable
    fun polymorphic => trails_bind (asks operands polymorphic (targets ++ [default]) ∅) fun _ =>
      (lands_endBlock ⟨context, true⟩).trails
  have onward := story.lasts meets.within (Nat.le_refl _)
  obtain ⟨y, performs, shows, _⟩ := inner.statement story p (.cons condition .nil) emitted
    fun aliased => ((trails _).lasts ok aliased).trans onward
  have whole := ok
  obtain ⟨operands, polymorphic, listed, unreachable, ok⟩ := gathered_ok ok
  obtain ⟨_, w, calls, ended⟩ := bind_ok.mp ok
  have inside := framed.quiet quiet
  have outer := inside.quiet ((callTargets_staysInFrame _ _ _ _).quiet inside calls)
  have member : targets[decision]?.getD default ∈ targets ++ [default] := by
    cases present : targets[decision]? with
    | none => simp
    | some target => simp [List.mem_of_getElem? present]
  obtain ⟨front, rest, seen, u', v, first, called, later⟩ :=
    callTargets_split calls _ member (by simp)
  have earlier := (callTargets_staysInFrame _ _ _ _).quiet inside first
  have between := (inside.quiet earlier).quiet ((transferTo_staysInFrame _ _ _).quiet (inside.quiet earlier) called)
  have lasts := ((asks _ _ _ _).requests _).lasts first shows.lasts.aliased
  have step : v.builder.Lasts w.builder := by
    refine ((asks _ _ _ _).requests _).lasts later ?_
    have once : Asks (LinksFrom fun _ => False) (transferTo (targets[decision]?.getD default) operands polymorphic) :=
      asks_transferTo _ _ _
    exact ((once.requests _).lasts called lasts.aliased).aliased
  rw [stated]
  change Answers p states f x (p.transfer _ _)
  refine Answers.after ?_ (.single performs)
  exact (shows.transfer story described (shows.mid live ⟨rfl, rfl, rfl⟩) quiet listed unreachable
    earlier ((asks _ _ _ _).current first) lasts called ((callTargets_staysInFrame _ _ _ _).quiet between later)
    (endBlock_shift outer ended) (step.trans ((lands_endBlock _ w).lasts ended step.aliased)) trails whole
    keeps).2

end WasmFunclets.Machine
