import WasmFunclets.Proofs.Meaning.Transfers

/-! Constructs are opened, turned and closed where the validation does so, and the function goes with the
machine from one block to the next. -/

namespace WasmFunclets

namespace Validation

open Attempt

variable {s t : State} {signature : Signature} {mark : Mark} {target : BlockId} {construct : Construct}
variable {frame : Frame} {outer : List Frame}

theorem pushFrame_top (ok : pushFrame signature mark target construct s = .ok () t)
    (frames : t.frames = frame :: outer) : frame.target = target ∧ frame.construct = construct := by
  obtain rfl := pushFrame_ok.mp ok
  have top := (frames_push s.control _).symm.trans frames
  rw [← (List.cons.inj top).1]
  exact ⟨rfl, rfl⟩

/-- The `else` of an `if` starts in a block of its own, with the parameters. -/
theorem openElse_turns {condition : BlockId} {params : List ValueId} (found : s.frame? 0 = some frame)
    (isIf : frame.construct = .ifThen condition params) (aliased : s.builder.Aliased)
    (above : s.stack.floor ≤ s.stack.height) (ok : openElse s = .ok () t) :
    ∃ b front, follower condition b = .ok t.current t.builder ∧
      s.builder.blocks.size ≤ b.blocks.size ∧ front.length = s.stack.floor ∧
      t.stack.operands.toList = front ++ operandsOf frame.signature.params params := by
  obtain ⟨frame', _, looked, ok⟩ := bind_ok.mp ok
  obtain ⟨found', rfl⟩ := innermost_ok.mp looked
  obtain rfl := Option.some.inj (found.symm.trans found')
  simp only [isIf] at ok
  obtain ⟨ids, u, taken, ok⟩ := bind_ok.mp ok
  obtain ⟨_, v, joined, ok⟩ := bind_ok.mp ok
  have asks : Asks (LinksFrom fun _ => False) (branchTo frame.target ids) := asks_branchTo _ _
  have all : Asks FillsCurrent (takeAll frame.signature.results) := asks_takeAll _
  have first := (all.requests s).lasts taken aliased
  have lasts := first.trans ((asks.requests u).lasts joined first.aliased)
  obtain ⟨_, b, _, rfl⟩ := takeAll_ok.mp taken
  obtain ⟨b', _, rfl⟩ := branchTo_ok.mp joined
  obtain ⟨_, _, turned, ok⟩ := bind_ok.mp ok
  obtain rfl := modify_ok.mp turned
  obtain ⟨_, w, followed, ok⟩ := bind_ok.mp ok
  obtain ⟨block, b'', made, rfl⟩ := followBlock_ok.mp followed
  obtain ⟨_, reset, rfl⟩ := onStack_ok.mp ok
  obtain rfl := TypedStack.reset_ok.mp reset
  have rests := TypedStack.rests_without frame.signature.results above
  have low := TypedStack.toList_resize rests.above
  refine ⟨b', (s.stack.without frame.signature.results).operands.toList.take s.stack.floor, made,
    lasts.blocks, ?_, ?_⟩
  · rw [List.length_take, ← TypedStack.height_eq]
    exact Nat.min_eq_left rests.above
  · rw [TypedStack.toList_extend]
    exact congrArg (· ++ _) low

theorem close_skips {setting : Setting} {condition : BlockId} {params : List ValueId}
    (found : s.frame? 0 = some frame) (isIf : frame.construct = .ifThen condition params)
    (aliased : s.builder.Aliased) (ok : close setting s = .ok () t) :
    t.builder.HasSupplied condition frame.target params := by
  obtain ⟨frame', _, looked, ok⟩ := bind_ok.mp ok
  obtain ⟨found', rfl⟩ := innermost_ok.mp looked
  obtain rfl := Option.some.inj (found.symm.trans found')
  simp only [isIf] at ok
  obtain ⟨ids, u, taken, ok⟩ := bind_ok.mp ok
  have all : Asks FillsCurrent (takeAll frame.signature.results) := asks_takeAll _
  have first := (all.requests s).lasts taken aliased
  obtain ⟨_, v, skipped, ok⟩ := bind_ok.mp ok
  have lasts := ((skipBranch_asks frame condition params).requests u).lasts skipped first.aliased
  have trails : Trails (fun _ => False) (closeJoin frame ids) := closeJoin_trails frame ids
  have behind := (trails v).lasts ok lasts.aliased
  obtain ⟨_, _, required, connected⟩ := bind_ok.mp skipped
  obtain ⟨_, rfl⟩ := require_ok.mp required
  obtain ⟨b, joined, rfl⟩ := onBuilder_ok.mp connected
  exact ⟨u.builder, b, joined, behind⟩

theorem branchTo_hasSupplied {sources : BlockId → Prop} {rest : Unit → Step Unit} {ids : List ValueId}
    (trails : Trails sources (rest ())) (aliased : s.builder.Aliased)
    (ok : (branchTo target ids >>= rest) s = .ok () t) : t.builder.HasSupplied s.current target ids := by
  obtain ⟨_, u, joined, ok⟩ := bind_ok.mp ok
  obtain ⟨b, connected, rfl⟩ := branchTo_ok.mp joined
  have lasts := (Ssa.Builder.Request.connect s.current target ids).lasts aliased connected
  exact ⟨s.builder, b, connected, (trails _).lasts ok lasts.aliased⟩

theorem closeJoin_hasSupplied {ids : List ValueId} (aliased : s.builder.Aliased)
    (ok : closeJoin frame ids s = .ok () t) : t.builder.HasSupplied s.current frame.target ids := by
  have trails : Trails (fun _ => False) (do
      onBuilder (Ssa.Builder.sealBlock frame.target)
      onStack (TypedStack.leave frame.mark)
      moveTo frame.target
      putValues frame.signature.results (← onBuilder (Ssa.Builder.args frame.target))
      popFrame) :=
    trails_bind (asks_neutral (sealBlock_neutral _)) fun _ => trails_bind (asks_onStack _) fun _ =>
      Lands.trails <| Lands.bind (lands_moveTo _) fun _ => Asks.lands <|
        along_bind (asks_neutral (args_neutral _)) fun _ => along_bind (asks_onStack _) fun _ =>
          asks_modify fun _ => rfl
  exact branchTo_hasSupplied trails aliased ok

/-- What opens a region and starts its first funclet in the first one of some blocks. -/
def startRegion (setting : Setting) (signature : Signature) (exit : BlockId)
    (region : Mark → OpenRegion) : Step Unit := do
  let mark ← onStack (TypedStack.enter signature.params)
  pushFrame signature mark exit .region
  modify fun s => { s with regions := region mark :: s.regions }
  startFunclet setting 0

theorem startRegion_ok {setting : Setting} {exit : BlockId} {region : Mark → OpenRegion} {funclets : Nat}
    (enterable : ∀ mark, FuncletCalls.ofSize? funclets = some (region mark).graph)
    (ok : startRegion setting signature exit region s = .ok () t) :
    ∃ mark r rest block, t.regions = r :: rest ∧ r.blocks = (region mark).blocks ∧
      (region mark).blocks[0]? = some block := by
  simp only [startRegion, bind_ok, onStack_ok, TypedStack.enter_ok, pushFrame_ok, modify_ok] at ok
  obtain ⟨mark, _, ⟨_, ⟨_, rfl, rfl⟩, rfl⟩, _, _, rfl, _, _, rfl, ok⟩ := ok
  have high := (TypedStack.tops_entered (s := s.stack) signature.params).height
  obtain ⟨r, _, same, _, _, grown, _, _, _, _, _, _, _, block, listed, _⟩ :=
    startFunclet_ok rfl (enterable_of_size (enterable _)) (high ▸ Nat.le_add_right _ _) ok
  refine ⟨_, r, s.regions, block, ?_, ?_, listed⟩
  · rw [same]
  · rw [grown.same]

end Validation

namespace Machine

open Validation Attempt
open Ssa (Forest Point)

variable {V : Type} {context : Context} {bytes : List UInt8} {states : Nat → State} {f : Forest}
variable {k n : Nat} {s t u v : State} {c d e : Config V} {x y : Point V} {p : Program V}
variable {setting : Setting} {ids : List ValueId} {target : BlockId} {types : List ValueType}
variable {cursor : Cursor} {decision : Nat} {args : List (Typed V)} {signature : Signature} {frame : Frame}

theorem Leaving.beside {code : List Located} (leaving : Leaving code states d x)
    (locals : e.locals = d.locals) (history : e.history = d.history) : Leaving code states e x :=
  ⟨leaving.reachable, leaving.position, leaving.history.trans history.symm, locals ▸ leaving.locals⟩

theorem Shows.takeAll {code : List Located} (shows : Shows code states f k s d x)
    (ok : Validation.takeAll types s = .ok ids u) :
    u = { s with stack := s.stack.without types } ∧ Shows code states f k u (d.without types.length) x ∧
      (d.stack.drop d.floor).map Typed.type = types ∧
      (d.without types.length).stack = d.stack.take d.floor ∧
      List.Forall₂ (Bears (finished code states) f s.builder.values.size x) (d.stack.drop d.floor) ids := by
  obtain ⟨holds, b, supplied, rfl⟩ := takeAll_ok.mp ok
  have accepted : s.stack.accepts types = true := by
    rw [TypedStack.holdsExactly, Bool.and_eq_true] at holds
    exact holds.2
  obtain ⟨args, taking, same, later, bears, _⟩ := shows.take (takeValues_ok.mpr ⟨accepted, b, supplied, rfl⟩)
  have typed := shows.agrees.exactly holds
  have count := congrArg List.length typed
  rw [List.length_map, List.length_drop] at count
  have floor : d.stack.length - types.length = d.floor := by
    have above := shows.agrees.above
    rw [← shows.agrees.floor, ← shows.agrees.length] at above
    omega
  have front : (d.without types.length).stack = d.stack.take d.floor := by rw [Config.without, floor]
  obtain ⟨_, split, _⟩ := take_ok taking
  have top : args = d.stack.drop d.floor := by
    rw [front] at split
    exact List.append_cancel_left (split.symm.trans (List.take_append_drop _ _).symm)
  exact ⟨same, later, typed, front, top ▸ bears⟩

theorem Opening.split {before : TypedStack} (opening : Opening s t before signature frame)
    (agrees : Agrees d before) (taking : d.take signature.params = .ok (args, e)) :
    d.stack.take frame.mark.height = e.stack ∧ d.stack.drop frame.mark.height = args := by
  obtain ⟨args', taking', _, split, rest⟩ := agrees.take opening.accepted
  cases taking'.symm.trans taking
  have size : (d.without signature.params.length).stack.length = frame.mark.height := by
    rw [rest.length, opening.height]
  rw [split]
  exact ⟨List.take_left' size, List.drop_left' size⟩

variable (described : Described p ⟨context, true⟩ states) (story : Story context bytes p.code states f)
include described story

omit story in
theorem Shows.below_openSince {l : Layer} (shows : Shows p.code states f k s d x)
    (layers : (states (k + 1)).layers = l :: (states k).layers)
    (kept : s.stack.operands.toList.take l.frame.mark.height =
      (states k).stack.operands.toList.take l.frame.mark.height) :
    List.Forall₂ (Matches (finished p.code states) f s.builder.values.size x)
      (d.stack.take l.frame.mark.height)
      ((states (k + 1)).stack.operands.toList.take l.frame.mark.height) := by
  have opened : Course.OpenSince states (k + 1) (states k).layers.length (k + 1) :=
    .here (by rw [layers, List.length_cons])
  obtain ⟨_, layers', _, tops, _⟩ := described.course.started opened shows.within
  obtain ⟨rfl, _⟩ := List.cons.inj (layers.symm.trans layers')
  rw [tops.take, Nat.add_sub_cancel, ← kept]
  exact List.forall₂_take _ shows.stack

theorem openBlock_answers (live : Live p states c) (meets : Meets p.code states f c x)
    (keeps : KeepsLocals p.code c.pc)
    (moves : Moves ((states c.pc).fetched cursor) (.block signature) (states (c.pc + 1)))
    (ok : openBlock signature ((states c.pc).fetched cursor) = .ok () (states (c.pc + 1))) :
    Answers p states f x (do return .running (← Program.enter c signature .behind).next) := by
  obtain ⟨frame, opening, construct⟩ := openBlock_opening ok
  obtain ⟨l, e, _, _, entered, same, _, later, label, rfl, _⟩ :=
    live.enter described moves opening (.refl c) live.agrees .behind (by simp [TargetFits, construct])
  obtain ⟨join, u, made, ok⟩ := bind_ok.mp ok
  have asks : Asks (LinksFrom fun _ => False) (newTarget .join signature.results) := asks_newTarget _ _
  have step := (asks.requests _).lasts made meets.lasts.aliased
  have bodies := (asks.requests _).bodyOf made x.block
  obtain ⟨b, _, rfl⟩ := newTarget_ok.mp made
  obtain ⟨mark, v, opened, ok⟩ := bind_ok.mp ok
  obtain ⟨_, entering, rfl⟩ := onStack_ok.mp opened
  obtain ⟨accepted, _, rfl⟩ := TypedStack.enter_ok.mp entering
  have last := pushFrame_ok.mp ok
  have builder : (states (c.pc + 1)).builder = b := by rw [← last]
  have shows := (meets.fetched cursor).rebuild step
    (builder ▸ story.lasts meets.within (Nat.le_refl _)) bodies
  have stack : (states (c.pc + 1)).stack.operands.toList = (states c.pc).stack.operands.toList := by
    rw [← last]
    exact live.agrees.solid.entered accepted
  rw [entered]
  refine ⟨x, .within (.refl x), shows.goOn story keeps later.inside builder ?_ rfl rfl rfl ?_ later.agrees⟩
  · rw [← last]
  · rw [stack]
    exact shows.stack

theorem openLoop_answers (live : Live p states c) (meets : Meets p.code states f c x)
    (keeps : KeepsLocals p.code c.pc)
    (moves : Moves ((states c.pc).fetched cursor) (.loop signature) (states (c.pc + 1)))
    (ok : openLoop signature ((states c.pc).fetched cursor) = .ok () (states (c.pc + 1))) :
    Answers p states f x (do
      return .running (← Program.enter c signature (.again (c.pc + 1))).next) := by
  have framed := (live.mid.framed described).fetched cursor
  obtain ⟨frame, opening, construct⟩ := openLoop_opening framed ok
  obtain ⟨l, e, layers, top, entered, same, _, later, label, rfl, _⟩ :=
    live.enter described moves opening (.refl c) live.agrees (.again (c.pc + 1)) ⟨construct, rfl⟩
  obtain ⟨header, u, made, ok⟩ := bind_ok.mp ok
  have asks : Asks (LinksFrom fun _ => False) (newTarget .loopHeader signature.params) := asks_newTarget _ _
  have step := (asks.requests _).lasts made meets.lasts.aliased
  have bodies := (asks.requests _).bodyOf made x.block
  obtain ⟨b, _, rfl⟩ := newTarget_ok.mp made
  have behind : Trails (fun _ => False) (do
      let mark ← onStack (TypedStack.enter signature.params)
      moveTo header
      let args ← onBuilder (Ssa.Builder.args header)
      onStack (TypedStack.reset (TypedStack.withValues signature.params (args.map some)))
      pushFrame signature mark header .loop) :=
    trails_bind (asks_onStack _) fun _ => trails_land (lands_moveTo _).trails fun _ => Asks.lands <|
      along_bind (asks_neutral (args_neutral header)) fun _ => along_bind (asks_onStack _) fun _ =>
        asks_pushFrame _ _ _ _
  have trails := trails_bind (asks_shareValues signature.params) fun ids =>
    trails_bind (asks_branchTo header ids) fun _ => behind
  have onward := story.lasts meets.within (Nat.le_refl _)
  have shows := (meets.fetched cursor).rebuild step
    (((trails _).lasts ok step.aliased).trans onward) bodies
  obtain ⟨ids, v, shared, ok⟩ := bind_ok.mp ok
  obtain ⟨args, taking, rfl, inner, bears, length⟩ := shows.share shared
  obtain ⟨supplies, leaving, b', ok, _⟩ := inner.branchTo story behind ok keeps
  obtain ⟨_, _, _, ok⟩ := bind_ok.mp ok
  obtain ⟨_, _, _, ok⟩ := bind_ok.mp ok
  obtain ⟨_, _, _, ok⟩ := bind_ok.mp ok
  obtain ⟨_, _, _, pushed⟩ := bind_ok.mp ok
  have target : l.frame.target = header := top ▸ (pushFrame_top pushed opening.frames).1
  have isLoop : l.frame.construct = .loop := top ▸ construct
  have params : l.frame.labelTypes = signature.params := by
    rw [Frame.labelTypes, if_pos isLoop, top, opening.typed]
  have passes : EdgeCarries (finished p.code states) x.block l.frame.target ids := by
    refine edgeCarries_to_frame story (k := c.pc + 1) (e := 0) (Nat.le_of_lt later.inside) ?_ (target ▸ supplies)
      (params ▸ length)
    rw [State.frame?_eq, ← State.map_frame_layers, layers]
    rfl
  have opened : Course.OpenSince states (c.pc + 1) (states c.pc).layers.length (c.pc + 1) :=
    .here (by rw [layers, List.length_cons])
  have landing := later.mid.lands_back (e := 0) described story layers opened isLoop
    (passes.reachable meets.reachable)
  have below := meets.below_openSince described layers rfl
  have split := List.take_append_drop l.frame.mark.height c.stack
  rw [top, (Opening.split opening live.agrees taking).2, ← top] at split
  rw [entered]
  refine leaving.run story later landing passes (reads_of_matches below) (reads_of_bears bears) ?_ split.symm rfl rfl
  rw [top, opening.typed, ← (take_ok taking).2.2.1, List.length_map]

/-- The branch of an `if` that is not taken starts at its `else`, or else behind it. -/
theorem Leaving.skip {l : Layer} {outer : List Layer} (leaving : Leaving p.code states d x)
    (live : Live p states d) (pc : d.pc = k + 1) (layers : (states d.pc).layers = l :: outer)
    (isIf : l.frame.construct = .ifThen x.block ids) (plain : l.region = none) (inner : outer ≠ [])
    (size : (states k).layers.length = outer.length)
    (typed : (d.stack.drop d.floor).map Typed.type = l.frame.signature.params)
    (below : List.Forall₂ (Matches (finished p.code states) f n x) (d.stack.take l.frame.mark.height)
      ((states d.pc).stack.operands.toList.take l.frame.mark.height))
    (above : List.Forall₂ (Bears (finished p.code states) f n x) (d.stack.drop l.frame.mark.height) ids) :
    Answers p states f x
      (if p.instructionAt (p.alternative k) = some .elseThen then
        .ok (.running { d with pc := p.alternative k + 1 })
      else Program.leave d (p.alternative k + 1)) := by
  have sound := live.skip described pc layers isIf plain inner size typed
  have inside := Nat.le_of_lt live.inside
  obtain ⟨a, from_, insideA, open_, divides, first, ⟨m, around, layersA, whole⟩, ends⟩ :=
    described.course.alternative inside layers isIf plain inner
  rw [described.alternative_eq (by omega) size (pc ▸ from_) (Nat.le_of_lt insideA) divides
    (pc ▸ first)] at sound ⊢
  obtain ⟨cursor, taken⟩ := described.course.taken insideA
  have executed := taken.executed
  have framed := (described.course.framed insideA).fetched cursor
  have instruction : p.code[a]?.map Located.instruction = some p.code[a].instruction := by
    rw [List.getElem?_eq_getElem insideA, Option.map_some]
  have found : ((states a).fetched cursor).frame? 0 = some l.frame := by
    rw [State.frame?_eq, ← whole]
    change (states a).frames[0]? = _
    rw [← State.map_frame_layers, layersA]
    rfl
  have floor : d.floor = l.frame.mark.height := by
    rw [live.mid.floor, (live.mid.framed described).floor l outer layers]
  have params : ids.length = l.frame.signature.params.length := by
    rw [← above.length_eq, ← typed, floor, List.length_map]
  rcases ends with ⟨isElse, _, _, tops, operands, types⟩ | ⟨isClose, after, same⟩
  · rw [if_pos (show p.instructionAt a = some .elseThen from isElse)] at sound ⊢
    rw [Option.some.inj (instruction.symm.trans isElse)] at executed
    obtain ⟨b, front, made, blocks, length, stack⟩ :=
      openElse_turns found isIf (story.aliased (Nat.le_of_lt insideA)) framed.above executed
    have floorA : ((states a).fetched cursor).stack.floor = l.frame.mark.height := by
      rw [framed.floor m around layersA, whole]
    have count : ((states d.pc).stack.operands.toList.take l.frame.mark.height).length = front.length := by
      rw [← below.length_eq, List.length_take, length, floorA]
      exact Nat.min_eq_left (floor ▸ live.mid.above)
    have split := List.append_inj (operands.symm.trans stack) count
    have values : List.Forall₂ (Matches (finished p.code states) f n x) d.stack
        (states (a + 1)).stack.operands.toList := by
      have all : List.Forall₂ _ (_ ++ _) (_ ++ _) :=
        List.rel_append below ((forall₂_operandsOf params).mpr above)
      rwa [List.take_append_drop, ← split.2, ← operands] at all
    exact leaving.follows story made rfl blocks values rfl rfl rfl sound
  · have other : p.instructionAt a ≠ some .elseThen := by
      rw [Program.instructionAt, isClose]
      simp
    rw [Option.some.inj (instruction.symm.trans isClose)] at executed
    have supplies := close_skips found isIf (story.aliased (Nat.le_of_lt insideA)) executed
    have notLoop : l.frame.construct ≠ .loop := by simp [isIf]
    have results : ids.length = l.frame.labelTypes.length := by
      rw [Frame.labelTypes, if_neg notLoop, ← same, params]
    have passes := edgeCarries_to_frame story (k := d.pc) (e := 0) inside
      (by rw [State.frame?_eq, ← State.map_frame_layers, layers]; rfl)
      (supplies.later (story.lasts insideA (Nat.le_refl _))) results
    rw [if_neg other, ← described.behind_eq from_ insideA after open_]
    exact leaving.leave story described live.mid layers notLoop passes (reads_of_matches below)
      (floor ▸ reads_of_bears above) (typed.trans same)

theorem openIf_answers (live : Live p states c) (meets : Meets p.code states f c x)
    (keeps : KeepsLocals p.code c.pc)
    (moves : Moves ((states c.pc).fetched cursor) (.ifThen signature) (states (c.pc + 1)))
    (ok : openIf signature ((states c.pc).fetched cursor) = .ok () (states (c.pc + 1))) :
    Answers p states f x (do
      let c ← p.condition c Opcode.ifThenByte 0
      if decision = 0 then p.skip c signature
      else return .running (← Program.enter c signature .behind).next) := by
  have framed := (live.mid.framed described).fetched cursor
  obtain ⟨_, _, frame, _, _, taken, opening, construct⟩ := openIf_opening framed ok
  obtain ⟨value, u, taken', ok⟩ := bind_ok.mp ok
  cases taken'.symm.trans taken
  obtain ⟨a, stated, rfl, before, condition⟩ :=
    (meets.fetched cursor).condition (p := p) taken Opcode.ifThenByte 0
  obtain ⟨ids, v, shared, ok⟩ := bind_ok.mp ok
  obtain ⟨args, taking, rfl, inner, bears, length⟩ := before.share shared
  obtain ⟨_, w, emitted, ok⟩ := bind_ok.mp ok
  have stays := emitStatement_stack emitted
  have falls : Trails (fun _ => False) fallThrough := trails_fallThrough
  have trails : Trails (fun _ => False) (do
      let mark ← onStack (TypedStack.enter signature.params)
      let join ← newTarget .join signature.results
      let source := (← get).current
      fallThrough
      pushFrame signature mark join (.ifThen source ids)) :=
    trails_bind (asks_onStack _) fun _ => trails_bind (asks_newTarget _ _) fun _ =>
      trails_bind (asks_of_leaves along_get) fun _ => trails_land falls fun _ => (asks_pushFrame _ _ _ _).lands
  obtain ⟨y, performs, shows, kept⟩ := inner.statement story p (.cons condition .nil) emitted
    fun aliased => ((trails _).lasts ok aliased).trans (story.lasts meets.within (Nat.le_refl _))
  have whole := ok
  obtain ⟨mark, _, opened, ok⟩ := bind_ok.mp ok
  obtain ⟨_, entering, rfl⟩ := onStack_ok.mp opened
  obtain ⟨accepted, _, rfl⟩ := TypedStack.enter_ok.mp entering
  obtain ⟨join, _, made, ok⟩ := bind_ok.mp ok
  have asks : Asks (LinksFrom fun _ => False) (newTarget .join signature.results) := asks_newTarget _ _
  have step := (asks.requests _).lasts made shows.lasts.aliased
  obtain ⟨b', _, rfl⟩ := newTarget_ok.mp made
  obtain ⟨_, _, got, ok⟩ := bind_ok.mp ok
  obtain ⟨rfl, rfl⟩ := get_ok.mp got
  obtain ⟨_, _, fell, pushed⟩ := bind_ok.mp ok
  obtain ⟨block, b'', followed, rfl⟩ := followBlock_ok.mp (fallThrough_ok.mp fell)
  have here : w.current = y.block := shows.current.trans shows.block.symm
  have last := pushFrame_ok.mp pushed
  have follows : follower y.block b' = .ok (states (c.pc + 1)).current (states (c.pc + 1)).builder := by
    rw [← last, ← here]
    exact followed
  have stack : (states (c.pc + 1)).stack.operands.toList = w.stack.operands.toList := by
    rw [← last]
    exact shows.agrees.solid.entered accepted
  have leaving := shows.leaving story trails whole (Ssa.Builder.follower_hasSupplied follows step.aliased).used keeps
  obtain ⟨l, e, layers, top, entered, same, typed, later, label, shape, _⟩ :=
    live.enter (d := p.state (c.without 1) Opcode.ifThenByte [a.datum] 0) described moves opening ⟨rfl, rfl, rfl⟩
      (before.agrees.history _) .behind (by simp [TargetFits, construct])
  rw [stated]
  change Answers p states f x (if decision = 0 then _ else _)
  refine Answers.after ?_ (.single performs)
  split
  case isFalse =>
    -- the condition holds: the body is entered
    subst shape
    rw [entered]
    exact leaving.follows story follows rfl (shows.lasts.trans step).blocks (stack ▸ shows.stack) rfl rfl rfl later
  case isTrue =>
    -- the condition is zero: the machine goes on at the alternative
    have isIf : l.frame.construct = .ifThen y.block ids := by
      rw [top, (pushFrame_top pushed opening.frames).2, ← here]
    have away : Leaving p.code states e.next y := by
      subst shape
      exact leaving.beside rfl rfl
    have pc : e.next.pc = c.pc + 1 := by rw [Config.next, same]
    have nested := layers ▸ (described.course.framed (pc ▸ later.inside)).nested
    have plain : l.region = none :=
      nested.plain_iff.mp fun isRegion => by cases isIf.symm.trans isRegion
    have inner := (live.mid.framed described).nested.ne_nil
    have low : w.stack.operands.toList.take l.frame.mark.height =
        (states c.pc).stack.operands.toList.take l.frame.mark.height := by
      rw [stays, TypedStack.toList_extend, top, List.take_left' (by
        rw [opening.height, TypedStack.height_eq])]
      exact opening.below
    have below := shows.below_openSince described layers low
    have above := (Opening.split opening before.agrees taking).2
    have stack : e.next.stack = (c.without 1).stack := by rw [shape]; rfl
    rw [← top, ← stack] at above
    have skipped := away.skip described story later pc (pc ▸ layers) isIf plain inner rfl
      (by rw [top, opening.typed]; exact typed) (by rw [pc, stack]; exact below) (above ▸ bears.imp kept)
    rw [Config.next, leave_at] at skipped
    rw [Program.skip, entered]
    change Answers p states f y (if p.instructionAt (p.alternative e.pc) = _ then _ else
      Program.leave e (p.alternative e.pc + 1))
    rw [same]
    exact skipped

theorem Shows.leave {l : Layer} {outer : List Layer} {sources : BlockId → Prop} {m : Step Unit}
    (live : Live p states c) (meets : Meets p.code states f c x)
    (layers : (states c.pc).layers = l :: outer) (notLoop : l.frame.construct ≠ .loop)
    (taken : Validation.takeAll l.frame.signature.results ((states c.pc).fetched cursor) = .ok ids u)
    (trails : Trails sources m) (ok : m u = .ok () (states (c.pc + 1)))
    (supplies : (states (c.pc + 1)).builder.HasSupplied u.current l.frame.target ids)
    (keeps : KeepsLocals p.code c.pc) :
    Answers p states f x (Program.leave c (p.behind c.pc outer.length)) := by
  obtain ⟨rfl, later, typed, _, bears⟩ := (meets.fetched cursor).takeAll taken
  have here : (states c.pc).current = x.block := meets.block.symm
  have supplies : (states (c.pc + 1)).builder.HasSupplied x.block l.frame.target ids := here ▸ supplies
  have leaving := later.leaving story trails ok supplies.used keeps
  have size : ids.length = l.frame.labelTypes.length := by
    rw [Frame.labelTypes, if_neg notLoop, ← bears.length_eq, ← typed, List.length_map]
  have passes := edgeCarries_to_frame story (k := c.pc) (e := 0) (Nat.le_of_lt live.inside)
    (by rw [State.frame?_eq, ← State.map_frame_layers, layers]; rfl)
    (supplies.later (story.lasts live.inside (Nat.le_refl _))) size
  have reach := live.mid.height_le (e := 0) described layers
  have away : Leaving p.code states c x := leaving.beside rfl rfl
  exact away.leave story described live.mid layers notLoop passes
    (meets.below (live.mid.floor ▸ reach)) (reads_of_bears bears) typed

theorem openElse_answers (live : Live p states c) (meets : Meets p.code states f c x)
    (keeps : KeepsLocals p.code c.pc)
    (ok : openElse ((states c.pc).fetched cursor) = .ok () (states (c.pc + 1))) :
    Answers p states f x (Program.leave c (p.behind c.pc (c.labels.length - 1))) := by
  obtain ⟨frame, _, looked, ok⟩ := bind_ok.mp ok
  obtain ⟨found, rfl⟩ := innermost_ok.mp looked
  obtain ⟨l, outer, layers, rfl⟩ := layer_of_frame found
  change (states c.pc).layers = _ at layers
  have size : c.labels.length - 1 = outer.length := by
    rw [live.labelled.length, layers, List.length_cons]
    rfl
  cases isIf : l.frame.construct with
  | ifThen condition params =>
      simp only [isIf] at ok
      obtain ⟨ids, u, taken, ok⟩ := bind_ok.mp ok
      have behind : Trails (· = condition) (do
          modify fun s => { s with control := s.control.pop.push { l.frame with construct := .ifElse } }
          followBlock condition
          onStack (TypedStack.reset
            (TypedStack.withValues l.frame.signature.params (params.map some)))) :=
        trails_bind (asks_modify fun _ => rfl) fun _ => trails_land trails_followBlock fun _ =>
          (asks_onStack _).lands
      have aliased : u.builder.Aliased := by
        have all : Asks FillsCurrent (takeAll l.frame.signature.results) := asks_takeAll _
        exact ((all.requests _).lasts taken meets.lasts.aliased).aliased
      rw [size]
      exact Shows.leave described story live meets layers (by simp [isIf]) taken
        (trails_bind (asks_branchTo _ _) fun _ => behind) ok (branchTo_hasSupplied behind aliased ok) keeps
  | _ => simp [isIf] at ok

/-- The end of a loop is no place of its own in the function. -/
theorem closeLoop_answers {l : Layer} {outer : List Layer} (live : Live p states c)
    (meets : Meets p.code states f c x) (layers : (states c.pc).layers = l :: outer)
    (isLoop : l.frame.construct = .loop)
    (taken : Validation.takeAll l.frame.signature.results ((states c.pc).fetched cursor) = .ok ids u)
    (ok : closeLoop l.frame ids u = .ok () (states (c.pc + 1)))
    (keeps : KeepsLocals p.code c.pc)
    (sound : LiveOrEnded p states (Program.leave c (c.pc + 1))) :
    Answers p states f x (Program.leave c (c.pc + 1)) := by
  obtain ⟨rfl, later, typed, front, bears⟩ := (meets.fetched cursor).takeAll taken
  obtain ⟨_, v, complete, ok⟩ := bind_ok.mp ok
  have asks : Asks (LinksFrom fun _ => False) (onBuilder (Ssa.Builder.sealBlock l.frame.target)) :=
    asks_neutral (sealBlock_neutral _)
  have step := (asks.requests _).lasts complete later.lasts.aliased
  have bodies := (asks.requests _).bodyOf complete x.block
  obtain ⟨b, _, rfl⟩ := onBuilder_ok.mp complete
  obtain ⟨_, _, unwound, ok⟩ := bind_ok.mp ok
  obtain ⟨_, leaving, rfl⟩ := onStack_ok.mp unwound
  obtain rfl := TypedStack.leave_ok.mp leaving
  obtain ⟨_, _, put, popped⟩ := bind_ok.mp ok
  obtain rfl := putValues_ok.mp put
  have last := popFrame_ok.mp popped
  have builder : (states (c.pc + 1)).builder = b := by rw [← last]
  have shows := later.rebuild step (builder ▸ story.lasts meets.within (Nat.le_refl _)) bodies
  have length : ids.length = l.frame.signature.results.length := by
    rw [← bears.length_eq, ← typed, List.length_map]
  have floor := live.mid.floor_eq layers
  have kept : (c.without l.frame.signature.results.length).stack.length = l.frame.mark.height := by
    rw [front, List.length_take, ← floor]
    exact Nat.min_eq_left live.mid.above
  have height := later.stack.length_eq
  rw [kept, ← TypedStack.height_eq] at height
  have stack : (states (c.pc + 1)).stack.operands.toList =
      ((states c.pc).stack.without l.frame.signature.results).operands.toList ++
        operandsOf l.frame.signature.results ids := by
    rw [← last, TypedStack.toList_extend]
    refine congrArg (· ++ _) ((TypedStack.toList_resize (Nat.le_of_eq height)).trans ?_)
    exact List.take_of_length_le (Nat.le_of_eq (TypedStack.height_eq _ ▸ height.symm))
  have values : List.Forall₂ (Matches (finished p.code states) f b.values.size x) c.stack
      (states (c.pc + 1)).stack.operands.toList := by
    rw [stack, ← List.take_append_drop c.floor c.stack, ← front]
    exact List.rel_append shows.stack
      ((forall₂_operandsOf length).mpr (bears.imp fun _ _ bears => bears.mono step.size))
  have inner : outer ≠ [] := by
    have nested := layers ▸ (live.mid.framed described).nested
    rintro rfl
    cases nested with
    | function isFunction => simp [isFunction] at isLoop
  rw [live.mid.leave_eq layers typed, if_neg inner] at sound ⊢
  have current : (states (c.pc + 1)).current = (states c.pc).current := by
    rw [← last]
    rfl
  exact ⟨x, .within (.refl x), shows.goOn story keeps sound.inside builder current rfl rfl rfl values sound.agrees⟩

/-- The end of a funclet leads to the next one, or out of the region. -/
theorem closeFunclet_answers {l : Layer} {outer : List Layer} {r : OpenRegion} (live : Live p states c)
    (meets : Meets p.code states f c x) (layers : (states c.pc).layers = l :: outer)
    (region : l.region = some r)
    (moves : Moves ((states c.pc).fetched cursor) .close (states (c.pc + 1)))
    (ok : closeFunclet ⟨context, true⟩ l.frame ((states c.pc).fetched cursor) = .ok () (states (c.pc + 1)))
    (keeps : KeepsLocals p.code c.pc) :
    Answers p states f x (p.close c) := by
  have framed := (live.mid.framed described).fetched cursor
  have nested := layers ▸ (live.mid.framed described).nested
  have isRegion := nested.region_iff.mpr (by rw [region]; rfl)
  have nest : (states c.pc).nests =
      .region r.graph.current r.graph.size :: outer.map Layer.nest := by
    rw [State.nests, layers, List.map_cons, Layer.nest, region]
  obtain ⟨q, _, opened, ok⟩ := bind_ok.mp ok
  obtain ⟨head, rfl⟩ := openRegion_ok.mp opened
  obtain rfl : r = q := by
    have regions := (live.mid.framed described).region_cons layers
    rw [region] at regions
    change (states c.pc).regions.head? = _ at head
    rw [regions] at head
    exact Option.some.inj head
  rw [Program.close, described.nestAt (Nat.le_of_lt live.inside), nest]
  dsimp only
  by_cases more : r.graph.current + 1 < r.graph.size
  · simp only [more, if_true] at ok ⊢
    have whole := ok
    obtain ⟨args, polymorphic, operands, unreachable, later⟩ := gathered_ok
      (f := fun args polymorphic => do
        transferTo (r.graph.current + 1) args polymorphic
        nextFunclet ⟨context, true⟩) ok
    obtain ⟨_, v, transferred, ended⟩ := bind_ok.mp later
    have quiet := (transferTo_staysInFrame _ _ _).quiet framed transferred
    have outside := framed.quiet quiet
    have frames : v.frames = l.frame :: outer.map Layer.frame := by
      rw [quiet.frames]
      exact Framed.frames_cons (s := (states c.pc).fetched cursor) layers
    obtain ⟨q, rest, regions, _⟩ := outside.region_on_top frames isRegion
    have shift := (nextFunclet_moves (i := .close) outside (.refl outside.above) frames isRegion
      regions ended).1
    have lands : Lands (nextFunclet ⟨context, true⟩) := lands_nextFunclet _
    have trails : Trails (fun _ => False) (do
        transferTo (r.graph.current + 1) (← regionOperands) (← operandsUnreachable)
        nextFunclet ⟨context, true⟩) :=
      trails_bind asks_regionOperands fun _ => trails_bind asks_operandsUnreachable fun _ =>
        trails_bind (asks_transferTo _ _ _) fun _ => lands.trails
    have asks : Asks (LinksFrom fun _ => False) (transferTo (r.graph.current + 1) args polymorphic) :=
      asks_transferTo _ _ _
    have step := (asks.requests _).lasts transferred meets.lasts.aliased
    exact ((meets.fetched cursor).transfer story described live.mid (.refl framed.above) operands unreachable
      (.refl framed.above) rfl (.refl meets.lasts.aliased) transferred (.refl outside.above) shift
      ((lands v).lasts ended step.aliased) trails whole keeps).2
  · simp only [more, if_false] at ok ⊢
    obtain ⟨ids, u, taken, ok⟩ := bind_ok.mp ok
    have all : Asks FillsCurrent (takeAll l.frame.signature.results) := asks_takeAll _
    have aliased := ((all.requests _).lasts taken meets.lasts.aliased).aliased
    have behind : Trails (fun _ => False) closeRegion := lands_closeRegion.trails
    have supplies := branchTo_hasSupplied behind aliased ok
    rw [nested.exit_eq region] at supplies
    have low := congrArg List.length moves.nests
    change _ = (Nest.advance (states c.pc).nests _).length at low
    rw [nest, Nest.advance, Nest.nextFunclet, if_neg more, State.nests, List.length_map,
      List.length_map] at low
    have left := Shows.leave described story live meets layers (by simp [isRegion]) taken
      (trails_bind (asks_branchTo _ _) fun _ => behind) ok supplies keeps
    rwa [described.behind_end live.inside layers low] at left

theorem close_answers (live : Live p states c) (meets : Meets p.code states f c x)
    (moves : Moves ((states c.pc).fetched cursor) .close (states (c.pc + 1)))
    (ok : close ⟨context, true⟩ ((states c.pc).fetched cursor) = .ok () (states (c.pc + 1)))
    (keeps : KeepsLocals p.code c.pc) :
    Answers p states f x (p.close c) := by
  have sound := close_sound described live moves ok
  obtain ⟨frame, _, looked, ok⟩ := bind_ok.mp ok
  obtain ⟨found, rfl⟩ := innermost_ok.mp looked
  obtain ⟨l, outer, layers, rfl⟩ := layer_of_frame found
  change (states c.pc).layers = _ at layers
  have nested := layers ▸ (live.mid.framed described).nested
  cases region : l.region with
  | some r =>
      have isRegion : l.frame.construct = .region := nested.region_iff.mpr (by rw [region]; rfl)
      simp only [isRegion] at ok
      exact closeFunclet_answers described story live meets layers region moves ok keeps
  | none =>
      have nest : (states c.pc).nests = .plain :: outer.map Layer.nest := by
        rw [State.nests, layers, List.map_cons, Layer.nest, region]
      have low := congrArg List.length moves.nests
      change _ = (Nest.advance (states c.pc).nests _).length at low
      rw [nest, Nest.advance, State.nests, List.length_map, List.length_map] at low
      rw [Program.close, described.nestAt (Nat.le_of_lt live.inside), nest] at sound ⊢
      dsimp only at sound ⊢
      have all : Asks FillsCurrent (takeAll l.frame.signature.results) := asks_takeAll _
      have aliased {ids : List ValueId} {u : State}
          (taken : takeAll l.frame.signature.results ((states c.pc).fetched cursor) = .ok ids u) :
          u.builder.Aliased := ((all.requests _).lasts taken meets.lasts.aliased).aliased
      have leave {ids : List ValueId} {u : State} {sources : BlockId → Prop} {m : Step Unit}
          (notLoop : l.frame.construct ≠ .loop)
          (taken : takeAll l.frame.signature.results ((states c.pc).fetched cursor) = .ok ids u)
          (trails : Trails sources m) (ok : m u = .ok () (states (c.pc + 1)))
          (supplies : (states (c.pc + 1)).builder.HasSupplied u.current l.frame.target ids) :
          Answers p states f x (Program.leave c (c.pc + 1)) := by
        have left := Shows.leave described story live meets layers notLoop taken trails ok supplies keeps
        rwa [described.behind_end live.inside layers low] at left
      cases construct : l.frame.construct with
      | region =>
          rw [nested.region_iff, region] at construct
          cases construct
      | loop =>
          simp only [construct] at ok
          obtain ⟨ids, u, taken, ok⟩ := bind_ok.mp ok
          exact closeLoop_answers described story live meets layers construct taken ok keeps sound
      | function =>
          simp only [construct] at ok
          obtain ⟨ids, u, taken, ok⟩ := bind_ok.mp ok
          have behind : Trails (fun _ => False) (do
              onBuilder (Ssa.Builder.sealBlock l.frame.target)
              popFrame) :=
            trails_bind (asks_neutral (sealBlock_neutral _)) fun _ => (asks_modify fun _ => rfl).trails
          exact leave (by simp [construct]) taken (trails_bind (asks_branchTo _ _) fun _ => behind) ok
            (branchTo_hasSupplied behind (aliased taken) ok)
      | ifThen condition params =>
          simp only [construct] at ok
          obtain ⟨ids, u, taken, ok⟩ := bind_ok.mp ok
          have whole := ok
          obtain ⟨_, v, skipped, ok⟩ := bind_ok.mp ok
          have asks := skipBranch_asks l.frame condition params
          have lasts := (asks.requests u).lasts skipped (aliased taken)
          have supplies := closeJoin_hasSupplied lasts.aliased ok
          rw [asks.current skipped] at supplies
          exact leave (by simp [construct]) taken (trails_bind asks fun _ => closeJoin_trails _ _) whole supplies
      | block | ifElse =>
          simp only [construct] at ok
          obtain ⟨ids, u, taken, ok⟩ := bind_ok.mp ok
          have trails : Trails (fun _ => False) (closeJoin l.frame ids) := closeJoin_trails _ _
          exact leave (by simp [construct]) taken trails ok (closeJoin_hasSupplied (aliased taken) ok)

theorem funcletRegion_answers {funclets : Nat} (live : Live p states c) (meets : Meets p.code states f c x)
    (moves : Moves ((states c.pc).fetched cursor) (.funcletRegion signature funclets) (states (c.pc + 1)))
    (ok : funcletRegion ⟨context, true⟩ signature funclets ((states c.pc).fetched cursor) =
      .ok () (states (c.pc + 1)))
    (keeps : KeepsLocals p.code c.pc) :
    Answers p states f x (do
      p.transfer 0 (← Program.enter c signature
        (.funclets (c.pc + 1) (states c.pc).cursor.offset)).next) := by
  have framed := (live.mid.framed described).fetched cursor
  obtain ⟨l, r, label, e, layers, region, rfl, entered, later, known, typed, within⟩ :=
    live.enterRegion described moves ok
  obtain ⟨frame, opening, _⟩ := funcletRegion_opening framed ok
  rw [funcletRegion, get_bind_ok, get_bind_ok] at ok
  cases opened : FuncletCalls.ofSize? funclets with
  | none => simp [opened] at ok
  | some graph =>
      simp only [opened] at ok
      obtain ⟨blocks, u, added, ok⟩ := bind_ok.mp ok
      have first : Asks (LinksFrom fun _ => False)
          (onBuilder ((List.replicate funclets Ssa.BlockKind.funclet).mapM Ssa.Builder.addBlock)) :=
        asks_neutral (along_mapM fun _ _ => addBlock_neutral _)
      have second : Asks (LinksFrom fun _ => False) (newTarget .join signature.results) := asks_newTarget _ _
      obtain ⟨exit, v, made, ok⟩ := bind_ok.mp ok
      have step := (first.requests _).lasts added meets.lasts.aliased
      have step := step.trans ((second.requests _).lasts made step.aliased)
      have bodies := ((second.requests _).bodyOf made x.block).trans ((first.requests _).bodyOf added x.block)
      have behind (region : Mark → OpenRegion) :
          Trails (fun _ => False) (startRegion ⟨context, true⟩ signature exit region) :=
        trails_bind (asks_onStack _) fun _ => trails_bind (asks_pushFrame _ _ _ _) fun _ =>
          trails_bind (asks_modify fun _ => rfl) fun _ => (lands_startFunclet _ 0).trails
      change (do
        branchTo (blocks.headD 0) (← shareValues signature.params)
        startRegion ⟨context, true⟩ signature exit fun mark =>
          ⟨signature, ((states c.pc).fetched cursor).control.size, ((states c.pc).fetched cursor).start, graph,
            blocks.toArray, exit, mark.height⟩) v = _ at ok
      have trails := trails_bind (asks_shareValues signature.params) fun ids =>
        trails_bind (asks_branchTo (blocks.headD 0) ids) fun _ => behind fun mark =>
          ⟨signature, ((states c.pc).fetched cursor).control.size, ((states c.pc).fetched cursor).start, graph,
            blocks.toArray, exit, mark.height⟩
      have onward := ((trails _).lasts ok step.aliased).trans (story.lasts meets.within (Nat.le_refl _))
      obtain ⟨b, _, rfl⟩ := onBuilder_ok.mp added
      obtain ⟨b', _, rfl⟩ := newTarget_ok.mp made
      have shows := (meets.fetched cursor).rebuild step onward bodies
      obtain ⟨ids, w, shared, ok⟩ := bind_ok.mp ok
      obtain ⟨args, taking, rfl, inner, bears, length⟩ := shows.share shared
      obtain ⟨supplies, leaving, b'', ok, _⟩ := inner.branchTo story (behind _) ok keeps
      have above := (Opening.split opening live.agrees taking).2
      have place : r.blocks[0]? = some (blocks.headD 0) := by
        obtain ⟨mark, q, rest, block, same, here, listed⟩ := startRegion_ok (fun _ => opened) ok
        have inside : c.pc + 1 < p.code.length := later.inside
        have regions := (described.course.framed inside).region_cons layers
        rw [region, same] at regions
        obtain rfl : q = r := (List.cons.inj regions).1
        cases blocks with
        | nil => cases listed
        | cons first rest => rw [here]; rfl
      have away : Leaving p.code states
          (Config.next { c with labels := label :: c.labels }) x := leaving.beside rfl rfl
      have split : (states (c.pc + 1)).layers = [] ++ l :: (states c.pc).layers := layers
      rw [entered]
      refine away.transfer story described later.mid split (by simp) region known typed within place supplies
        (reads_of_matches (meets.below_openSince described layers rfl)) ?_
      have top : l.frame = frame := by
        have frames := opening.frames
        rw [← State.map_frame_layers, layers, List.map_cons] at frames
        exact (List.cons.inj frames).1
      exact top ▸ above ▸ reads_of_bears bears

end Machine

end WasmFunclets
