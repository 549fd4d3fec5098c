import WasmFunclets.Proofs.Aligned.Frames

/-! Funclets are entered, called and left, and regions are closed. -/

namespace WasmFunclets.Validation

open Attempt
open Ssa (Forest)

variable {context : Context} {strict : Bool} {f g : Forest} {written : BlockId → Nat → Prop}
variable {extra : List BlockId} {s t : State} {types : List ValueType} {args : List ValueId}
variable {c d e : BlockId} {r : OpenRegion} {outer : List OpenRegion} {index : Nat} {frame : Frame}
variable {setting : Setting}

structure Top (s : State) (frame : Frame) (r : OpenRegion) (outer : List OpenRegion) : Prop where
  split : ∃ frames, s.frames = frame :: frames
  regions : s.regions = r :: outer
  isRegion : frame.construct = .region
  target : frame.target = r.exit
  signature : r.signature = frame.signature
  floor : s.stack.floor = frame.mark.height
  order : frame.mark.floor ≤ frame.mark.height

theorem Framed.top (framed : Framed s) {frames : List Frame} (split : s.frames = frame :: frames)
    (isRegion : frame.construct = .region) :
    ∃ r outer, Top s frame r outer ∧ r.graph.Settled := by
  obtain ⟨r, outer, regions, layers⟩ := framed.region_on_top split isRegion
  have nested := framed.nested
  rw [layers] at nested
  obtain ⟨_, target, signature⟩ := nested.region rfl
  exact ⟨r, outer, ⟨⟨frames, split⟩, regions, isRegion, target, signature, framed.floor _ _ layers,
    framed.order split (by simp [isRegion])⟩, framed.settled r (regions ▸ List.mem_cons_self)⟩

theorem Top.congr {h : FuncletCalls} (top : Top s frame r outer) (control : t.control = s.control)
    (floor : t.stack.floor = s.stack.floor) (regions : t.regions = { r with graph := h } :: outer) :
    Top t frame { r with graph := h } outer where
  split := by
    rw [State.frames, control]
    exact top.split
  regions := regions
  isRegion := top.isRegion
  target := top.target
  signature := top.signature
  floor := floor.trans top.floor
  order := top.order

theorem Top.innermost (top : Top s frame r outer) : s.frame? 0 = some frame := by
  obtain ⟨frames, split⟩ := top.split
  rw [State.frame?_eq, split]
  rfl

/-- A funclet has got its parameters and is entered next. -/
structure EntersNext (context : Context) (strict : Bool) (f : Forest) (written : BlockId → Nat → Prop)
    (s : State) (r : OpenRegion) (outer : List OpenRegion) (index : Nat) (c : BlockId)
    (types : List ValueType) : Prop where
  aligned : Aligned context strict f written [] s
  regions : s.regions = r :: outer
  present : ∃ node, r.graph.nodes[index]? = some node ∧ node.params = some types
  place : r.blocks[index]? = some c
  unused : ¬ s.builder.Used c
  frames : ∀ frame ∈ s.frames, frame.target ≠ c
  others : ∀ q ∈ outer, ∀ d ∈ q.waiting, d ≠ c

theorem EntersNext.prepared (awaits : EntersNext context strict f written s r outer index c types) :
    Prepared strict f s.builder s.current r :=
  awaits.aligned.regions r (by rw [awaits.regions]; exact List.mem_cons_self)

theorem EntersNext.hasArguments (awaits : EntersNext context strict f written s r outer index c types) :
    s.builder.HasArguments c types ∧ (strict = true → ∀ type ∈ types, type.isValue = true) := by
  obtain ⟨node, present, known⟩ := awaits.present
  exact (awaits.prepared.nodes present awaits.place).takes types known

theorem EntersNext.wakes (awaits : EntersNext context strict f written s r outer index c types) :
    Wakes s c where
  inside := by
    obtain ⟨_, _, shown, _⟩ := awaits.hasArguments.1
    exact Ssa.Builder.lt_of_shape shown
  unused := awaits.unused
  frames := awaits.frames
  regions q member i node present place := by
    rw [awaits.regions] at member
    rcases List.mem_cons.mp member with rfl | inner
    · obtain ⟨_, present', known⟩ := awaits.present
      cases awaits.prepared.injective place awaits.place
      cases present.symm.trans present'
      rw [known]
      rfl
    · cases undeclared : node.params with
      | some _ => rfl
      | none =>
          have prepared := awaits.aligned.regions q (by
            rw [awaits.regions]
            exact List.mem_cons_of_mem _ inner)
          exact absurd rfl (awaits.others q inner _ (prepared.waits present place undeclared))

theorem EntersNext.start (awaits : EntersNext context strict f written s r outer index c types)
    (top : Top s frame r outer) :
    Ends (do
      moveTo c
      let args ← onBuilder (Ssa.Builder.args c)
      onStack (TypedStack.reset (TypedStack.withValues types (args.map some)))) s
      (fun _ t => Onward context strict f written s t) Refused := by
  have aligned := awaits.aligned
  obtain ⟨takes, known⟩ := awaits.hasArguments
  rw [ends_bind, moveTo, ends_modify, ends_bind]
  refine ends_onBuilder <| (Ssa.Builder.args_built aligned.built takes).mono ?_ fun _ _ => False.elim
  rintro args _ ⟨rfl, holds⟩
  refine ends_onStack (TypedStack.reset_refuses _) fun _ k ok => ?_
  obtain rfl := TypedStack.reset_ok.mp ok
  obtain ⟨frames, split⟩ := top.split
  obtain ⟨e, entered⟩ := aligned.frames frame (split ▸ List.mem_cons_self)
  obtain ⟨e', exit, made⟩ := awaits.prepared.made
  rw [← top.target, entered.made] at exit
  cases exit
  have behind := Forest.within_of_made (made c (Array.mem_of_getElem? awaits.place))
  have nested := aligned.nested
  rw [split] at nested
  refine ⟨⟨f, .refl f, aligned.goto awaits.wakes (fun outer member e' made' => ?_)
    (fun operand member => ?_) holds known⟩, fun _ => awaits.unused, .refl aligned.built.sound.formed⟩
  · rw [split] at member
    rcases List.mem_cons.mp member with rfl | inner
    · cases entered.made.symm.trans made'
      exact behind
    · exact behind.trans ((List.rel_of_pairwise_cons nested inner).2 e e' entered.made made')
  · exact (entered.below operand (top.floor ▸ member)).within behind

/-- The block of the funclet is sealed if all calls have been there already. -/
theorem EntersNext.settle (awaits : EntersNext context strict f written s r outer index c types)
    (top : Top s frame r outer) (settled : r.graph.SettledBut index) :
    Ends (do if ← onGraph (FuncletCalls.ready index) then completeFunclet index) s
      (fun _ t => s.builder.Grows t.builder ∧ ∃ h, Top t frame { r with graph := h } outer ∧
        EntersNext context strict f written t { r with graph := h } outer index c types) Refused := by
  obtain ⟨node, present, known⟩ := awaits.present
  have formed := awaits.aligned.built.sound.formed
  have regions := awaits.regions
  rw [ends_bind]
  refine ends_onGraph regions ?_
  rw [FuncletCalls.ready, ends_bind, FuncletCalls.nodeAt, ends_bind, ends_get, ends_inRange, present]
  refine ⟨fun node' same => ?_, fun absurd_ => by cases absurd_⟩
  cases same
  have same : { s with regions := { r with graph := r.graph } :: outer } = s := by rw [← regions]
  rw [ends_pure, same, ends_ite]
  refine ⟨fun ready => ?_, fun waits => ?_⟩
  · refine (completeFunclet_aligned awaits.aligned regions settled present ready awaits.place).imp ?_
    rintro _ t ⟨h, completes⟩
    have control : t.control = s.control := by rw [completes.same]
    have regions' : t.regions = { r with graph := h } :: outer := by rw [completes.same]
    refine ⟨completes.sealed.grows, h, top.congr control (by rw [completes.same]) regions',
      completes.aligned, regions', ⟨{ node with sealed := true }, ?_, known⟩, awaits.place,
      fun used => awaits.unused (completes.sealed.used.mp used), ?_, awaits.others⟩
    · exact (completes.nodes index).trans (by rw [present, Option.map_some, if_pos rfl])
    · rw [State.frames, control]
      exact awaits.frames
  · rw [ends_pure]
    exact ⟨.refl formed, r.graph, top, awaits⟩

/-- A funclet is entered with its block and parameters. -/
theorem startFunclet_aligned (aligned : Aligned context strict f written [] s)
    (top : Top s frame r outer) (enterable : Enterable r.graph index) :
    Ends (startFunclet setting index) s (fun _ t => Onward context strict f written s t) Refused := by
  have prepared := aligned.regions r (by rw [top.regions]; exact List.mem_cons_self)
  rw [startFunclet, ends_bind, ends_modify, ends_bind]
  refine ends_onGraph top.regions <| (enter_begins enterable).imp fun _ g begun => ?_
  rw [ends_bind]
  have calls (checked : strict = true) : ∀ edge ∈ g.edges, edge.polymorphic = false →
      ∀ type ∈ edge.args, type.isValue = true := by
    intro edge listed direct
    obtain ⟨old, before, args, polymorphic⟩ := FuncletCalls.edge_of_calls begun.calls listed
    rw [← args]
    exact (prepared.known checked).2 old before (polymorphic.trans direct)
  refine (funcletParams_aligned (r := { r with graph := g }) rfl begun calls).imp ?_
  rintro types _ ⟨h, cursor, decoded, rfl, settles, known⟩
  rw [ends_bind]
  refine ends_innermost top.innermost ?_
  rw [ends_bind]
  refine ends_demand fun first => ?_
  rw [ends_bind]
  refine ends_openRegion rfl ?_
  obtain ⟨node, present, _, undeclared⟩ := begun.fresh
  obtain ⟨old, before, _, params⟩ := begun.nodes index node present
  have inside : index < r.blocks.size := prepared.count ▸ enterable.inside
  have place : r.blocks[index]? = some r.blocks[index] := Array.getElem?_eq_getElem inside
  rw [ends_bind]
  refine ends_blockOf place ?_
  have entry (zero : index = 0) : types = r.signature.params :=
    (first.resolve_left fun other => other zero).trans (congrArg _ top.signature.symm)
  have waits := prepared.waits before place (params.symm.trans undeclared)
  obtain ⟨frames, _, others⟩ := aligned.waiting_nodup top.regions waits
  have sleeps := ((prepared.nodes before place).sleeps (params.symm.trans undeclared)).2
  rw [ends_bind]
  refine ends_onBuilder <| (declareArguments_aligned (aligned.reading cursor s.cursor.offset decoded)
    top.regions before (params.symm.trans undeclared) place settles entry known).imp ?_
  rintro _ b ⟨given, advances, declared⟩
  have below : index < h.nodes.size := Nat.lt_of_lt_of_eq enterable.inside settles.keeps.size_eq.symm
  obtain ⟨later, found⟩ : ∃ later, h.nodes[index]? = some later := ⟨_, Array.getElem?_eq_getElem below⟩
  obtain ⟨_, _, _, known'⟩ := settles.nodes index later found
  rw [if_pos rfl] at known'
  obtain ⟨_, shown, _⟩ := (prepared.nodes before place).shape
  have awaits : EntersNext context strict f written _ { r with graph := h } outer index r.blocks[index] types :=
    ⟨declared, rfl, ⟨later, found, known'⟩, place,
      (advances.sleeps (Ssa.Builder.lt_of_shape shown) id sleeps).1, frames, others⟩
  refine ends_when ?_
  refine (awaits.settle (top.congr (by rfl) (by rfl) (by rfl)) settles.settled).imp ?_
  rintro _ t ⟨grows, k, top', awaits'⟩
  exact (awaits'.start top').imp fun _ u onward => onward.after (.refl f) (given.grows.trans grows)

structure Blocks (context : Context) (strict : Bool) (f : Forest) (written : BlockId → Nat → Prop)
    (extra : List BlockId) (s : State) (ids : List BlockId) (b : Ssa.Builder) (g : Forest) : Prop where
  grown : s.builder.Grows b
  grows : f.Grows g
  aligned : Aligned context strict g written (ids ++ extra) { s with builder := b }
  fresh : ∀ c ∈ ids, b.shape c = some ⟨.funclet, false, #[], none⟩ ∧ g[c]? = some (some s.current) ∧
    b.Sleeps s.current c
  keeps : ∀ c < s.builder.blocks.size, b.shape c = s.builder.shape c
  used : ∀ c, b.Used c → s.builder.Used c

theorem Aligned.perm {extra' : List BlockId} (aligned : Aligned context strict f written extra s)
    (perm : extra.Perm extra') : Aligned context strict f written extra' s :=
  { aligned with opens := aligned.opens.perm (perm.append_right _) }

theorem addBlocks_aligned (funclets : Nat) (aligned : Aligned context strict f written extra s) :
    Ends ((List.replicate funclets Ssa.BlockKind.funclet).mapM Ssa.Builder.addBlock) s.builder
      (fun ids b => ids.length = funclets ∧
        ∃ g, Blocks context strict f written extra s ids b g) Ssa.Builder.Exhausted := by
  induction funclets generalizing f extra s with
  | zero =>
      rw [List.replicate_zero, List.mapM_nil, ends_pure]
      exact ⟨rfl, f, .refl aligned.built.sound.formed, .refl f, aligned,
        by simp, fun _ _ => rfl, fun _ => id⟩
  | succ funclets ih =>
      rw [List.replicate_succ, List.mapM_cons, ends_bind]
      refine (Ssa.Builder.block_built (x := some s.current) aligned.built (by simp) ?_).mono ?_
        fun _ _ => False.elim
      · rintro _ ⟨⟩
        exact aligned.inside
      rintro _ b ⟨rfl, built, added⟩
      have opens : b.UnsealedAre ((s.builder.blocks.size :: extra) ++ s.opens) :=
        aligned.opens.added added rfl
      obtain ⟨aligned', wakes⟩ := aligned.added built added (fun pred member => by simp at member) opens
      rw [ends_bind]
      refine (ih aligned').imp ?_
      rintro ids b' ⟨length, g, blocks⟩
      rw [ends_pure]
      have inside {c : BlockId} (old : c < s.builder.blocks.size) : c < b.blocks.size :=
        added.count ▸ Nat.lt_succ_of_lt old
      refine ⟨by rw [List.length_cons, length], g, added.grows.trans blocks.grown,
        (Forest.grows_push _ _).trans blocks.grows, blocks.aligned.perm List.perm_middle, fun c member => ?_,
        fun c old => ?_, fun c used => added.used rfl (blocks.used c used)⟩
      · rcases List.mem_cons.mp member with rfl | later
        · refine ⟨?_, blocks.grows _ _ (aligned.built.rooted.made_push _),
            fun used => wakes.unused (blocks.used _ used), Nat.ne_of_gt aligned.inside⟩
          exact (blocks.keeps _ wakes.inside).trans (by rw [added.shape, if_pos rfl])
        · exact blocks.fresh c later
      · exact (blocks.keeps c (inside old)).trans (by rw [added.shape, if_neg (Nat.ne_of_lt old)])

theorem waitingOf_replicate (blocks : List BlockId) :
    waitingOf (List.replicate blocks.length false) blocks = blocks := by
  induction blocks with
  | nil => rfl
  | cons block blocks ih => simp [List.replicate_succ, waitingOf, ih]

section Fresh

variable {signature : Signature} {depth offset base : Nat} {graph : FuncletCalls} {ids : List BlockId}
variable {exit : BlockId} {b : Ssa.Builder}

theorem nodes_of_size {funclets : Nat} (opened : FuncletCalls.ofSize? funclets = some graph) :
    graph.nodes = Array.replicate funclets .fresh ∧ graph.edges = #[] := by
  unfold FuncletCalls.ofSize? at opened
  split at opened
  · cases opened
  · cases opened
    exact ⟨rfl, rfl⟩

theorem waiting_of_size (opened : FuncletCalls.ofSize? ids.length = some graph) :
    OpenRegion.waiting ⟨signature, depth, offset, graph, ids.toArray, exit, base⟩ = ids := by
  have flags : graph.nodes.toList.map FuncletNode.sealed = List.replicate ids.length false := by
    rw [(nodes_of_size opened).1, Array.toList_replicate, List.map_replicate]
    rfl
  change waitingOf (graph.nodes.toList.map FuncletNode.sealed) ids = ids
  rw [flags, waitingOf_replicate]

/-- The funclets of a new region have no calls, and the first one the edge that enters it. -/
theorem prepared_of_size (opened : FuncletCalls.ofSize? ids.length = some graph)
    (nodup : ids.Nodup) (made : f[exit]? = some (some e) ∧ ∀ c ∈ ids, f[c]? = some (some e))
    (shapes : ∀ (i : Nat) (c : BlockId), ids[i]? = some c →
      b.shape c = some ⟨.funclet, false, if i = 0 then #[⟨e, args⟩] else #[], none⟩)
    (sleeps : ∀ c ∈ ids, b.Sleeps d c) (holds : b.HoldAll strict f e args signature.params)
    (known : strict = true → ∀ type ∈ signature.params, type.isValue = true) :
    Prepared strict f b d ⟨signature, depth, offset, graph, ids.toArray, exit, base⟩ := by
  obtain ⟨nodes, edges⟩ := nodes_of_size opened
  have fresh {i : Nat} {node : FuncletNode} (present : graph.nodes[i]? = some node) : node = .fresh := by
    rw [nodes] at present
    exact (Array.mem_replicate.mp (Array.mem_of_getElem? present)).2
  refine ⟨?_, nodup, ⟨e, made.1, fun c member => made.2 c (by simpa using member)⟩,
    fun {i node c} present place => ?_, fun checked => ⟨known checked, by simp [edges]⟩,
    FuncletCalls.derived_of_size opened, fun present known => ?_⟩
  · change ids.length = graph.nodes.size
    rw [nodes, Array.size_replicate]
  · have place' : ids[i]? = some c := by simpa using place
    cases fresh present
    refine ⟨⟨_, shapes i c place', rfl, fun _ => rfl, ?_⟩,
      fun _ => ⟨rfl, sleeps c (List.mem_of_getElem? place')⟩, fun _ absurd_ => by cases absurd_⟩
    change List.Forall₂ _ (arrivals signature.params graph.edges.toList i) _
    rw [edges, arrivals]
    by_cases zero : i = 0
    · simp only [zero, if_true]
      exact .cons ⟨(by simp), fun _ => holds⟩ .nil
    · simp only [zero, if_false]
      exact .nil
  · cases fresh present
    cases known

end Fresh

theorem enter_aligned {first : BlockId} (aligned : Aligned context strict f written extra s)
    (place : first ∈ extra) (made : f[first]? = some (some s.current))
    (present : s.builder.shape first = some ⟨.funclet, false, #[], none⟩)
    (holds : s.builder.HoldAll strict f s.current args types) :
    Ends (branchTo first args) s (fun _ t => Branches context strict f written extra s first args t ∧
      ∀ d, t.builder.shape d = if d = first then some ⟨.funclet, false, #[⟨s.current, args⟩], none⟩
        else s.builder.shape d) Refused := by
  refine ends_branchTo <| (Ssa.Builder.connect_built aligned.built aligned.inside present rfl holds.mem
    (.inl rfl) (.inr ⟨_, made, .refl _⟩) (by simp)).imp ?_
  rintro _ b ⟨built, joined⟩
  refine ⟨⟨rfl, joined, joined.advances present rfl,
    aligned.joined built joined (List.mem_append_left _ place)⟩, fun d => ?_⟩
  obtain ⟨front, _, length, shape⟩ := joined.edge
  have none_ : front = [] := by simpa using length _ present
  rw [shape, none_]
  split
  · rename_i here
    rw [here, present]
    rfl
  · rfl

theorem funcletRegion_aligned {signature : Signature} {funclets : Nat}
    (aligned : Aligned context strict f written [] s) (framed : Framed s)
    (some_ : funclets ≠ 0)
    (known : strict = true → signature.ValueTyped) :
    Ends (funcletRegion setting signature funclets) s (fun _ t => Onward context strict f written s t)
      Refused := by
  have params (checked : strict = true) : ∀ type ∈ signature.params, type.isValue = true :=
    fun type member => known checked type (List.mem_append_left _ member)
  obtain ⟨graph, opened⟩ : ∃ graph, FuncletCalls.ofSize? funclets = some graph := by
    rw [FuncletCalls.ofSize?, if_neg some_]
    exact ⟨_, rfl⟩
  rw [funcletRegion, ends_bind, ends_get, ends_bind, ends_get, opened]
  dsimp only
  rw [ends_bind]
  refine ends_onBuilder <| (addBlocks_aligned funclets aligned).imp ?_
  rintro ids b₁ ⟨rfl, g, blocks⟩
  rw [ends_bind]
  refine (newTarget_aligned blocks.aligned (by simp) fun checked type member =>
    known checked type (List.mem_append_right _ member)).imp ?_
  rintro c _ ⟨b₂, rfl, targets⟩
  rw [ends_bind]
  refine (shareValues_aligned targets.aligned params).imp fun vs s₃ shared => ?_
  obtain ⟨b₃, rfl⟩ : ∃ b₃, s₃ = { s with
    stack := (s.stack.without signature.params).extend (operandsOf signature.params vs)
    builder := b₃ } := ⟨_, shared.same⟩
  obtain ⟨first, rest, rfl⟩ := List.exists_cons_of_length_pos (Nat.pos_of_ne_zero some_)
  have grows : g.Grows (g.push (some s.current)) := Forest.grows_push _ _
  have shapes (c : BlockId) (member : c ∈ first :: rest) :
      b₃.shape c = some ⟨.funclet, false, #[], none⟩ := by
    obtain ⟨shape, _⟩ := blocks.fresh c member
    rw [shared.aside.shape]
    exact (targets.keeps (Ssa.Builder.lt_of_shape shape)).trans shape
  rw [ends_bind]
  refine (enter_aligned shared.aligned (List.mem_cons_of_mem _ List.mem_cons_self)
    (grows _ _ (blocks.fresh first List.mem_cons_self).2.1) (shapes first List.mem_cons_self)
    shared.holds).imp ?_
  rintro _ s₄ ⟨branches, edge⟩
  obtain ⟨b₄, rfl⟩ : ∃ b₄, s₄ = { s with
    stack := (s.stack.without signature.params).extend (operandsOf signature.params vs)
    builder := b₄ } := ⟨_, branches.same⟩
  rw [ends_bind]
  refine ends_onStack (TypedStack.enter_refuses _) fun mark k ok => ?_
  obtain ⟨accepted, made, rfl⟩ := TypedStack.enter_ok.mp ok
  have raised := branches.aligned.raise params accepted
  rw [ends_bind]
  refine ends_pushFrame fun unreachable same => ?_
  obtain rfl : unreachable = false := same.symm
  let frame : Frame := ⟨signature, mark, c, .region, false⟩
  -- Nothing leads away from the exit: neither the blocks of the funclets nor the edge to the first one do.
  have takes := branches.advances.hasArguments (shared.aside.hasArguments targets.takes)
  have sleeps {d : BlockId} (inside : d < b₂.blocks.size) (idle : ¬ b₂.Used d) (other : d ≠ s.current) :
      b₄.Sleeps s.current d :=
    branches.advances.sleeps (shared.aside.count.symm ▸ inside) id
      ⟨fun used => idle (shared.aside.used.mp used), other⟩
  have entered := raised.entered frame rfl branches.aligned.clear made
    (fun outside => branches.aligned.dead (outside.resolve_right (by simp [frame]))) targets.made takes
    (sleeps targets.wakes.inside targets.wakes.unused targets.sleeps.2) (by simp [frame]) known
  have pushed := raised.push frame entered (branches.aligned.around frame
    (branches.aligned.low (congrArg Mark.floor made)) targets.made) fun empty =>
      absurd empty framed.control
  have nodup : (first :: rest).Nodup := by
    have whole := pushed.opens.nodup
    rw [List.append_nil] at whole
    exact (List.nodup_append.mp whole).1
  let r : OpenRegion :=
    ⟨signature, s.control.size, s.start, graph, (first :: rest).toArray, c, mark.height⟩
  -- Of the new blocks only the first one has an edge, the one from the block at hand.
  have prepared : Prepared strict (g.push (some s.current)) b₄ s.current r := by
    refine prepared_of_size opened nodup ⟨targets.made, fun d member =>
      grows _ _ (blocks.fresh d member).2.1⟩ (fun i d place => ?_) (fun d member => ?_)
      (shared.holds.grow branches.joined.later branches.joined.size shared.aligned.built.sound.formed
        branches.aligned.built.sound.formed (.refl _)) params
    · rw [edge]
      have zero : d = first ↔ i = 0 := by
        refine ⟨fun here => ?_, fun here => by rw [here] at place; exact (Option.some.inj place).symm⟩
        obtain ⟨below, _⟩ := List.getElem?_eq_some_iff.mp place
        exact (List.getElem?_inj below nodup).mp (place.trans (congrArg some here))
      by_cases here : d = first
      · rw [if_pos here, if_pos (zero.mp here)]
      · rw [if_neg here, if_neg (fun first => here (zero.mpr first)), shapes d (List.mem_of_getElem? place)]
    · obtain ⟨shape, _, idle, other⟩ := blocks.fresh d member
      have inside := Ssa.Builder.lt_of_shape shape
      refine sleeps ?_ (targets.unused idle) other
      exact Ssa.Builder.lt_of_shape ((targets.keeps inside).trans shape)
  rw [ends_bind, ends_modify]
  have opened' := pushed.pushRegion (r := r) (waiting_of_size opened) prepared
  have split : (s.control.push frame).toList.reverse = frame :: s.frames := frames_push s.control frame
  have order : mark.floor ≤ mark.height := by
    rw [made]
    exact TypedStack.floor_le_without branches.aligned.above signature.params
  refine (startFunclet_aligned opened' (show Top _ frame r s.regions from
    ⟨⟨s.frames, split⟩, rfl, rfl, rfl, rfl, by rw [show frame.mark = mark from rfl, made]; rfl, order⟩)
    (enterable_of_size opened)).imp fun _ t onward => ?_
  exact onward.after (blocks.grows.trans grows)
    (((blocks.grown.trans targets.grows).trans shared.aside.grows).trans branches.joined.grows)

theorem Aligned.record {entry : Region} (aligned : Aligned context strict f written extra s)
    (regions : s.regions = r :: outer) (size : 0 < r.graph.size) (complete : r.graph.Complete)
    (yields : OpenRegion.RecordedAs r entry) :
    Aligned context strict f written extra
      { s with regions := outer, closed := s.closed.push entry } := by
  have prepared := aligned.regions
  have opens := aligned.opens
  rw [State.opens, regions, List.flatMap_cons, waiting_of_complete complete, List.nil_append] at opens
  rw [regions] at prepared
  refine ⟨aligned.built, aligned.inside, aligned.above, aligned.operands, aligned.clear, aligned.dead,
    aligned.frames, aligned.nested, fun q member => prepared q (List.mem_cons_of_mem _ member),
    fun q member => ?_, opens, aligned.exit, aligned.ground⟩
  rcases Array.mem_push.mp member with old | rfl
  · exact aligned.closed q old
  · exact ⟨r, yields, size, complete, prepared r List.mem_cons_self⟩

theorem Prepared.record_total {σ : Type} {f : Forest} {b : Ssa.Builder} {current : BlockId}
    {q : OpenRegion} (prepared : Prepared strict f b current q) (complete : q.graph.Complete) (s : σ) :
    Ends (OpenRegion.record q) s (fun entry t => OpenRegion.RecordedAs q entry ∧ s = t) fun _ _ => False := by
  have each : ∀ i ∈ List.range q.graph.size, ∃ funclet, OpenRegion.funclet q i s = .ok funclet s := by
    intro i below
    rw [List.mem_range] at below
    have present : q.graph.nodes[i]? = some q.graph.nodes[i] := Array.getElem?_eq_getElem below
    have inside : i < q.blocks.size := prepared.count ▸ below
    have place : q.blocks[i]? = some q.blocks[i] := Array.getElem?_eq_getElem inside
    have sealed := (complete.nodes _ (Array.mem_of_getElem? present)).2.2
    cases known : q.graph.nodes[i].params with
    | none =>
        have open_ := ((prepared.nodes present place).sleeps known).1
        rw [sealed] at open_
        cases open_
    | some params => exact ⟨_, funclet_ok.mpr ⟨⟨_, params, _, present, known, place, rfl⟩, rfl⟩⟩
  obtain ⟨funclets, listed⟩ := mapM_look_total each
  rw [OpenRegion.record]
  refine ends_bind_of_ok listed ?_
  exact record_ok.mp (bind_ok.mpr ⟨funclets, s, listed, rfl⟩)

/-- The code behind a region goes on in the block of its exit. -/
theorem closeRegion_aligned (aligned : Aligned context strict f written [] s)
    (top : Top s frame r outer) (settled : r.graph.Settled) :
    Ends closeRegion s (fun _ t => Onward context strict f written s t) Refused := by
  have plain : frame.construct ≠ .loop := by simp [top.isRegion]
  have prepared := aligned.regions r (by rw [top.regions]; exact List.mem_cons_self)
  have finish : Ends FuncletCalls.finish r.graph (fun _ h => h = r.graph ∧ r.graph.Complete)
      fun e _ => e.IsRefusal := ends_of_forall
    (fun _ _ ok => (FuncletCalls.finish_outcome prepared.derived.toAccounted).of_ok ok)
    fun _ _ error => (FuncletCalls.finish_ends settled).of_error error
  obtain ⟨frames, split⟩ := top.split
  obtain ⟨e, leaving⟩ := aligned.leavingFrame split
  have entered := leaving.entered
  have sleeps := entered.sleeps plain
  have takes := Frame.labelTypes_eq plain ▸ entered.takes
  have within := Forest.within_of_made entered.made
  have shuts := seal_aligned leaving.aligned
  rw [top.target] at sleeps takes within shuts
  rw [closeRegion, ends_bind]
  refine ends_onGraph top.regions <| finish.imp ?_
  rintro _ h ⟨rfl, complete⟩
  rw [ends_bind]
  refine ends_openRegion rfl ?_
  rw [ends_bind]
  refine ends_innermost top.innermost ?_
  rw [ends_bind]
  refine ends_onBuilder ?_
  change Ends (Ssa.Builder.sealBlock r.exit >>= fun _ => Ssa.Builder.args r.exit) s.builder _ _
  rw [ends_bind]
  refine shuts.imp ?_
  rintro _ b ⟨sealed, shut⟩
  refine (Ssa.Builder.args_built shut.built ((sealed.advances (f := f) (a := s.current)).hasArguments takes)).mono
    ?_ fun _ _ => False.elim
  rintro results _ ⟨rfl, held⟩
  have left := leaving.leave shut (top.target.symm ▸ sealed) (.inr ⟨top.target.symm, plain⟩) within held
    top.order
  rw [ends_bind]
  refine (prepared.record_total complete _).mono ?_ fun _ _ => False.elim
  rintro entry _ ⟨yields, rfl⟩
  rw [ends_bind, ends_modify, ends_bind]
  refine ends_onStack (TypedStack.leave_refuses _) fun _ k ok => ?_
  obtain rfl := TypedStack.leave_ok.mp ok
  rw [ends_bind, moveTo, ends_modify, ends_bind]
  refine ends_putValues ?_
  rw [ends_bind, ends_modify, popFrame, ends_modify]
  have size := Nat.lt_of_lt_of_le settled.visited_pos settled.visited_le
  exact ⟨⟨f, .refl f, left.record top.regions size complete yields⟩,
    fun _ used => sleeps.1 (sealed.used.mp used), sealed.grows⟩

theorem nextFunclet_aligned (aligned : Aligned context strict f written [] s)
    (top : Top s frame r outer) (settled : r.graph.Settled) :
    Ends (nextFunclet setting) s (fun _ t => Onward context strict f written s t) Refused := by
  rw [nextFunclet, ends_bind]
  refine ends_openRegion top.regions ?_
  dsimp only
  rw [ends_ite]
  exact ⟨fun more => startFunclet_aligned aligned top (enterable_of_settled settled more),
    fun _ => closeRegion_aligned aligned top settled⟩

theorem Aligned.lost {b : Ssa.Builder} (aligned : Aligned context strict f written extra s)
    (built : b.Built context strict (f.push none) written [])
    (added : s.builder.Added ⟨.body, true, #[], none⟩ b) :
    Aligned context strict (f.push none) written extra { s with
      stack := s.stack.cleared true, builder := b, current := s.builder.blocks.size } ∧
      ¬ b.Used s.builder.blocks.size := by
  obtain ⟨aligned', wakes⟩ := aligned.added built added (fun pred member => by simp at member)
    (aligned.opens.closed added rfl)
  have dead : Forest.Dead (f.push none) s.builder.blocks.size :=
    Forest.dead_of_alone (aligned.built.rooted.made_push _) (Nat.ne_of_gt (Nat.zero_lt_of_lt aligned.inside))
  have rests := TypedStack.rests_cleared true aligned.above
  refine ⟨aligned'.resume (.inr wakes) rests.above (fun frame member => ?_) (fun _ _ _ _ => .inl dead)
    (fun operand member => ?_) (fun _ _ _ _ => rfl) fun _ => dead, wakes.unused⟩
  · obtain ⟨e, entered⟩ := aligned.frames frame member
    exact ⟨rests.floor ▸ entered.reach, TypedStack.take_of_take entered.reach rests.below⟩
  · have old : operand ∈ s.stack.operands.toList.take s.stack.floor :=
      (TypedStack.toList_resize aligned.above) ▸ member
    exact (aligned'.operands operand (List.mem_of_mem_take old)).within (.inl dead)

theorem endBlock_aligned (aligned : Aligned context strict f written [] s) (framed : Framed s) :
    Ends (endBlock setting) s (fun _ t => Onward context strict f written s t) Refused := by
  obtain ⟨frame, frames, split, innermost, _⟩ := framed.cons
  rw [endBlock, ends_bind]
  refine ends_innermost innermost ?_
  rw [ends_ite]
  refine ⟨fun isRegion => ?_, fun inner => ?_⟩
  · obtain ⟨r, outer, top, settled⟩ := framed.top split isRegion
    exact nextFunclet_aligned aligned top settled
  · rw [ends_bind]
    refine ends_onStack TypedStack.becomePolymorphic_refuses fun _ k ok => ?_
    obtain rfl := TypedStack.becomePolymorphic_ok.mp ok
    rw [ends_bind]
    refine ends_onBuilder <| (Ssa.Builder.orphan_built aligned.built).imp ?_
    rintro _ b ⟨rfl, built, added⟩
    rw [moveTo, ends_modify]
    obtain ⟨gone, unused⟩ := aligned.lost built added
    exact ⟨⟨_, Forest.grows_push f _, gone⟩, fun _ => unused, added.grows⟩

end WasmFunclets.Validation
