import WasmFunclets.Proofs.Aligned.Funclets

/-! Frames are opened, and left for the blocks behind them. -/

namespace WasmFunclets

namespace TypedStack

variable {s : TypedStack} {params : List ValueType}

theorem toList_entered (s : TypedStack) (params : List ValueType) :
    (s.entered params).operands.toList =
      s.operands.toList.take (s.without params).height ++ s.taken params := by
  change ((s.without params).extend (s.taken params)).operands.toList = _
  rw [toList_extend, toList_without]

theorem without_height_le (s : TypedStack) (params : List ValueType) :
    (s.without params).height ≤ s.height := by
  rw [height_without]
  exact Nat.sub_le _ _

theorem take_entered (s : TypedStack) (params : List ValueType) :
    (s.entered params).operands.toList.take (s.without params).height =
      s.operands.toList.take (s.without params).height := by
  rw [toList_entered, List.take_left']
  rw [List.length_take, ← height_eq]
  exact Nat.min_eq_left (s.without_height_le params)

theorem drop_entered (s : TypedStack) (params : List ValueType) :
    (s.entered params).operands.toList.drop (s.without params).height = s.taken params := by
  rw [toList_entered, List.drop_left']
  rw [List.length_take, ← height_eq]
  exact Nat.min_eq_left (s.without_height_le params)

theorem floor_le_without (above : s.floor ≤ s.height) (params : List ValueType) :
    s.floor ≤ (s.without params).height := by
  rw [height_without]
  exact s.floor_le_of_reach params.length above

theorem above_entered (s : TypedStack) (params : List ValueType) :
    (s.entered params).floor ≤ (s.entered params).height := by
  change (s.without params).height ≤ _
  rw [height_eq (s.entered params), toList_entered, List.length_append, List.length_take, ← height_eq,
    Nat.min_eq_left (s.without_height_le params)]
  exact Nat.le_add_right _ _

theorem toList_left {saved : Mark} (reach : saved.height ≤ s.height) (operands : List Operand) :
    ((s.left saved).extend operands).operands.toList =
      s.operands.toList.take saved.height ++ operands := by
  rw [toList_extend]
  exact congrArg (· ++ operands) (toList_resize reach)

theorem above_left {saved : Mark} (order : saved.floor ≤ saved.height) (reach : saved.height ≤ s.height)
    (operands : List Operand) :
    ((s.left saved).extend operands).floor ≤ ((s.left saved).extend operands).height := by
  rw [height_eq, toList_left reach, List.length_append, List.length_take, ← height_eq,
    Nat.min_eq_left reach]
  exact Nat.le_trans order (Nat.le_add_right _ _)

end TypedStack

theorem Frame.labelTypes_eq {frame : Frame} (plain : frame.construct ≠ .loop) :
    frame.labelTypes = frame.signature.results := if_neg plain

namespace Validation

open Attempt
open Ssa (Forest Shape BlockKind)

variable {context : Context} {strict : Bool} {f g : Forest} {written : BlockId → Nat → Prop}
variable {extra : List BlockId} {s t u : State} {types : List ValueType} {args : List ValueId}
variable {b : Ssa.Builder} {c d e : BlockId} {frame : Frame} {frames : List Frame}
variable {r : OpenRegion}

theorem ends_pushFrame {Q : Unit → State → Prop} {signature : Signature} {mark : Mark}
    {block : BlockId} {construct : Construct}
    (good : ∀ unreachable, s.unreachableIn construct mark = unreachable → Q () { s with
      control := s.control.push ⟨signature, mark, block, construct, unreachable⟩ }) :
    Ends (pushFrame signature mark block construct) s Q Refused := good _ rfl

theorem Aligned.raise (aligned : Aligned context strict f written extra s)
    (known : strict = true → ∀ type ∈ types, type.isValue = true)
    (accepted : s.stack.accepts types = true) :
    Aligned context strict f written extra { s with stack := s.stack.entered types } := by
  have low := TypedStack.floor_le_without aligned.above types
  refine aligned.resume (.inl rfl) (s.stack.above_entered types) (fun frame member => ?_)
    aligned.within (fun operand member => ?_) (fun checked operand member unknown => ?_)
    (fun absurd_ => by cases absurd_)
  · obtain ⟨e, entered⟩ := aligned.frames frame member
    have reach : frame.mark.height ≤ (s.stack.without types).height := Nat.le_trans entered.reach low
    exact ⟨reach, TypedStack.take_of_take reach (s.stack.take_entered types)⟩
  · rw [TypedStack.toList_entered] at member
    rcases List.mem_append.mp member with old | new
    · exact aligned.operands operand (List.mem_of_mem_take old)
    · exact aligned.taken known accepted operand new
  · change operand ∈ List.drop (s.stack.without types).height _ at member
    rw [TypedStack.drop_entered] at member
    have listed := (TypedStack.mem_taken aligned.above accepted member).1
    exact absurd unknown (ValueType.ne_any (known checked _ listed))

/-- A frame that is about to be opened at the block at hand. -/
theorem Aligned.entered (frame : Frame) {k : TypedStack} (aligned : Aligned context strict f written extra s)
    (stack : s.stack = k.entered types)
    (clear : strict = true → Clear k)
    (mark : frame.mark = ⟨(k.without types).height, k.floor, k.polymorphic⟩)
    (dead : k.polymorphic = true ∨ frame.outerUnreachable = true → f.Dead s.current)
    (made : f[frame.target]? = some (some s.current))
    (takes : s.builder.HasArguments frame.target frame.labelTypes)
    (sleeps : s.builder.Sleeps s.current frame.target)
    (plain : ∀ condition params, frame.construct ≠ .ifThen condition params)
    (known : strict = true → frame.signature.ValueTyped) :
    Entered strict f s.builder s.stack s.current frame s.current where
  made := made
  within := .refl _
  reach := by rw [mark, stack]; exact Nat.le_refl _
  below operand member := aligned.operands operand (List.mem_of_mem_take member)
  clear checked operand member unknown := by
    rw [mark, stack, TypedStack.take_entered, List.drop_take] at member
    rw [mark]
    exact clear checked operand (List.mem_of_mem_take member) unknown
  dead unreachable := dead (by rw [mark] at unreachable; exact unreachable)
  takes := takes
  sleeps _ := sleeps
  resumes condition params isIf := absurd isIf (plain condition params)
  known := known

theorem Aligned.low {mark : Mark} (aligned : Aligned context strict f written extra s)
    (floor : mark.floor = s.stack.floor) : ∀ outer ∈ s.frames, outer.mark.height ≤ mark.floor := by
  intro outer member
  obtain ⟨e, entered⟩ := aligned.frames outer member
  exact floor ▸ entered.reach

theorem Aligned.around (frame : Frame) (aligned : Aligned context strict f written extra s)
    (low : ∀ outer ∈ s.frames, outer.mark.height ≤ frame.mark.floor)
    (made : f[frame.target]? = some (some s.current)) :
    ∀ outer ∈ s.frames, Around f frame outer := by
  intro outer member
  refine ⟨low outer member, fun a e made' made'' => ?_⟩
  cases made.symm.trans made'
  exact aligned.within outer member e made''

theorem Aligned.around_grow (aligned : Aligned context strict f written extra s)
    (around : ∀ outer ∈ s.frames, Around f frame outer) (made : f[frame.target]? = some (some e))
    (grows : f.Grows g) : ∀ outer ∈ s.frames, Around g frame outer := by
  intro outer member
  obtain ⟨e', entered⟩ := aligned.frames outer member
  exact (around outer member).grow grows ⟨e, made⟩ ⟨e', entered.made⟩

theorem Entered.goto {k : TypedStack} {current : BlockId} (polymorphic : Bool)
    (operands : List Operand) (entered : Entered strict f b k current frame e) (rooted : b.Rooted f written)
    (formed : b.Formed strict) (above : k.floor ≤ k.height) (unused : ¬ b.Used c)
    (within : f.Within c e) (calm : frame.construct ≠ .loop → frame.target ≠ c) :
    Entered strict f b ((k.cleared polymorphic).extend operands) c frame e := by
  have woken := (Ssa.Builder.Aside.refl formed).advances.wake (f := f) (a := current) unused
  have rests : TypedStack.Rests k ((k.cleared polymorphic).extend operands) :=
    (TypedStack.rests_cleared polymorphic above).trans
      (TypedStack.rests_extend _ (TypedStack.rests_cleared polymorphic above).above)
  exact entered.move woken.toProceeds (.inr woken.edges) rooted formed formed within
    (rests.floor ▸ entered.reach) (TypedStack.take_of_take entered.reach rests.below) calm

theorem Entered.turn {k : TypedStack} {current : BlockId} (construct : Construct)
    (entered : Entered strict f b k current frame e) (before : frame.construct ≠ .loop)
    (behind : construct ≠ .loop)
    (resumes : ∀ condition params, construct = .ifThen condition params → condition = e ∧
      b.Used e ∧ e ≠ current ∧ b.HoldAll strict f e params frame.signature.params ∧
      ∀ x, b.shape frame.target = some x → ∀ pred ∈ x.predecessors, pred.block ≠ e) :
    Entered strict f b k current { frame with construct } e where
  made := entered.made
  within := entered.within
  reach := entered.reach
  below := entered.below
  clear := entered.clear
  dead := entered.dead
  takes := by
    have same : Frame.labelTypes { frame with construct } = frame.labelTypes := by
      simp [Frame.labelTypes, before, behind]
    rw [same]
    exact entered.takes
  sleeps _ := entered.sleeps before
  resumes := resumes
  known := entered.known

theorem Aligned.push (frame : Frame) (aligned : Aligned context strict f written (frame.target :: extra) s)
    (entered : Entered strict f s.builder s.stack s.current frame e)
    (around : ∀ outer ∈ s.frames, Around f frame outer)
    (ground : s.control = #[] → frame.target = s.exit) :
    Aligned context strict f written extra { s with control := s.control.push frame } := by
  have frames : State.frames { s with control := s.control.push frame } = frame :: s.frames :=
    frames_push s.control frame
  refine ⟨aligned.built, aligned.inside, aligned.above, aligned.operands, aligned.clear, aligned.dead,
    ?_, ?_, aligned.regions, aligned.closed, ?_, aligned.exit, fun bottom found => ?_⟩
  · rw [frames]
    intro outer member
    rcases List.mem_cons.mp member with rfl | old
    · exact ⟨e, entered⟩
    · exact aligned.frames outer old
  · rw [frames]
    exact List.pairwise_cons.mpr ⟨around, aligned.nested⟩
  · refine aligned.opens.perm ?_
    rw [State.opens, State.opens, frames, List.map_cons, List.cons_append, List.cons_append]
    exact List.perm_middle.symm
  · change (s.control.push frame)[0]? = some bottom at found
    rw [Array.getElem?_push] at found
    split at found
    · cases found
      exact ground (Array.size_eq_zero_iff.mp (by simpa using ‹0 = s.control.size›.symm))
    · exact aligned.ground bottom found

theorem Aligned.pushRegion {waiting : List BlockId}
    (aligned : Aligned context strict f written (waiting ++ extra) s) (same : r.waiting = waiting)
    (prepared : Prepared strict f s.builder s.current r) :
    Aligned context strict f written extra { s with regions := r :: s.regions } := by
  subst same
  refine ⟨aligned.built, aligned.inside, aligned.above, aligned.operands, aligned.clear, aligned.dead,
    aligned.frames, aligned.nested, fun q member => ?_, aligned.closed, ?_, aligned.exit,
    aligned.ground⟩
  · rcases List.mem_cons.mp member with rfl | old
    · exact prepared
    · exact aligned.regions q old
  · refine aligned.opens.perm ?_
    change (r.waiting ++ extra ++ (s.frames.map Frame.target ++ s.regions.flatMap OpenRegion.waiting)).Perm
      (extra ++ (s.frames.map Frame.target ++ (r.waiting ++ s.regions.flatMap OpenRegion.waiting)))
    rw [List.append_assoc]
    refine (List.perm_append_comm_assoc _ _ _).trans ?_
    exact (List.perm_append_comm_assoc _ _ _).append_left extra

/-- What making a block for a frame leaves. -/
structure Targets (context : Context) (strict : Bool) (f : Forest) (written : BlockId → Nat → Prop)
    (extra : List BlockId) (s : State) (types : List ValueType) (c : BlockId)
    (b : Ssa.Builder) : Prop where
  fresh : c = s.builder.blocks.size
  added : ∃ kind phis, s.builder.Added ⟨kind, false, #[], some phis⟩ b
  takes : b.HasArguments c types
  made : (f.push (some s.current))[c]? = some (some s.current)
  sleeps : b.Sleeps s.current c
  aligned : Aligned context strict (f.push (some s.current)) written (c :: extra) { s with builder := b }
  wakes : Wakes { s with builder := b } c

theorem newTarget_aligned {kind : BlockKind} (aligned : Aligned context strict f written extra s)
    (inner : kind ≠ .entry) (known : strict = true → ∀ type ∈ types, type.isValue = true) :
    Ends (newTarget kind types) s (fun c t => ∃ b, t = { s with builder := b } ∧
      Targets context strict f written extra s types c b) Refused := by
  refine ends_onBuilder <| (Ssa.Builder.target_built aligned.built inner aligned.inside
    fun checked type member => ValueType.ne_any (known checked type member)).imp ?_
  rintro c b ⟨rfl, built, takes, phis, added⟩
  obtain ⟨aligned', wakes⟩ := @Aligned.added context strict f written extra s b _ (some s.current)
    (s.builder.blocks.size :: extra) aligned built added (fun pred member => by simp at member)
    (aligned.opens.added added rfl)
  exact ⟨b, rfl, rfl, ⟨kind, phis, added⟩, takes, aligned.built.rooted.made_push _, ⟨wakes.unused,
    Nat.ne_of_gt aligned.inside⟩, aligned', wakes⟩

theorem Targets.grows (targets : Targets context strict f written extra s types c b) :
    s.builder.Grows b := by
  obtain ⟨_, _, added⟩ := targets.added
  exact added.grows

theorem Targets.later (targets : Targets context strict f written extra s types c b) :
    s.builder.Later b := targets.grows.toLater

theorem Targets.unused (targets : Targets context strict f written extra s types c b)
    (unused : ¬ s.builder.Used d) : ¬ b.Used d := by
  obtain ⟨_, _, added⟩ := targets.added
  exact fun used => unused (added.used rfl used)

theorem Targets.keeps (targets : Targets context strict f written extra s types c b)
    (old : d < s.builder.blocks.size) : b.shape d = s.builder.shape d := by
  obtain ⟨_, _, added⟩ := targets.added
  rw [added.shape, if_neg (Nat.ne_of_lt old)]

theorem Targets.empty (targets : Targets context strict f written extra s types c b) :
    ∃ x, b.shape c = some x ∧ x.predecessors = #[] := by
  obtain ⟨_, _, added⟩ := targets.added
  exact ⟨_, by rw [added.shape, if_pos targets.fresh], rfl⟩

theorem Targets.not_hasEdge (targets : Targets context strict f written extra s types c b) :
    ¬ b.HasEdge d c := by
  obtain ⟨x, shown, none_⟩ := targets.empty
  refine (Ssa.Builder.not_hasEdge_iff shown).mpr fun pred member => ?_
  rw [none_] at member
  simp at member

theorem Aligned.dead_inside {construct : Construct} {mark : Mark} {unreachable : Bool}
    (aligned : Aligned context strict f written extra s) (framed : Framed s)
    (notRegion : construct ≠ .region) (polymorphic : mark.polymorphic = s.stack.polymorphic)
    (control : t.control = s.control) (same : t.unreachableIn construct mark = unreachable)
    (outside : s.stack.polymorphic = true ∨ unreachable = true) : f.Dead s.current := by
  obtain ⟨top, _, _, innermost, _⟩ := framed.cons
  have innermost' : t.frame? 0 = some top := by
    rw [State.frame?, control]
    exact innermost
  rw [← same, unreachableIn_of_plain notRegion innermost', polymorphic] at outside
  refine aligned.dead_of_unreachable innermost ?_
  rcases outside with here | either
  · rw [here, Bool.true_or]
  · rw [Bool.or_comm, either]

theorem Framed.control (framed : Framed s) : s.control ≠ #[] := by
  obtain ⟨frame, frames, split, _⟩ := framed.cons
  intro empty
  rw [State.frames, empty] at split
  cases split

theorem openBlock_aligned {signature : Signature} (aligned : Aligned context strict f written [] s)
    (framed : Framed s) (unused : ¬ s.builder.Used s.current)
    (known : strict = true → signature.ValueTyped) :
    Ends (openBlock signature) s (fun _ t => Onward context strict f written s t) Refused := by
  rw [openBlock, ends_bind]
  refine (newTarget_aligned aligned (by simp) fun checked type member =>
    known checked type (List.mem_append_right _ member)).imp ?_
  rintro c _ ⟨b, rfl, targets⟩
  rw [ends_bind]
  refine ends_onStack (TypedStack.enter_refuses _) fun mark k ok => ?_
  obtain ⟨accepted, made, rfl⟩ := TypedStack.enter_ok.mp ok
  have raised := targets.aligned.raise (fun checked type member =>
    known checked type (List.mem_append_left _ member)) accepted
  refine ends_pushFrame fun unreachable same => ?_
  have entered := raised.entered ⟨signature, mark, c, .block, unreachable⟩ (k := s.stack) rfl
    aligned.clear made (fun outside => (aligned.dead_inside framed (by simp) (congrArg Mark.polymorphic made) rfl same
      outside).grow (Forest.grows_push _ _)) targets.made targets.takes targets.sleeps (by simp) known
  have pushed := raised.push _ entered (targets.aligned.around _ (aligned.low (congrArg Mark.floor made))
    targets.made) fun empty => absurd empty framed.control
  exact ⟨⟨_, Forest.grows_push _ _, pushed⟩, fun _ => targets.unused unused, targets.grows⟩

theorem openLoop_aligned {signature : Signature} (aligned : Aligned context strict f written [] s)
    (framed : Framed s) (known : strict = true → signature.ValueTyped) :
    Ends (openLoop signature) s (fun _ t => Onward context strict f written s t) Refused := by
  have params (checked : strict = true) : ∀ type ∈ signature.params, type.isValue = true :=
    fun type member => known checked type (List.mem_append_left _ member)
  rw [openLoop, ends_bind]
  refine (newTarget_aligned aligned (by simp) params).imp ?_
  rintro c _ ⟨b, rfl, targets⟩
  rw [ends_bind]
  refine (shareValues_aligned targets.aligned params).imp ?_
  rintro vs t shared
  obtain ⟨b₁, rfl⟩ : ∃ b₁, t = { s with
    stack := (s.stack.without signature.params).extend (operandsOf signature.params vs)
    builder := b₁ } := ⟨_, shared.same⟩
  rw [ends_bind]
  refine (branchTo_aligned shared.aligned List.mem_cons_self targets.made (.refl _)
    (shared.aside.hasArguments targets.takes) shared.holds
    fun leads => targets.not_hasEdge (shared.aside.hasEdge.mp leads)).imp ?_
  rintro _ t branches
  obtain ⟨b₂, rfl⟩ : ∃ b₂, t = { s with
    stack := (s.stack.without signature.params).extend (operandsOf signature.params vs)
    builder := b₂ } := ⟨_, branches.same⟩
  rw [ends_bind]
  refine ends_onStack (TypedStack.enter_refuses _) fun mark k ok => ?_
  obtain ⟨accepted, made, rfl⟩ := TypedStack.enter_ok.mp ok
  have raised := branches.aligned.raise params accepted
  have takes := branches.advances.hasArguments (shared.aside.hasArguments targets.takes)
  have sleeps := branches.advances.sleeps (shared.aside.count.symm ▸ targets.wakes.inside) id
    ((shared.aside.advances (f := f)).sleeps targets.wakes.inside id targets.sleeps)
  have count := Nat.le_trans (Nat.le_of_eq shared.aside.count.symm) branches.advances.count
  rw [ends_bind, moveTo, ends_modify, ends_bind]
  refine ends_onBuilder <| (Ssa.Builder.args_built branches.aligned.built takes).mono ?_
    fun _ _ => False.elim
  rintro args _ ⟨rfl, holds⟩
  rw [ends_bind]
  refine ends_onStack (TypedStack.reset_refuses _) fun _ k ok => ?_
  obtain rfl := TypedStack.reset_ok.mp ok
  refine ends_pushFrame fun unreachable same => ?_
  have built := branches.aligned.built
  have behind := Forest.within_of_made targets.made
  have gone := raised.goto (targets.wakes.congr count sleeps.1 rfl rfl)
    (fun frame member e made => behind.trans (raised.within frame member e made))
    (fun operand member => (raised.operands operand (List.mem_of_mem_take member)).within behind) holds
    params
  let frame : Frame := ⟨signature, mark, c, .loop, unreachable⟩
  have entered := (raised.entered frame rfl branches.aligned.clear made
    (fun outside => (aligned.dead_inside framed (by simp) (congrArg Mark.polymorphic made) rfl same outside).grow
      (Forest.grows_push _ _)) targets.made takes sleeps (by simp [frame]) known).goto
    false (operandsOf signature.params args) built.rooted built.sound.formed
      (TypedStack.above_entered _ _) sleeps.1 behind fun other => absurd rfl other
  have pushed := gone.push frame entered (branches.aligned.around frame
    (branches.aligned.low (congrArg Mark.floor made)) targets.made) fun empty =>
      absurd empty framed.control
  exact ⟨⟨_, Forest.grows_push _ _, pushed⟩, fun _ => sleeps.1,
    (targets.grows.trans shared.aside.grows).trans branches.joined.grows⟩

theorem openIf_aligned {signature : Signature} (aligned : Aligned context strict f written [] s)
    (framed : Framed s) (known : strict = true → signature.ValueTyped) :
    Ends (openIf signature) s (fun _ t => Onward context strict f written s t) Refused := by
  have params (checked : strict = true) : ∀ type ∈ signature.params, type.isValue = true :=
    fun type member => known checked type (List.mem_append_left _ member)
  rw [openIf, ends_bind]
  refine (takeValue_aligned aligned fun _ => rfl).imp fun condition s₁ taken => ?_
  rw [ends_bind]
  refine (shareValues_aligned taken.aligned params).imp fun vs s₂ shared => ?_
  rw [ends_bind]
  refine (emitStatement_aligned shared.aligned (shared.stays.keeps taken.aligned taken.at_hand)
    fun _ => Opcode.operandTypes_ifThen).imp ?_
  rintro _ s₃ ⟨same, aside, emitted⟩
  obtain ⟨b₁, rfl⟩ : ∃ b₁, s₁ = { s with stack := s.stack.without [.i32], builder := b₁ } :=
    ⟨_, taken.same⟩
  obtain ⟨b₂, rfl⟩ : ∃ b₂, s₂ = { s with
    stack := ((s.stack.without [.i32]).without signature.params).extend (operandsOf signature.params vs)
    builder := b₂ } := ⟨_, shared.same⟩
  obtain ⟨b₃, rfl⟩ : ∃ b₃, s₃ = { s with
    stack := ((s.stack.without [.i32]).without signature.params).extend (operandsOf signature.params vs)
    builder := b₃ } := ⟨_, same⟩
  rw [ends_bind]
  refine ends_onStack (TypedStack.enter_refuses _) fun mark k ok => ?_
  obtain ⟨accepted, made, rfl⟩ := TypedStack.enter_ok.mp ok
  have raised := emitted.raise params accepted
  rw [ends_bind]
  refine (newTarget_aligned raised (by simp) fun checked type member =>
    known checked type (List.mem_append_right _ member)).imp ?_
  rintro c _ ⟨b₄, rfl, targets⟩
  rw [ends_bind, ends_get, ends_bind]
  refine (fallThrough_aligned targets.aligned).imp fun _ s₅ forks => ?_
  obtain ⟨b₅, rfl⟩ : ∃ b₅, s₅ = { s with
    stack := (((s.stack.without [.i32]).without signature.params).extend
      (operandsOf signature.params vs)).entered signature.params
    builder := b₅, current := b₄.blocks.size } := ⟨_, forks.same⟩
  refine ends_pushFrame fun unreachable same => ?_
  let frame : Frame := ⟨signature, mark, c, .ifElse, unreachable⟩
  have entered := targets.aligned.entered frame rfl emitted.clear made
    (fun outside => (aligned.dead_inside framed (by simp) (congrArg Mark.polymorphic made) rfl same
      outside).grow (Forest.grows_push _ _)) targets.made targets.takes targets.sleeps
    (by simp [frame]) known
  have built := targets.aligned.built
  have behind := entered.move forks.advances.toProceeds (.inr forks.advances.edges) built.rooted
    built.sound.formed forks.aligned.built.sound.formed (forks.within built.rooted) entered.reach rfl
    fun _ => id
  have holds := shared.holds.grow ((aside.later.trans targets.later).trans forks.added.later)
    (Nat.le_trans (Nat.le_trans aside.size targets.grows.size) forks.added.size)
    shared.aligned.built.sound.formed forks.aligned.built.sound.formed
    ((Forest.grows_push f _).trans forks.advances.grows)
  have turned := behind.turn (.ifThen s.current vs) (by simp [frame]) (by simp) (by
    rintro _ _ ⟨⟩
    refine ⟨rfl, forks.used, Nat.ne_of_lt targets.aligned.inside, holds, fun x shown pred member => ?_⟩
    obtain ⟨y, empty, none_⟩ := targets.empty
    rw [forks.added.shape, if_neg (Nat.ne_of_lt targets.wakes.inside), empty] at shown
    cases shown
    simp [none_] at member)
  have around := targets.aligned.around_grow (targets.aligned.around frame
    (emitted.low (congrArg Mark.floor made)) targets.made) targets.made forks.advances.grows
  have pushed := forks.aligned.push { frame with construct := .ifThen s.current vs } turned around
    fun empty => absurd empty framed.control
  exact ⟨⟨_, (Forest.grows_push f _).trans forks.advances.grows, pushed⟩, fun _ => forks.unused,
    (((taken.aside.grows.trans shared.aside.grows).trans aside.grows).trans targets.grows).trans
      forks.added.grows⟩

structure LeavingFrame (context : Context) (strict : Bool) (f : Forest) (written : BlockId → Nat → Prop)
    (extra : List BlockId) (s : State) (frame : Frame) (e : BlockId) : Prop where
  aligned : Aligned context strict f written (frame.target :: extra) { s with control := s.control.pop }
  entered : Entered strict f s.builder s.stack s.current frame e
  around : ∀ outer ∈ State.frames { s with control := s.control.pop }, Around f frame outer
  ground : s.control.pop = #[] → frame.target = s.exit

theorem Aligned.leavingFrame (aligned : Aligned context strict f written extra s)
    (split : s.frames = frame :: frames) :
    ∃ e, LeavingFrame context strict f written extra s frame e := by
  have popped : State.frames { s with control := s.control.pop } = frames := frames_pop split
  have nested := aligned.nested
  rw [split] at nested
  obtain ⟨e, entered⟩ := aligned.frames frame (split ▸ List.mem_cons_self)
  refine ⟨e, ⟨aligned.built, aligned.inside, aligned.above, aligned.operands, aligned.clear,
    aligned.dead, fun outer member => ?_, ?_, aligned.regions, aligned.closed, ?_, aligned.exit,
    fun bottom found => ?_⟩, entered, fun outer member => ?_, fun last => ?_⟩
  · rw [popped] at member
    exact aligned.frames outer (split ▸ List.mem_cons_of_mem _ member)
  · rw [popped]
    exact nested.of_cons
  · have opens := aligned.opens
    rw [State.opens, split, List.map_cons, List.cons_append] at opens
    refine opens.perm ?_
    rw [State.opens, popped]
    exact List.perm_middle
  · change s.control.pop[0]? = some bottom at found
    rw [Array.getElem?_pop] at found
    split at found
    · exact aligned.ground bottom found
    · cases found
  · rw [popped] at member
    exact List.rel_of_pairwise_cons nested member
  · have alone : frames = [] := by rw [← popped, State.frames, last]; rfl
    subst alone
    have list : s.control.toList = [frame] := List.reverse_eq_iff.mp split
    exact aligned.ground frame (by rw [← Array.getElem?_toList, list]; rfl)

theorem seal_aligned (aligned : Aligned context strict f written (c :: extra) s) :
    Ends (Ssa.Builder.sealBlock c) s.builder (fun _ b => s.builder.Sealed c b ∧
      Aligned context strict f written extra { s with builder := b }) Ssa.Builder.Exhausted := by
  obtain ⟨x, present, _⟩ := aligned.opens.present (c := c) (List.mem_append_left _ List.mem_cons_self)
  refine (Ssa.Builder.seal_built aligned.built (Ssa.Builder.lt_of_shape present)).imp ?_
  rintro _ b ⟨built, sealed⟩
  refine ⟨sealed, aligned.move sealed.advances built rfl rfl rfl rfl (.refl aligned.above)
    (sealed.count.symm ▸ aligned.inside) aligned.within (fun operand member =>
      (aligned.operands operand member).grow sealed.later sealed.size aligned.built.sound.formed
        built.sound.formed (.refl f)) aligned.clear aligned.dead (fun r region d waits => ?_)
    (aligned.opens.sealed sealed)⟩
  rw [sealed.shape, if_neg (aligned.apart (List.mem_append_left _ List.mem_cons_self) r region d waits)]

theorem Entered.change (entered : Entered strict f s.builder s.stack s.current frame e)
    (proceeds : s.builder.Proceeds f s.current b f s.current fun _ => False)
    (links : (∀ condition params, frame.construct ≠ .ifThen condition params) ∨
      s.builder.Links s.current (fun _ => False) b frame.target)
    (rooted : s.builder.Rooted f written) (formed : s.builder.Formed strict)
    (formed' : b.Formed strict) : Entered strict f b s.stack s.current frame e :=
  entered.move proceeds links rooted formed formed' entered.within entered.reach rfl fun _ => id

theorem LeavingFrame.branch (leaving : LeavingFrame context strict f written extra s frame e)
    (holds : s.builder.HoldAll strict f s.current args frame.labelTypes)
    (fresh : ¬ s.builder.HasEdge s.current frame.target) :
    Ends (Ssa.Builder.connect s.current frame.target args) s.builder (fun _ b =>
      s.builder.Joined s.current frame.target args b ∧
        LeavingFrame context strict f written extra { s with builder := b } frame e)
      Ssa.Builder.Exhausted := by
  have entered := leaving.entered
  refine (connect_aligned leaving.aligned (List.mem_append_left _ List.mem_cons_self) entered.made
    entered.within entered.takes holds fresh).imp ?_
  rintro _ b ⟨joined, advances, aligned⟩
  have built := leaving.aligned.built
  exact ⟨joined, aligned, entered.change advances.toProceeds (.inr advances.edges) built.rooted
    built.sound.formed aligned.built.sound.formed, leaving.around, leaving.ground⟩

theorem LeavingFrame.skip {condition : BlockId} {params : List ValueId}
    (leaving : LeavingFrame context strict f written extra s frame e)
    (isIf : frame.construct = .ifThen condition params)
    (fits : frame.signature.params = frame.signature.results) :
    Ends (Ssa.Builder.connect condition frame.target params) s.builder (fun _ b =>
      s.builder.Joined condition frame.target params b ∧ condition ≠ s.current ∧
        LeavingFrame context strict f written extra { s with builder := b } { frame with construct := .ifElse }
          e) Ssa.Builder.Exhausted := by
  have entered := leaving.entered
  have built := leaving.aligned.built
  obtain ⟨rfl, used, other, holds, fresh⟩ := entered.resumes condition params isIf
  have takes := entered.takes
  rw [Frame.labelTypes_eq (by simp [isIf]), ← fits] at takes
  obtain ⟨x, present, isOpen⟩ := leaving.aligned.opens.present (c := frame.target)
    (List.mem_append_left _ List.mem_cons_self)
  refine (Ssa.Builder.connect_built built (used_lt built used) present isOpen holds.mem
    (.inr ⟨_, takes, Nat.le_of_eq holds.length_eq, holds.suits, .inr holds.length_eq⟩)
    (.inr ⟨condition, entered.made, .refl _⟩) (fresh x present)).imp ?_
  rintro _ b ⟨built', joined⟩
  have proceeds := joined.proceeds (f := f) (a := s.current) present isOpen (.inr used)
  have formed := built.sound.formed
  have turned := entered.turn .ifElse (by simp [isIf]) (by simp) (fun _ _ => nofun)
  refine ⟨joined, other, ?_, turned.change proceeds (.inl fun _ _ => nofun) built.rooted formed
    built'.sound.formed, leaving.around, leaving.ground⟩
  have apart {d : BlockId} (member : d ∈ extra ++ State.opens { s with control := s.control.pop }) :
      d ≠ frame.target := by
    rintro rfl
    exact (List.nodup_cons.mp leaving.aligned.opens.nodup).1 member
  refine leaving.aligned.proceed proceeds (fun outer member => joined.links (apart ?_)) built' rfl rfl
    rfl leaving.aligned.above (fun outer member => ?_) (joined.count.symm ▸ leaving.aligned.inside)
    leaving.aligned.within (fun operand member => (leaving.aligned.operands operand member).grow
      joined.later joined.size formed built'.sound.formed (.refl f)) leaving.aligned.clear
    leaving.aligned.dead (fun _ _ => id) (fun r member => ?_) (leaving.aligned.opens.joined joined)
  · rw [State.opens]
    exact List.mem_append_right _ (List.mem_append_left _ (List.mem_map_of_mem member))
  · obtain ⟨_, around⟩ := leaving.aligned.frames outer member
    exact ⟨around.reach, rfl⟩
  · refine (leaving.aligned.regions r member).move proceeds formed built'.sound.formed
      (fun d waits => ?_) fun _ _ => id
    obtain ⟨_, _, _, shape⟩ := joined.edge
    rw [shape, if_neg (apart ?_)]
    rw [State.opens]
    exact List.mem_append_right _ (List.mem_append_right _ (List.mem_flatMap.mpr ⟨r, member, waits⟩))

theorem LeavingFrame.wakes (leaving : LeavingFrame context strict f written extra s frame e)
    (sealed : s.builder.Sealed frame.target b) (plain : frame.construct ≠ .loop) :
    Wakes { s with control := s.control.pop, builder := b } frame.target where
  inside := by
    obtain ⟨x, present, _⟩ :=
      leaving.aligned.opens.present (c := frame.target) (List.mem_append_left _ List.mem_cons_self)
    exact sealed.count.symm ▸ Ssa.Builder.lt_of_shape present
  unused used := (leaving.entered.sleeps plain).1 (sealed.used.mp used)
  frames outer member same := by
    have fresh := (List.nodup_cons.mp leaving.aligned.opens.nodup).1
    refine fresh (List.mem_append_right _ ?_)
    rw [State.opens]
    exact List.mem_append_left _ (same ▸ List.mem_map_of_mem member)
  regions r member _ node present place := by
    cases undeclared : node.params with
    | some _ => rfl
    | none =>
        have waits := (leaving.aligned.regions r member).waits present place undeclared
        exact absurd rfl
          (leaving.aligned.apart (List.mem_append_left _ List.mem_cons_self) r member _ waits)

/-- The frame is left for the block at hand or for another one behind it. -/
theorem LeavingFrame.leave (leaving : LeavingFrame context strict f written extra s frame e)
    (shut : Aligned context strict f written extra { s with control := s.control.pop, builder := b })
    (sealed : s.builder.Sealed frame.target b)
    (wakes : c = s.current ∨ c = frame.target ∧ frame.construct ≠ .loop) (within : f.Within c e)
    (holds : b.HoldAll strict f c args frame.signature.results)
    (order : frame.mark.floor ≤ frame.mark.height) :
    Aligned context strict f written extra { s with
      control := s.control.pop
      builder := b
      current := c
      stack := (s.stack.left frame.mark).extend (operandsOf frame.signature.results args) } := by
  have entered := leaving.entered
  have reach : frame.mark.height ≤ s.stack.height := Nat.le_trans entered.reach shut.above
  have known (checked : strict = true) : ∀ type ∈ frame.signature.results, type.isValue = true :=
    fun type member => entered.known checked type (List.mem_append_right _ member)
  have list := TypedStack.toList_left reach (operandsOf frame.signature.results args)
  refine shut.resume (wakes.imp_right fun ⟨same, plain⟩ => same ▸ leaving.wakes sealed plain)
    (TypedStack.above_left order reach _) (fun outer member => ?_) (fun outer member e' made => ?_)
    (fun operand member => ?_) (fun checked operand member unknown => ?_) fun polymorphic => ?_
  · have low := (leaving.around outer member).1
    refine ⟨low, ?_⟩
    rw [list, List.take_append_of_le_length, List.take_take, Nat.min_eq_left (Nat.le_trans low order)]
    rw [List.length_take, ← TypedStack.height_eq, Nat.min_eq_left reach]
    exact Nat.le_trans low order
  · exact within.trans ((leaving.around outer member).2 e e' entered.made made)
  · rw [list] at member
    rcases List.mem_append.mp member with old | new
    · exact ((entered.below operand old).grow sealed.later sealed.size
        leaving.aligned.built.sound.formed shut.built.sound.formed (.refl f)).within within
    · exact (mem_operandsOf holds known new).2
  · rw [list] at member
    change operand ∈ List.drop frame.mark.floor _ at member
    rcases List.mem_append.mp (List.drop_append ▸ member) with old | new
    · exact entered.clear checked operand old unknown
    · exact absurd unknown (ValueType.ne_any (known checked _
        (mem_operandsOf holds known (List.mem_of_mem_drop new)).1))
  · exact within.dead (entered.dead (.inl polymorphic))

theorem Framed.order (framed : Framed s) (split : s.frames = frame :: frames)
    (inner : frame.construct ≠ .function) : frame.mark.floor ≤ frame.mark.height := by
  obtain ⟨l, outer, layers⟩ := framed.nested.cons
  have nested := framed.nested
  rw [layers] at nested
  have same : frame = l.frame := by
    have heads := Framed.frames_cons layers
    rw [split] at heads
    exact (List.cons.inj heads).1
  subst same
  obtain ⟨parent, _, _, inside, _⟩ := nested.inner inner
  exact inside.floor ▸ inside.height

theorem closeLoop_aligned (leaving : LeavingFrame context strict f written [] s frame e)
    (unused : ¬ s.builder.Used s.current) (order : frame.mark.floor ≤ frame.mark.height)
    (holds : s.builder.HoldAll strict f s.current args frame.signature.results) :
    Ends (closeLoop frame args) s (fun _ t => Onward context strict f written s t) Refused := by
  rw [closeLoop, ends_bind]
  refine ends_onBuilder <| (seal_aligned leaving.aligned).imp ?_
  rintro _ b ⟨sealed, shut⟩
  have left := leaving.leave shut sealed (.inl rfl) leaving.entered.within (holds.grow sealed.later
    sealed.size leaving.aligned.built.sound.formed shut.built.sound.formed (.refl f)) order
  rw [ends_bind]
  refine ends_onStack (TypedStack.leave_refuses _) fun _ k ok => ?_
  obtain rfl := TypedStack.leave_ok.mp ok
  rw [ends_bind]
  refine ends_putValues ?_
  rw [popFrame, ends_modify]
  exact ⟨⟨f, .refl f, left⟩, fun _ used => unused (sealed.used.mp used), sealed.grows⟩

theorem closeJoin_aligned (leaving : LeavingFrame context strict f written [] s frame e)
    (plain : frame.construct ≠ .loop) (fresh : ¬ s.builder.HasEdge s.current frame.target)
    (order : frame.mark.floor ≤ frame.mark.height)
    (holds : s.builder.HoldAll strict f s.current args frame.signature.results) :
    Ends (closeJoin frame args) s (fun _ t => Onward context strict f written s t) Refused := by
  have types := Frame.labelTypes_eq plain
  rw [closeJoin, ends_bind]
  refine ends_branchTo <| (leaving.branch (types ▸ holds) fresh).imp ?_
  rintro _ b ⟨joined, leaving⟩
  rw [ends_bind]
  refine ends_onBuilder <| (seal_aligned leaving.aligned).imp ?_
  rintro _ b' ⟨sealed, shut⟩
  have entered := leaving.entered
  rw [ends_bind]
  refine ends_onStack (TypedStack.leave_refuses _) fun _ k ok => ?_
  obtain rfl := TypedStack.leave_ok.mp ok
  rw [ends_bind, moveTo, ends_modify, ends_bind]
  refine ends_onBuilder <| (Ssa.Builder.args_built shut.built (types ▸ (sealed.advances (f := f)
    (a := s.current)).hasArguments entered.takes)).mono ?_ fun _ _ => False.elim
  rintro results _ ⟨rfl, held⟩
  have left := leaving.leave shut sealed (.inr ⟨rfl, plain⟩) (Forest.within_of_made entered.made) held
    order
  rw [ends_bind]
  refine ends_putValues ?_
  rw [popFrame, ends_modify]
  exact ⟨⟨f, .refl f, left⟩, fun _ used => (entered.sleeps plain).1 (sealed.used.mp used),
    joined.grows.trans sealed.grows⟩

theorem closeFunction_aligned (leaving : LeavingFrame context strict f written [] s frame e)
    (last : s.frames = [frame]) (plain : frame.construct ≠ .loop)
    (fresh : ¬ s.builder.HasEdge s.current frame.target)
    (holds : s.builder.HoldAll strict f s.current args frame.signature.results) :
    Ends (closeFunction frame args) s (fun _ t => Onward context strict f written s t) Refused := by
  rw [closeFunction, ends_bind]
  refine ends_branchTo <| (leaving.branch (Frame.labelTypes_eq plain ▸ holds) fresh).imp ?_
  rintro _ b ⟨joined, leaving⟩
  rw [ends_bind]
  refine ends_onBuilder <| (seal_aligned leaving.aligned).imp ?_
  rintro _ b' ⟨sealed, shut⟩
  rw [popFrame, ends_modify]
  exact ⟨⟨f, .refl f, shut⟩, absurd (frames_pop last), joined.grows.trans sealed.grows⟩

theorem closeIf_aligned {condition : BlockId} {params : List ValueId}
    (leaving : LeavingFrame context strict f written [] s frame e)
    (isIf : frame.construct = .ifThen condition params) (unused : ¬ s.builder.Used s.current)
    (order : frame.mark.floor ≤ frame.mark.height)
    (holds : s.builder.HoldAll strict f s.current args frame.signature.results) :
    Ends (do skipBranch frame condition params; closeJoin frame args) s
      (fun _ t => Onward context strict f written s t) Refused := by
  rw [ends_bind, skipBranch, ends_bind]
  refine ends_demand fun fits => ?_
  refine ends_onBuilder <| (leaving.skip isIf fits).imp ?_
  rintro _ b ⟨joined, other, leaving'⟩
  refine (closeJoin_aligned leaving' (by simp) (fun leads => ?_) order ?_).imp fun _ t onward =>
    onward.after (.refl f) joined.grows
  · rcases joined.hasEdge leads with ⟨_, same⟩ | before
    · exact other same.symm
    · exact Ssa.Builder.not_hasEdge_of_unused unused before
  · exact holds.grow joined.later joined.size leaving.aligned.built.sound.formed
      leaving'.aligned.built.sound.formed (.refl f)

/-- The other branch starts over from where the first one did. -/
theorem LeavingFrame.alternate {condition : BlockId} {params : List ValueId}
    (leaving : LeavingFrame context strict f written extra s frame e)
    (isIf : frame.construct = .ifThen condition params) (floor : s.stack.floor = frame.mark.height)
    (built' : b.Built context strict (f.push (some condition)) written [])
    (added : s.builder.Added ⟨.body, true, #[⟨condition, []⟩], none⟩ b) :
    Aligned context strict (f.push (some condition)) written extra { s with
      control := s.control.pop.push { frame with construct := .ifElse }
      builder := b
      current := s.builder.blocks.size
      stack := (s.stack.cleared false).extend (operandsOf frame.signature.params params) } ∧
      ¬ b.Used s.builder.blocks.size := by
  have entered := leaving.entered
  have built := leaving.aligned.built
  have formed := built.sound.formed
  have formed' := built'.sound.formed
  obtain ⟨rfl, used, _, holds, _⟩ := entered.resumes condition params isIf
  have from_ : ∀ pred ∈ #[(⟨condition, []⟩ : Ssa.Predecessor)],
      pred.block = s.current ∨ s.builder.Used pred.block :=
    fun pred member => .inr (by rwa [Array.mem_singleton.mp member])
  obtain ⟨aligned', wakes⟩ := leaving.aligned.added built' added from_
    (leaving.aligned.opens.closed added rfl)
  have proceeds := (added.advances (f := f) (p := some condition) from_ (.inr rfl)).toProceeds
  have behind : Forest.Within (f.push (some condition)) s.builder.blocks.size condition :=
    Forest.within_of_made (built.rooted.made_push _)
  have around := leaving.aligned.around_grow leaving.around entered.made proceeds.grows
  have held : b.HoldAll strict (f.push (some condition)) s.builder.blocks.size params
      frame.signature.params :=
    (holds.grow proceeds.later proceeds.size formed formed' proceeds.grows).imp
      fun _ _ hold => hold.within behind
  have gone := aligned'.goto wakes (fun outer member e' made => behind.trans
      ((around outer member).2 condition e' (proceeds.grows _ _ entered.made) made))
    (fun operand member => ((entered.below operand (floor ▸ member)).grow proceeds.later proceeds.size
      formed formed' proceeds.grows).within behind) held
    fun checked type member => entered.known checked type (List.mem_append_left _ member)
  have cleared := TypedStack.rests_cleared false leaving.aligned.above
  have rests := cleared.trans (TypedStack.rests_extend (operandsOf frame.signature.params params)
    cleared.above)
  have turned := (entered.turn .ifElse (by simp [isIf]) (by simp) (fun _ _ => nofun)).move proceeds
    (.inl fun _ _ => nofun) built.rooted formed formed' behind (rests.floor ▸ entered.reach)
    (TypedStack.take_of_take entered.reach rests.below) fun _ => id
  exact ⟨gone.push { frame with construct := .ifElse } turned around leaving.ground, wakes.unused⟩

theorem openElse_aligned (aligned : Aligned context strict f written [] s) (framed : Framed s)
    (unused : ¬ s.builder.Used s.current) :
    Ends openElse s (fun _ t => Onward context strict f written s t) Refused := by
  obtain ⟨frame, frames, split, top, floor⟩ := framed.cons
  rw [openElse, ends_bind]
  refine ends_innermost top ?_
  cases construct : frame.construct with
  | ifThen condition params => ?_
  | _ => exact ends_refuse
  obtain ⟨_, entered⟩ := aligned.frames frame (split ▸ List.mem_cons_self)
  have known (checked : strict = true) : ∀ type ∈ frame.signature.results, type.isValue = true :=
    fun type member => entered.known checked type (List.mem_append_right _ member)
  have plain : frame.construct ≠ .loop := by simp [construct]
  rw [ends_bind]
  refine (takeAll_aligned aligned known).imp ?_
  rintro vs s₁ ⟨_, taken⟩
  obtain ⟨b₁, rfl⟩ : ∃ b₁, s₁ = { s with
    stack := s.stack.without frame.signature.results, builder := b₁ } := ⟨_, taken.same⟩
  have split' : State.frames { s with
      stack := s.stack.without frame.signature.results, builder := b₁ } = frame :: frames := split
  obtain ⟨e, leaving⟩ := taken.aligned.leavingFrame split'
  rw [ends_bind]
  refine ends_branchTo <| (leaving.branch (Frame.labelTypes_eq plain ▸ taken.holds)
    (Ssa.Builder.not_hasEdge_of_unused fun used => unused (taken.aside.used.mp used))).imp ?_
  rintro _ b₂ ⟨joined, leaving⟩
  rw [ends_bind, ends_modify, ends_bind]
  have entered := leaving.entered
  obtain ⟨rfl, used, _, holds, _⟩ := entered.resumes condition params construct
  have built := leaving.aligned.built
  refine ends_followBlock <| (Ssa.Builder.follower_built built (used_lt built used)).imp ?_
  rintro _ b₃ ⟨rfl, built', added⟩
  refine ends_onStack (TypedStack.reset_refuses _) fun _ k ok => ?_
  obtain rfl := TypedStack.reset_ok.mp ok
  obtain ⟨pushed, fresh⟩ := leaving.alternate construct floor built' added
  exact ⟨⟨_, Forest.grows_push f _, pushed⟩, fun _ => fresh,
    (taken.aside.grows.trans joined.grows).trans added.grows⟩

end Validation

end WasmFunclets
