import WasmFunclets.Proofs.Typing.Singles

/-! Frames are opened on what stands for the types below their parameters, and give it back. -/

namespace WasmFunclets.Validation

open Attempt
open Typing (Env)
open TypedStack (Holds Rests Over)

variable {α β : Type} {env : Env} {labels : List (List ValueType)} {setting : Setting}
variable {s t u : State} {types outer : List ValueType} {signature : Signature} {frame : Frame}
variable {w : TypedStack}

theorem ends_of_leavesTypes {m : Step α} {f : α → Step β} {Q : β → State → Prop} (first : LeavesTypes m s types)
    (rest : ∀ a t, Near s t → t.stack.Holds types → Rests s.stack t.stack →
      Ends (f a) t Q fun e _ => ¬ e.IsRefusal) :
    Ends (m >>= f) s Q fun e _ => ¬ e.IsRefusal := by
  rw [ends_bind]
  exact first.imp fun a t reached => rest a t reached.1 reached.2.1 reached.2.2

theorem ends_enter_bind {f : Mark → Step β} {params : List ValueType} {Q : β → State → Prop}
    {E : Fault → State → Prop} (holds : s.stack.Holds (outer ++ params))
    (rest : ∀ w k, w.Holds outer → Rests s.stack w → Over w k → k.Holds params →
      Ends (f ⟨w.height, w.floor, w.polymorphic⟩) { s with stack := k } Q E) :
    Ends (onStack (TypedStack.enter params) >>= f) s Q E := by
  obtain ⟨accepted, left⟩ := holds.accepts
  exact ends_bind_of_ok (onStack_ok.mpr ⟨_, TypedStack.enter_ok.mpr ⟨accepted, rfl, rfl⟩, rfl⟩)
    (rest (s.stack.without params) (s.stack.entered params) left
      (TypedStack.rests_without params holds.above) (TypedStack.over_entered params)
      (TypedStack.holds_entered params))

/-- The second state is inside a frame that the first one has not, on a stack `w` that stands for the
outer types. -/
structure Opened (signature : Signature) (outer : List ValueType) (frame : Frame) (w : TypedStack)
    (s t : State) : Prop where
  control : t.control = s.control.push frame
  regions : t.regions = s.regions
  locals : t.builder.locals = s.builder.locals
  typed : frame.signature = signature
  mark : frame.mark = ⟨w.height, w.floor, w.polymorphic⟩
  rests : Rests s.stack w
  holds : w.Holds outer
  rises : Over w t.stack

theorem Opened.later (opened : Opened signature outer frame w s t) (near : Near t u)
    (rests : Rests t.stack u.stack) : Opened signature outer frame w s u where
  control := near.control.trans opened.control
  regions := near.regions.trans opened.regions
  locals := near.locals.trans opened.locals
  typed := opened.typed
  mark := opened.mark
  rests := opened.rests
  holds := opened.holds
  rises := opened.rises.rests rests

theorem Opened.fetched (opened : Opened signature outer frame w s t) (c : Cursor) :
    Opened signature outer frame w s (t.fetched c) :=
  ⟨opened.control, opened.regions, opened.locals, opened.typed, opened.mark, opened.rests,
    opened.holds, opened.rises⟩

theorem Opened.turn (opened : Opened signature outer frame w s t) (construct : Construct) :
    Opened signature outer { frame with construct } w s
      { t with control := t.control.pop.push { frame with construct } } where
  control := by rw [opened.control, Array.pop_push]
  regions := opened.regions
  locals := opened.locals
  typed := opened.typed
  mark := opened.mark
  rests := opened.rests
  holds := opened.holds
  rises := opened.rises

theorem Opened.innermost (opened : Opened signature outer frame w s t) :
    t.frame? 0 = some frame := by
  rw [t.frame?_eq, State.frames, opened.control, frames_push]
  rfl

theorem Opened.hosts (opened : Opened signature outer frame w s t) (hosts : Hosts env labels s)
    (plain : frame.construct ≠ .region) : Hosts env (frame.labelTypes :: labels) t where
  frames := by
    rw [State.frames, opened.control, frames_push]
    exact .cons ⟨plain, rfl⟩ hosts.frames
  function := by
    obtain ⟨function, bottom, results⟩ := hosts.function
    refine ⟨function, ?_, results⟩
    have some_ : 0 < s.control.size := (Array.getElem?_eq_some_iff.mp bottom).1
    rw [opened.control, Array.getElem?_push_lt some_, ← bottom, Array.getElem?_eq_getElem some_]
  locals := by rw [opened.locals, hosts.locals]
  regions := by rw [opened.regions, hosts.regions]

/-- The second state is at the start of a frame that the first one has not. -/
def Opens (signature : Signature) (outer : List ValueType) (construct : Construct → Prop)
    (s t : State) : Prop :=
  ∃ frame w, Opened signature outer frame w s t ∧ construct frame.construct ∧
    t.stack.Holds signature.params

theorem pushFrame_opens {mark : Mark} {block : BlockId} {construct : Construct}
    {p : Construct → Prop} (near : Near s t) (kind : p construct) (rests : Rests s.stack w)
    (holds : w.Holds outer) (rises : Over w t.stack) (params : t.stack.Holds signature.params)
    (made : mark = ⟨w.height, w.floor, w.polymorphic⟩) :
    Ends (pushFrame signature mark block construct) t
      (fun _ u => Opens signature outer p s u ∧ u.cursor = s.cursor) fun e _ => ¬ e.IsRefusal := by
  refine ends_of_forall (fun _ u ok => ?_) fun e u error => by cases error
  obtain rfl := pushFrame_ok.mp ok
  have control := congrArg (Array.push · ⟨signature, mark, block, construct,
    t.unreachableIn construct mark⟩) near.control
  exact ⟨⟨_, w, ⟨control, near.regions, near.locals, rfl, made, rests, holds, rises⟩, kind, params⟩,
    near.cursor⟩

theorem openBlock_opens (holds : s.stack.Holds (outer ++ signature.params)) :
    Ends (openBlock signature) s
      (fun _ t => Opens signature outer (· = .block) s t ∧ t.cursor = s.cursor)
      fun e _ => ¬ e.IsRefusal := by
  refine ends_of_leavesTypes ((aloof_newTarget _ _).leavesTypes holds) fun join t near holds rests => ?_
  refine ends_enter_bind holds fun w k left rests' rises params => ?_
  exact pushFrame_opens (near.trans ⟨rfl, rfl⟩) rfl (rests.trans rests') left rises params rfl

theorem openLoop_opens (holds : s.stack.Holds (outer ++ signature.params)) :
    Ends (openLoop signature) s
      (fun _ t => Opens signature outer (· = .loop) s t ∧ t.cursor = s.cursor)
      fun e _ => ¬ e.IsRefusal := by
  refine ends_of_leavesTypes ((aloof_newTarget _ _).leavesTypes holds) fun header t near holds rests => ?_
  refine ends_of_leavesTypes (leavesTypes_shareValues holds) fun args t₁ near₁ holds rests₁ => ?_
  refine ends_of_leavesTypes ((aloof_branchTo _ _).leavesTypes holds) fun _ t₂ near₂ holds rests₂ => ?_
  refine ends_enter_bind holds fun w k left rests₃ rises params => ?_
  refine ends_of_leavesTypes ((aloof_moveTo _).leavesTypes params) fun _ t₄ near₄ params rests₄ => ?_
  refine ends_of_leavesTypes ((aloof_onBuilder (Ssa.Builder.args_neverRefuses _)).leavesTypes params)
    fun values t₅ near₅ params rests₅ => ?_
  refine ends_of_leavesTypes (leavesTypes_reset (values.map some) params) fun _ t₆ near₆ params rests₆ => ?_
  have near₃ : Near s { t₂ with stack := k } :=
    ((near.trans near₁).trans near₂).trans ⟨rfl, rfl⟩
  exact pushFrame_opens (((near₃.trans near₄).trans near₅).trans near₆) rfl
    (((rests.trans rests₁).trans rests₂).trans rests₃) left
    (rises.rests ((rests₄.trans rests₅).trans rests₆)) params rfl

theorem openIf_opens (holds : s.stack.Holds (outer ++ (signature.params ++ [.i32]))) :
    Ends (openIf signature) s
      (fun _ t => Opens signature outer (∃ block params, · = .ifThen block params) s t ∧
        t.cursor = s.cursor) fun e _ => ¬ e.IsRefusal := by
  rw [← List.append_assoc] at holds
  refine ends_of_leavesTypes (leavesTypes_takeValue holds) fun condition t near holds rests => ?_
  refine ends_of_leavesTypes (leavesTypes_shareValues holds) fun args t₁ near₁ holds rests₁ => ?_
  refine ends_of_leavesTypes ((aloof_emitStatement _ _ _).leavesTypes holds) fun _ t₂ near₂ holds rests₂ => ?_
  refine ends_enter_bind holds fun w k left rests₃ rises params => ?_
  refine ends_of_leavesTypes ((aloof_newTarget _ _).leavesTypes params) fun join t₄ near₄ params rests₄ => ?_
  rw [ends_bind, ends_get]
  refine ends_of_leavesTypes (aloof_fallThrough.leavesTypes params) fun _ t₅ near₅ params rests₅ => ?_
  have near₃ : Near s { t₂ with stack := k } :=
    ((near.trans near₁).trans near₂).trans ⟨rfl, rfl⟩
  exact pushFrame_opens ((near₃.trans near₄).trans near₅) ⟨_, _, rfl⟩
    (((rests.trans rests₁).trans rests₂).trans rests₃) left
    (rises.rests (rests₄.trans rests₅)) params rfl

theorem openElse_opens {block : BlockId} {params : List ValueId}
    (opened : Opened signature outer frame w s t) (construct : frame.construct = .ifThen block params)
    (holds : t.stack.Holds signature.results) :
    Ends openElse t (fun _ u => Opens signature outer (· = .ifElse) s u ∧ u.cursor = t.cursor)
      fun e _ => ¬ e.IsRefusal := by
  refine ends_bind_of_ok (innermost_ok.mpr ⟨opened.innermost, rfl⟩) ?_
  rw [← opened.typed] at holds
  simp only [construct]
  refine ends_of_leavesTypes (leavesTypes_takeAll holds) fun values t₁ near₁ holds rests₁ => ?_
  refine ends_of_leavesTypes ((aloof_branchTo _ _).leavesTypes holds) fun _ t₂ near₂ holds rests₂ => ?_
  have turned := ((opened.later near₁ rests₁).later near₂ rests₂).turn .ifElse
  rw [ends_bind, ends_modify]
  refine ends_of_leavesTypes ((aloof_followBlock _).leavesTypes holds) fun _ t₃ near₃ holds rests₃ => ?_
  refine (leavesTypes_reset (params.map some) holds).imp fun _ u reached => ?_
  obtain ⟨near₄, params, rests₄⟩ := reached
  refine ⟨⟨_, w, (turned.later near₃ rests₃).later near₄ rests₄, rfl, ?_⟩, ?_⟩
  · rw [← opened.typed]
    exact params
  · calc
      u.cursor = t₂.cursor := near₄.cursor.trans near₃.cursor
      _ = t.cursor := near₂.cursor.trans near₁.cursor

/-- The second state is behind code that the first one is in front of, in the same frames. -/
structure Passed (types : List ValueType) (s t : State) : Prop where
  control : t.control = s.control
  regions : t.regions = s.regions
  locals : t.builder.locals = s.builder.locals
  rests : Rests s.stack t.stack
  holds : t.stack.Holds types

theorem Passed.hosts (passed : Passed types s t) (hosts : Hosts env labels s) :
    Hosts env labels t where
  frames := by
    rw [State.frames, passed.control]
    exact hosts.frames
  function := by
    rw [passed.control]
    exact hosts.function
  locals := by rw [passed.locals, hosts.locals]
  regions := by rw [passed.regions, hosts.regions]

theorem Opened.passed {inside : List ValueType} (opened : Opened signature outer frame w s t)
    (passed : Passed inside t u) : Opened signature outer frame w s u where
  control := passed.control.trans opened.control
  regions := passed.regions.trans opened.regions
  locals := passed.locals.trans opened.locals
  typed := opened.typed
  mark := opened.mark
  rests := opened.rests
  holds := opened.holds
  rises := opened.rises.rests passed.rests

theorem Opened.left (opened : Opened signature outer frame w s t) (holds : t.stack.Holds types) :
    t.stack.left frame.mark = w := by
  rw [opened.mark]
  exact opened.rises.left holds.above

theorem Opened.closed (opened : Opened signature outer frame w s t)
    (near : Near { t with stack := w } u) (rests : Rests w u.stack) (holds : u.stack.Holds types) :
    Passed types s { u with control := u.control.pop } where
  control := by
    have same : u.control = t.control := near.control
    rw [same, opened.control, Array.pop_push]
  regions := near.regions.trans opened.regions
  locals := near.locals.trans opened.locals
  rests := opened.rests.trans rests
  holds := holds

theorem closeJoin_passes {results : List ValueId} (opened : Opened signature outer frame w s t)
    (holds : t.stack.Holds types) :
    Ends (closeJoin frame results) t
      (fun _ u => Passed (outer ++ signature.results) s u ∧ u.cursor = t.cursor)
      fun e _ => ¬ e.IsRefusal := by
  refine ends_of_leavesTypes ((aloof_branchTo _ _).leavesTypes holds) fun _ t₁ near₁ holds rests₁ => ?_
  refine ends_of_leavesTypes ((aloof_onBuilder (Ssa.Builder.sealBlock_neverRefuses _)).leavesTypes holds)
    fun _ t₂ near₂ holds rests₂ => ?_
  have inside := (opened.later near₁ rests₁).later near₂ rests₂
  refine ends_bind_of_ok (onStack_ok.mpr ⟨_, (@TypedStack.leave_ok _ _ _ ()).mpr rfl, rfl⟩) ?_
  rw [inside.left holds]
  refine ends_of_leavesTypes ((aloof_moveTo _).leavesTypes opened.holds) fun _ t₃ near₃ holds rests₃ => ?_
  refine ends_of_leavesTypes ((aloof_onBuilder (Ssa.Builder.args_neverRefuses _)).leavesTypes holds)
    fun args t₄ near₄ holds rests₄ => ?_
  refine ends_of_leavesTypes (leavesTypes_putValues args holds) fun _ t₅ near₅ holds rests₅ => ?_
  rw [opened.typed] at holds
  exact ends_modify.mpr ⟨inside.closed ((near₃.trans near₄).trans near₅)
    ((rests₃.trans rests₄).trans rests₅) holds,
    (((near₃.trans near₄).trans near₅).cursor).trans (near₁.trans near₂).cursor⟩

theorem closeLoop_passes {results : List ValueId} (opened : Opened signature outer frame w s t)
    (holds : t.stack.Holds types) :
    Ends (closeLoop frame results) t
      (fun _ u => Passed (outer ++ signature.results) s u ∧ u.cursor = t.cursor)
      fun e _ => ¬ e.IsRefusal := by
  refine ends_of_leavesTypes ((aloof_onBuilder (Ssa.Builder.sealBlock_neverRefuses _)).leavesTypes holds)
    fun _ t₁ near₁ holds rests₁ => ?_
  have inside := opened.later near₁ rests₁
  refine ends_bind_of_ok (onStack_ok.mpr ⟨_, (@TypedStack.leave_ok _ _ _ ()).mpr rfl, rfl⟩) ?_
  rw [inside.left holds]
  refine ends_of_leavesTypes (leavesTypes_putValues results opened.holds) fun _ t₂ near₂ holds rests₂ => ?_
  rw [opened.typed] at holds
  exact ends_modify.mpr ⟨inside.closed near₂ rests₂ holds, near₂.cursor.trans near₁.cursor⟩

/-- The end of a frame that is not the one of the function. An `if` without an `else` must leave what
it takes. -/
theorem close_passes (opened : Opened signature outer frame w s t)
    (inner : frame.construct ≠ .region ∧ frame.construct ≠ .function)
    (skips : ∀ block params, frame.construct = .ifThen block params →
      signature.params = signature.results)
    (holds : t.stack.Holds signature.results) :
    Ends (close setting) t
      (fun _ u => Passed (outer ++ signature.results) s u ∧ u.cursor = t.cursor)
      fun e _ => ¬ e.IsRefusal := by
  refine ends_bind_of_ok (innermost_ok.mpr ⟨opened.innermost, rfl⟩) ?_
  rw [← opened.typed] at holds
  cases construct : frame.construct with
  | region => exact absurd construct inner.1
  | function => exact absurd construct inner.2
  | loop =>
      refine ends_of_leavesTypes (leavesTypes_takeAll holds) fun results t₁ near₁ holds rests₁ => ?_
      exact (closeLoop_passes (opened.later near₁ rests₁) holds).imp fun _ u passed =>
        ⟨passed.1, passed.2.trans near₁.cursor⟩
  | block | ifElse =>
      refine ends_of_leavesTypes (leavesTypes_takeAll holds) fun results t₁ near₁ holds rests₁ => ?_
      exact (closeJoin_passes (opened.later near₁ rests₁) holds).imp fun _ u passed =>
        ⟨passed.1, passed.2.trans near₁.cursor⟩
  | ifThen block params =>
      refine ends_of_leavesTypes (leavesTypes_takeAll holds) fun results t₁ near₁ holds rests₁ => ?_
      have same := skips block params construct
      rw [← opened.typed] at same
      have skipped : LeavesTypes (skipBranch frame block params) t₁ [] :=
        leavesTypes_bind (leavesTypes_require same holds) fun _ _ _ holds =>
          (aloof_onBuilder (Ssa.Builder.connect_neverRefuses _ _ _)).leavesTypes holds
      refine ends_of_leavesTypes skipped fun _ t₂ near₂ holds rests₂ => ?_
      exact (closeJoin_passes ((opened.later near₁ rests₁).later near₂ rests₂) holds).imp
        fun _ u passed => ⟨passed.1, (passed.2.trans near₂.cursor).trans near₁.cursor⟩

theorem closeFunction_ends {results : List ValueType} (top : t.control = #[frame])
    (construct : frame.construct = .function) (typed : frame.signature.results = results)
    (holds : t.stack.Holds results) :
    Ends (close setting) t (fun _ u => u.control = #[] ∧ u.cursor = t.cursor)
      fun e _ => ¬ e.IsRefusal := by
  have innermost : t.frame? 0 = some frame := by
    rw [t.frame?_eq, State.frames, top]
    rfl
  refine ends_bind_of_ok (innermost_ok.mpr ⟨innermost, rfl⟩) ?_
  rw [← typed] at holds
  simp only [construct]
  refine ends_of_leavesTypes (leavesTypes_takeAll holds) fun values t₁ near₁ holds _ => ?_
  refine ends_of_leavesTypes ((aloof_branchTo _ _).leavesTypes holds) fun _ t₂ near₂ holds _ => ?_
  refine ends_of_leavesTypes ((aloof_onBuilder (Ssa.Builder.sealBlock_neverRefuses _)).leavesTypes holds)
    fun _ t₃ near₃ _ _ => ?_
  have near := (near₁.trans near₂).trans near₃
  refine ends_modify.mpr ⟨?_, near.cursor⟩
  change t₃.control.pop = #[]
  rw [near.control, top]
  rfl

end WasmFunclets.Validation
