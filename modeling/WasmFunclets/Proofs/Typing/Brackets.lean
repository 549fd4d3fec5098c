import WasmFunclets.Proofs.Typing.Pops

/-! What goes on within a frame of an operand stack stays within it: the operands below the frame are
out of reach until it is left, whatever frames are opened and left inside of it. -/

namespace WasmFunclets.TypedStack

open Attempt

variable {s t u w : TypedStack} {params : List ValueType} {marks : List Mark} {m : Mark}

inductive Call where
  | push (operand : Operand)
  | pop
  | popType (type : ValueType)
  | popTypes (types : List ValueType)
  | accepts (types : List ValueType)
  | holdsExactly (types : List ValueType)
  | reset (types : List ValueType) (values : List (Option ValueId))
  | becomePolymorphic

def Call.attempt : Call → Attempt TypedStack Unit
  | .push operand => TypedStack.push operand
  | .pop => do let _ ← TypedStack.pop
  | .popType type => do let _ ← TypedStack.popType type
  | .popTypes types => do let _ ← TypedStack.popTypes types
  | .accepts types => do let _ := (← get).accepts types
  | .holdsExactly types => do let _ := (← get).holdsExactly types
  | .reset types values => TypedStack.reset (withValues types values)
  | .becomePolymorphic => TypedStack.becomePolymorphic

inductive Move where
  | call (call : Call)
  | enter (params : List ValueType)
  | leave

/-- A stack, with the marks of the frames that have been opened on it, the innermost first. -/
structure FramedStack where
  stack : TypedStack
  marks : List Mark
  deriving DecidableEq

/-- What a call leaves, whether it succeeds or fails. A frame is opened only where its parameters
are accepted, and the innermost one is left. -/
def FramedStack.step (f : FramedStack) : Move → Option FramedStack
  | .call call => some ⟨after call.attempt f.stack, f.marks⟩
  | .enter params =>
      match TypedStack.enter params f.stack with
      | .ok mark t => some ⟨t, mark :: f.marks⟩
      | .error _ t => some ⟨t, f.marks⟩
  | .leave =>
      match f.marks with
      | [] => none
      | mark :: marks => some ⟨after (TypedStack.leave mark) f.stack, marks⟩

def FramedStack.run (f : FramedStack) (moves : List Move) : Option FramedStack := moves.foldlM FramedStack.step f

theorem Rests.of_same (above : s.floor ≤ s.height) (same : t = s) : Rests s t := by
  subst same
  exact .refl above

theorem pop_rests (above : s.floor ≤ s.height) :
    Ends pop s (fun _ t => Rests s t) fun _ t => Rests s t := by
  refine ends_of_forall (fun _ _ ok => ?_) fun _ _ failed => .of_same above (pop_keeps failed)
  obtain ⟨-, rfl⟩ := accepts_of_pop above ok
  exact rests_without _ above

theorem popType_rests (above : s.floor ≤ s.height) (type : ValueType) :
    Ends (popType type) s (fun _ t => Rests s t) fun _ t => Rests s t := by
  refine ends_of_forall (fun _ _ ok => ?_) fun _ _ failed => .of_same above (popType_keeps failed)
  obtain ⟨-, -, rfl⟩ := accepts_of_popType above ok
  exact rests_without _ above

theorem popTypes_rests (above : s.floor ≤ s.height) (types : List ValueType) :
    Ends (popTypes types) s (fun _ t => Rests s t) fun _ t => Rests s t := by
  refine ends_of_forall (fun _ _ ok => ?_) fun _ _ failed => .of_same above (popTypes_keeps failed)
  obtain ⟨-, -, rfl⟩ := popTypes_ok.mp ok
  exact rests_without _ above

theorem Call.rests (above : s.floor ≤ s.height) (call : Call) : Rests s (after call.attempt s) := by
  apply Ends.after
  cases call with
  | push operand => exact rests_extend [operand] above
  | pop => exact ends_map.mpr (pop_rests above)
  | popType type => exact ends_map.mpr (popType_rests above type)
  | popTypes types => exact ends_map.mpr (popTypes_rests above types)
  | accepts types => exact .refl above
  | holdsExactly types => exact .refl above
  | reset types values =>
      have cleared := rests_cleared (s := s) false above
      exact cleared.trans (rests_extend (withValues types values) cleared.above)
  | becomePolymorphic => exact rests_cleared true above

theorem enter_keeps {e : Fault} (failed : enter params s = .error e t) : t = s := by
  have ends : Ends (enter params) s (fun _ _ => True) fun _ u => u = s := by
    rw [enter, ends_bind]
    exact ends_of_forall (fun _ _ _ => trivial) fun _ _ failed => popTypes_keeps failed
  exact ends.of_error failed

/-- The stack has one frame on what is below it, and in it a frame for each mark: each lies on the
stack that its mark was made of. -/
inductive BracketedOn (w : TypedStack) : List Mark → TypedStack → Prop
  | outermost {u : TypedStack} (on : Over w u) (above : u.floor ≤ u.height) : BracketedOn w [] u
  | inner {marks : List Mark} {v u : TypedStack} (inside : BracketedOn w marks v) (on : Over v u)
      (above : u.floor ≤ u.height) : BracketedOn w (v.mark :: marks) u

namespace BracketedOn

theorem above (inside : BracketedOn w marks u) : u.floor ≤ u.height := by
  cases inside <;> assumption

theorem rests (inside : BracketedOn w marks u) (rests : Rests u t) : BracketedOn w marks t := by
  cases inside with
  | outermost on _ => exact .outermost (on.rests rests) rests.above
  | inner inside on _ => exact .inner inside (on.rests rests) rests.above

theorem entered (inside : BracketedOn w marks u) (params : List ValueType) :
    BracketedOn w ((u.without params).mark :: marks) (u.entered params) :=
  .inner (inside.rests (rests_without params inside.above)) (over_entered params)
    (holds_entered params).above

theorem left (inside : BracketedOn w (m :: marks) u) : BracketedOn w marks (u.left m) := by
  cases inside with
  | inner inside on above =>
      rw [mark, on.left above]
      exact inside

theorem beneath (inside : BracketedOn w marks u) :
    u.operands.toList.take w.height = w.operands.toList ∧ w.height ≤ u.floor := by
  induction inside with
  | outermost on _ => exact ⟨on.below, Nat.le_of_eq on.floor.symm⟩
  | @inner marks v u inside on _ ih =>
      have reach : w.height ≤ v.height := Nat.le_trans ih.2 inside.above
      constructor
      · rw [← ih.1, ← on.below, List.take_take, Nat.min_eq_left reach]
      · rw [on.floor]
        exact reach

theorem step {f g : FramedStack} {move : Move} (inside : BracketedOn w f.marks f.stack)
    (done : f.step move = some g) : BracketedOn w g.marks g.stack := by
  cases move with
  | call call =>
      cases done
      exact inside.rests (call.rests inside.above)
  | enter params =>
      simp only [FramedStack.step] at done
      split at done
      · rename_i opened
        cases done
        obtain ⟨-, rfl, rfl⟩ := enter_ok.mp opened
        exact inside.entered params
      · rename_i failed
        cases done
        rw [enter_keeps failed]
        exact inside
  | leave =>
      obtain ⟨stack, marks⟩ := f
      cases marks with
      | nil => cases done
      | cons mark marks =>
          cases done
          exact inside.left

theorem run {f g : FramedStack} {moves : List Move} (inside : BracketedOn w f.marks f.stack)
    (done : f.run moves = some g) : BracketedOn w g.marks g.stack := by
  induction moves generalizing f with
  | nil =>
      cases done
      exact inside
  | cons move moves ih =>
      simp only [FramedStack.run, List.foldlM_cons, Option.bind_eq_bind, Option.bind_eq_some_iff] at done
      obtain ⟨between, first, rest⟩ := done
      exact ih (inside.step first) rest

end BracketedOn

end WasmFunclets.TypedStack
