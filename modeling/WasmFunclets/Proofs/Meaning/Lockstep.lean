import WasmFunclets.Proofs.Meaning.Steps

/-! An accepted body and the function that is built from it run in lockstep: the function carries out the
same operations on the same values in the same order, and has the results at its exit. -/

namespace WasmFunclets

namespace Validation

open Attempt

variable {context : Context} {bytes : List UInt8} {code : List Located} {states : Nat → State}
variable {f : Ssa.Forest} {k : Nat} {s : State}

instance : Ssa.Builder.Edgeless Ssa.Builder.paramCount where
  values _ _ _ _ := rfl
  block _ _ _ _ := rfl
  edge _ _ _ _ := rfl

theorem openFunction_fresh (opened : openFunction context (initial bytes) = .ok () s) :
    s.current = Ssa.Builder.entryId ∧ s.builder.paramCount = context.signature.params.length ∧
      ∀ c, s.builder.bodyOf c = #[] := by
  simp only [openFunction, bind_ok, onCursor_ok, modify_ok, newTarget_ok, pushFrame_ok] at opened
  obtain ⟨types, _, ⟨cursor, declared, rfl⟩, _, _, rfl, exit, _, ⟨b, made, rfl⟩, _, _, rfl, rfl⟩ := opened
  have count : Leaves Ssa.Builder.paramCount (target .exit context.signature.results) :=
    along_bind (along_bind along_get fun _ => along_bind (along_modify fun _ => rfl) fun _ => along_pure _)
      fun _ => along_bind (Ssa.Builder.declareArguments_leaves _ _) fun _ => along_pure _
  have bodies : Leaves Ssa.Builder.bodyOf (target .exit context.signature.results) :=
    along_bind (Ssa.Builder.addBlock_bodyOf _) fun _ =>
      along_bind (Ssa.Builder.declareArguments_leaves _ _) fun _ => along_pure _
  refine ⟨rfl, count.of_ok made, fun c => (congrFun (bodies.of_ok made) c).trans ?_⟩
  rw [Ssa.Builder.bodyOf]
  cases present : (Ssa.Builder.ofLocals types context.signature.params.length).blocks[c]? with
  | none => rfl
  | some k =>
      obtain ⟨_, rfl⟩ := Ssa.Builder.block_ofLocals present
      rfl

theorem Story.stateAfter (story : Story context bytes code states f) (inside : k ≤ code.length) :
    stateAfter ⟨context, true⟩ bytes k = some (states k) := by
  induction k with
  | zero => rw [Validation.stateAfter, story.opened]
  | succ k ih =>
      have isOpen : (states k).control.isEmpty = false := by
        simpa using story.isOpen inside
      rw [Validation.stateAfter, ih (Nat.le_of_succ_le inside), Option.bind_eq_bind, Option.bind_some, isOpen]
      simp [(story.passes k inside).step]

end Validation

namespace Machine

open Validation
open Ssa (Forest Point)

variable {V : Type} {context : Context} {bytes : List UInt8} {body : ValidBody}

/-- What the machine is in front of an instruction, the function is at the place up to which its block was
filled when the validation came to the instruction: the operands and the locals that were known then have
the values of the machine, and all that has been computed is the same. -/
structure At (s : State) (b : Ssa.Builder) (c : Config V) (x : Point V) : Prop where
  block : x.block = s.current
  position : x.position = (s.builder.bodyOf x.block).size
  history : x.history = c.history
  stack : List.Forall₂ (fun a o => ∃ v, o.value = some v ∧ x.read b v = some a.datum) c.stack
    s.stack.operands.toList
  locals : ∀ (slot : Nat) (a : Typed V) (v : ValueId), c.locals[slot]? = some a →
    s.builder.definition x.block slot = some v → x.read b v = some a.datum

/-- A configuration of the machine and the point of the function for its instruction. -/
def Corresponds (context : Context) (bytes : List UInt8) (b : Ssa.Builder) (c : Config V) (x : Point V) :
    Prop :=
  ∃ s, stateAfter ⟨context, true⟩ bytes c.pc = some s ∧ At s b c x

/-- Machine and function go step by step through corresponding points, up to the outcome. For each step of
the machine, the function carries out instructions of one block, and goes over one edge at the most. -/
inductive Lockstep (context : Context) (bytes : List UInt8) (body : ValidBody) (p : Program V) :
    List Nat → Config V → Point V → Outcome V → Prop where
  | stop {c : Config V} {x : Point V} (here : Corresponds context bytes body.builder c x) :
      Lockstep context bytes body p [] c x (.running c)
  | step {decision : Nat} {decisions : List Nat} {c d : Config V} {x y : Point V} {outcome : Outcome V}
      (here : Corresponds context bytes body.builder c x)
      (steps : p.step decision c = .ok (.running d)) (moves : x.GoesTo body.builder p.meaning y)
      (rest : Lockstep context bytes body p decisions d y outcome) :
      Lockstep context bytes body p (decision :: decisions) c x outcome
  | returns {decision : Nat} {decisions : List Nat} {c : Config V} {x y : Point V}
      {results : List (Typed V)} {history : List (Event V)}
      (here : Corresponds context bytes body.builder c x)
      (steps : p.step decision c = .ok (.returned results history))
      (moves : x.GoesTo body.builder p.meaning y)
      (returns : Returns body.builder body.exit results history y) :
      Lockstep context bytes body p (decision :: decisions) c x (.returned results history)
  | traps {decision : Nat} {decisions : List Nat} {c : Config V} {x y : Point V} {history : List (Event V)}
      (here : Corresponds context bytes body.builder c x)
      (steps : p.step decision c = .ok (.trapped history))
      (performs : x.Performs body.builder p.meaning y) (same : y.history = history) :
      Lockstep context bytes body p (decision :: decisions) c x (.trapped history)

section

variable {states : Nat → State} {f : Forest} {p : Program V} {c : Config V} {x : Point V}

theorem Meets.corresponds (meets : Meets p.code states f c x)
    (story : Story context bytes p.code states f) : Corresponds context bytes (finished p.code states) c x := by
  refine ⟨states c.pc, story.stateAfter (Nat.le_of_lt meets.within), meets.block, meets.position,
    meets.history, reads_of_matches meets.stack, fun slot a v here known => ?_⟩
  by_cases wrote : Wrote p.code states c.pc x.block slot
  · obtain ⟨w, written, read⟩ := meets.written slot a here wrote
    cases known.symm.trans written
    exact read
  · exact meets.fresh slot a here wrote v (story.startsWith_at (Nat.le_of_lt meets.within) known wrote)

/-- From a point where both have the same, a run goes in lockstep. -/
theorem lockstep_of_meets (described : Described p ⟨context, true⟩ states)
    (story : Story context bytes p.code states f) (built : body.builder = finished p.code states)
    (exit : body.exit = (states p.code.length).exit) (live : Live p states c)
    (meets : Meets p.code states f c x) (decisions : List Nat) :
    ∃ outcome, p.run decisions c = .ok outcome ∧ Lockstep context bytes body p decisions c x outcome := by
  -- A step keeps `Live` and `Meets`, and wherever the decisions end the states correspond.
  induction decisions generalizing c x with
  | nil => exact ⟨_, rfl, .stop (built ▸ meets.corresponds story)⟩
  | cons decision rest ih =>
      have here : Corresponds context bytes body.builder c x := built ▸ meets.corresponds story
      have sound := step_sound described live decision
      have answers := step_answers described story live meets decision
      rw [Program.run]
      cases steps : p.step decision c with
      | error flaw => simp [steps, LiveOrEnded] at sound
      | ok result =>
          rw [steps] at sound answers
          cases result with
          | running d =>
              obtain ⟨y, moves, meets⟩ := answers
              obtain ⟨outcome, runs, lockstep⟩ := ih sound meets
              exact ⟨outcome, runs, .step here steps (built ▸ moves) lockstep⟩
          | returned results history =>
              obtain ⟨y, moves, returns⟩ := answers
              exact ⟨_, rfl, .returns here steps (built ▸ moves) (built ▸ exit ▸ returns)⟩
          | trapped history =>
              obtain ⟨y, performs, same⟩ := answers
              exact ⟨_, rfl, .traps here steps (built ▸ performs) same⟩

/-- What a local starts with is the parameter or zero that the machine has for it. -/
theorem start_reads {b : Ssa.Builder} {zero : ValueType → V} {args : List (Typed V)} {slot : Nat}
    {v : ValueId} {a : Typed V} (initial : b.IsInitial slot (b.representative v))
    (size : args.length = b.paramCount)
    (here : (args ++ (b.locals.toList.drop args.length).map fun type => ⟨type, zero type⟩)[slot]? = some a) :
    (Point.start b zero (args.map Typed.datum)).read b v = some a.datum := by
  obtain ⟨type, known, shown⟩ := initial
  obtain ⟨⟨type', home, content⟩, present, plain⟩ := Option.map_eq_some_iff.mp shown
  rw [Point.read, Point.start]
  dsimp only
  rw [present]
  by_cases small : slot < b.paramCount
  · rw [if_pos small] at plain
    rw [List.getElem?_append_left (by omega)] at here
    cases content <;> cases plain
    dsimp only
    rw [List.getElem?_map, here]
    rfl
  · rw [if_neg small] at plain
    rw [List.getElem?_append_right (by omega), List.getElem?_map, List.getElem?_drop,
      Nat.add_sub_cancel' (by omega), Array.getElem?_toList, known] at here
    cases content <;> cases plain
    cases here
    rfl

/-- A run starts in the entry with the values of the locals. -/
theorem start_meets (story : Story context bytes p.code states f)
    (zero : ValueType → V) {args : List (Typed V)} (size : args.length = context.signature.params.length)
    (same : p.zero = zero) (types : p.locals = (finished p.code states).locals.toList)
    (live : Live p states (p.start args)) : Meets p.code states f (p.start args)
      (Point.start (finished p.code states) zero (args.map Typed.datum)) := by
  obtain ⟨current, count, bodies⟩ := openFunction_fresh story.opened
  obtain ⟨_, _, _, stack, _⟩ := openFunction_ok story.opened
  obtain ⟨_, sound, _⟩ := story.whole
  have later := story.later (Nat.zero_le _) (Nat.le_refl _)
  exact {
    pc := rfl
    within := live.inside
    agrees := live.agrees
    rests := .refl live.agrees.above
    lasts := .refl (story.aliased (Nat.zero_le _))
    onward := story.lasts (Nat.zero_le _) (Nat.le_refl _)
    block := current.symm
    current := rfl
    reachable := ⟨_, .entry⟩
    position := (congrArg Array.size (bodies _)).symm
    history := rfl
    stack := by
      rw [show (p.start args).pc = 0 from rfl, stack]
      exact .nil
    written := fun slot a here ⟨j, before, _⟩ => absurd before (Nat.not_lt_zero j)
    fresh := fun slot a here _ v starts => by
      have size : args.length = (finished p.code states).paramCount := by rw [later.paramCount, count, size]
      cases starts with
      | initial _ value =>
          refine start_reads value size ?_
          rw [← types, ← same]
          exact here
      | phi own _ _ => exact absurd rfl (sound.phi_inner own)
      | passed _ inner _ _ => exact absurd rfl inner }

end

end Machine

end WasmFunclets
