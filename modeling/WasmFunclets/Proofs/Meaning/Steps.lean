import WasmFunclets.Proofs.Meaning.Constructs

/-! Every step of the machine is one of the function: it carries out what its block has for the instruction,
and goes over an edge where the machine leaves the block. -/

namespace WasmFunclets.Machine

open Validation Attempt
open Ssa (Forest Point)

variable {V : Type} {context : Context} {bytes : List UInt8} {states : Nat → State} {f : Forest}
variable {c d e : Config V} {x y : Point V} {p : Program V} {cursor : Cursor} {line : Located}
variable {result : Except Flaw (Outcome V)}

theorem Live.agrees_at {k : Nat} (live : Live p states d) (pc : d.pc = k) : Agrees d (states k).stack :=
  pc ▸ live.agrees

variable (described : Described p ⟨context, true⟩ states) (story : Story context bytes p.code states f)

include story in
theorem CarriesOut.answers (carries : CarriesOut p p.code states f c.pc x result)
    (keeps : KeepsLocals p.code c.pc)
    (sound : LiveOrEnded p states result) : Answers p states f x result := by
  cases result with
  | error flaw => trivial
  | ok outcome =>
      obtain ⟨d, y, rfl, performs, shows⟩ := carries outcome rfl
      exact ⟨y, .within performs, shows.next story keeps (shows.pc ▸ sound.inside)
        (sound.agrees_at (congrArg (· + 1) shows.pc))⟩

include described story

/-- What the machine does for an instruction, the function does alike. -/
theorem execute_answers (live : Live p states c) (meets : Meets p.code states f c x) (decision : Nat)
    (present : p.code[c.pc]? = some line)
    (taken : Taken ⟨context, true⟩ (states c.pc) line (states (c.pc + 1)) cursor) :
    Answers p states f x (p.execute decision line c) := by
  have sound := execute_sound described live decision taken
  have inside := live.inside
  have fetched := meets.fetched cursor
  have agrees : Agrees c ((states c.pc).fetched cursor).stack := live.agrees
  have same : p.code[c.pc] = line := (List.getElem?_eq_some_iff.mp present).2
  have keeps (still : ∀ slot, ¬ line.instruction.Writes slot) : KeepsLocals p.code c.pc := fun _ here =>
    Option.some.inj (present.symm.trans here) ▸ still
  obtain ⟨offset, instruction⟩ := line
  have ok := taken.executed
  have knows := taken.knows
  have moves := taken.moves
  cases instruction with
  | unreachable =>
      obtain ⟨_, u, emitted, ended⟩ := bind_ok.mp ok
      have lands : Lands (endBlock ⟨context, true⟩) := lands_endBlock _
      obtain ⟨y, performs, shows, _⟩ := fetched.statement story p (n := 0) .nil emitted
        fun aliased => ((lands u).lasts ended aliased).trans (story.lasts inside (Nat.le_refl _))
      exact ⟨y, .single performs, shows.history⟩
  | nop =>
      have stays : (states c.pc).fetched cursor = states (c.pc + 1) := (pure_ok.mp ok).2
      have shows := stays ▸ fetched
      exact ⟨x, .within (.refl x), shows.next story (keeps fun _ => id) sound.inside sound.agrees⟩
  | block signature => exact openBlock_answers described story live meets (keeps fun _ => id) moves ok
  | loop signature => exact openLoop_answers described story live meets (keeps fun _ => id) moves ok
  | ifThen signature => exact openIf_answers described story live meets (keeps fun _ => id) moves ok
  | elseThen => exact openElse_answers described story live meets (keeps fun _ => id) ok
  | close => exact close_answers described story live meets moves ok (keeps fun _ => id)
  | br depth => exact br_answers story described live meets (keeps fun _ => id) ok
  | brIf depth => exact brIf_answers story described live meets (keeps fun _ => id) ok
  | brTable depths default => exact brTable_answers story described live meets (keeps fun _ => id) ok
  | ret => exact ret_answers story described live meets (keeps fun _ => id) ok
  | call index callee =>
      have typed := described.valueTyped.functions callee (Array.mem_of_getElem? knows)
      refine (call_carriesOut story fetched (fun t member => ?_) ok).answers story (keeps fun _ => id) sound
      exact ValueType.ne_any (typed t (List.mem_append_right _ member))
  | drop => exact (drop_carriesOut fetched ok).answers story (keeps fun _ => id) sound
  | select => exact (select_carriesOut story fetched ok).answers story (keeps fun _ => id) sound
  | selectTyped type =>
      exact (selectTyped_carriesOut story fetched (ValueType.ne_any knows) ok).answers story
        (keeps fun _ => id) sound
  | localGet slot type =>
      have known := (live.local_typed described knows).2
      exact (localGet_carriesOut story meets known inside (keeps fun _ => id) ok).answers story
        (keeps fun _ => id) sound
  | localSet slot type =>
      obtain ⟨typed, _⟩ := live.local_typed described knows
      obtain ⟨value, u, written, rest⟩ := bind_ok.mp ok
      obtain rfl : u = states (c.pc + 1) := (pure_ok.mp rest).2
      obtain ⟨d, machine, beside, _⟩ := localSet_agrees agrees typed written
      change LiveOrEnded p states (do return .running (← Program.localSet slot type c).next) at sound
      change Answers p states f x (do return .running (← Program.localSet slot type c).next)
      rw [machine] at sound ⊢
      exact ⟨x, .within (.refl x), localSet_meets story meets inside (by simp [same, Instruction.Writes])
        written machine (beside.pc ▸ sound.inside) (sound.agrees_at (congrArg (· + 1) beside.pc))⟩
  | localTee slot type =>
      obtain ⟨typed, known⟩ := live.local_typed described knows
      obtain ⟨value, u, written, put⟩ := bind_ok.mp ok
      obtain ⟨d, machine, beside, _⟩ := localSet_agrees agrees typed written
      obtain ⟨a, read, _⟩ := localOf_ok (c := d) (beside.locals.symm ▸ typed)
      change LiveOrEnded p states (do
        let c ← Program.localSet slot type c
        return .running (c.push type (← Program.localOf slot type c).datum).next) at sound
      change Answers p states f x (do
        let c ← Program.localSet slot type c
        return .running (c.push type (← Program.localOf slot type c).datum).next)
      rw [machine] at sound ⊢
      simp only [bind, Except.bind, read] at sound ⊢
      exact ⟨x, .within (.refl x), localTee_meets story meets inside known (by simp [same, Instruction.Writes])
        ok machine read (beside.pc ▸ sound.inside) (sound.agrees_at (congrArg (· + 1) beside.pc))⟩
  | constant type bits =>
      exact (constant_carriesOut story fetched (ValueType.ne_any knows) ok).answers story (keeps fun _ => id) sound
  | operation opcode params result immediate =>
      obtain ⟨_, known⟩ := described.knowsGlobal knows
      exact (operation_carriesOut story fetched known ok).answers story (keeps fun _ => id) sound
  | funcletRegion signature funclets =>
      have answers := funcletRegion_answers described story live meets moves ok (keeps fun _ => id)
      rw [← taken.offset] at answers
      exact answers
  | strayFuncletSig => simp [execute, strayFuncletSig] at ok
  | funcletCall index => exact funcletCall_answers story described live meets (keeps fun _ => id) ok
  | funcletCallIf index => exact funcletCallIf_answers story described live meets (keeps fun _ => id) ok
  | funcletCallTable targets default =>
      exact funcletCallTable_answers story described live meets (keeps fun _ => id) ok

theorem step_answers (live : Live p states c) (meets : Meets p.code states f c x) (decision : Nat) :
    Answers p states f x (p.step decision c) := by
  obtain ⟨cursor, taken⟩ := described.course.taken live.inside
  rw [Program.step, List.getElem?_eq_getElem live.inside]
  exact execute_answers described story live meets decision (List.getElem?_eq_getElem _) taken

end WasmFunclets.Machine
