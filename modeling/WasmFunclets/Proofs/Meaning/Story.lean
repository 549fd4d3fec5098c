import WasmFunclets.Proofs.Aligned.Accepted
import WasmFunclets.Proofs.Filled
import WasmFunclets.Proofs.Ssa.Carried
import WasmFunclets.Proofs.Ssa.Lasts

/-! The states of the validation of an accepted body, and the function that it builds, seen from its end:
what is known at a place of the code is known in the finished function, under the origins that its blocks
have there. -/

namespace WasmFunclets.Validation

open Attempt
open Ssa (Forest)

variable {context : Context} {bytes : List UInt8} {code : List Located} {states : Nat → State}
variable {f g : Forest} {written : BlockId → Nat → Prop} {n k : Nat}

def Wrote (code : List Located) (states : Nat → State) (k : Nat) (c : BlockId) (slot : Nat) : Prop :=
  ∃ j < k, ∃ line, code[j]? = some line ∧ (states j).current = c ∧ line.instruction.Writes slot

def KeepsLocals (code : List Located) (k : Nat) : Prop :=
  ∀ line, code[k]? = some line → ∀ slot, ¬ line.instruction.Writes slot

/-- A state agrees with the function under construction, as far as origins and writes are concerned. -/
def Linked (context : Context) (code : List Located) (states : Nat → State) (f : Forest) (k : Nat) :
    Prop :=
  ∃ g written, g.Grows f ∧ (∀ c slot, written c slot → Wrote code states k c slot) ∧
    Aligned context false g written [] (states k)

/-- The course of the validation of an accepted body, with the origins of all blocks of its function. -/
structure Story (context : Context) (bytes : List UInt8) (code : List Located) (states : Nat → State)
    (f : Forest) : Prop extends Course ⟨context, true⟩ code states where
  opened : openFunction context (initial bytes) = .ok () (states 0)
  reached : ∀ k ≤ code.length, Reached ⟨context, true⟩ bytes (states k)
  linked : ∀ k ≤ code.length, Linked context code states f k
  last : ∃ written, (∀ c slot, written c slot → Wrote code states code.length c slot) ∧
    Aligned context false f written [] (states code.length)
  grows : ∀ k < code.length, KeepsLocals code k → (states k).builder.Grows (states (k + 1)).builder

theorem Passes.isOpen_ne {setting : Setting} {s t : State} {line : Located}
    (passes : Passes setting s line t) : s.control ≠ #[] := by
  intro empty
  simpa [empty] using passes.isOpen

theorem Passes.step {setting : Setting} {s t : State} {line : Located}
    (passes : Passes setting s line t) : Validation.step setting s = .ok () t := by
  obtain ⟨u, fetched, executed⟩ := passes.executed
  simp only [step_eq, bind_ok, modify_ok]
  exact ⟨_, u, fetched, (), _, rfl, executed⟩

theorem Course.reached (course : Course ⟨context, true⟩ code states)
    (opened : openFunction context (initial bytes) = .ok () (states 0)) (inside : k ≤ code.length) :
    Reached ⟨context, true⟩ bytes (states k) := by
  induction k with
  | zero => exact .opened opened
  | succ k ih =>
      have passes := course.passes k inside
      exact .step (ih (Nat.le_of_succ_le inside)) passes.isOpen_ne passes.step

theorem Reached.unused_of_passes {s t : State} {line : Located} (reached : Reached ⟨context, true⟩ bytes s)
    (passes : Passes ⟨context, true⟩ s line t) : ¬ s.builder.Used s.current :=
  reached.unused passes.isOpen_ne

theorem Course.stepped (course : Course ⟨context, true⟩ code states)
    (opened : openFunction context (initial bytes) = .ok () (states 0)) (inside : k < code.length)
    (aligned : Aligned context false g written [] (states k)) :
    ∃ c, Stepped context false g written code[k].instruction ((states k).fetched c) (states (k + 1)) := by
  obtain ⟨c, taken⟩ := course.taken inside
  have reached := course.reached opened (Nat.le_of_lt inside)
  exact ⟨c, (execute_aligned (aligned.reading c _ _) ((course.framed inside).fetched c)
    (reached.unused_of_passes (course.passes k inside)) taken.knows nofun).of_ok taken.executed⟩

theorem Wrote.step (inside : k < code.length) {c : BlockId} {slot : Nat}
    (wrote : Wrote code states k c slot ∨ c = (states k).current ∧ code[k].instruction.Writes slot) :
    Wrote code states (k + 1) c slot := by
  rcases wrote with ⟨j, before, line, here, at_, writes⟩ | ⟨rfl, writes⟩
  · exact ⟨j, Nat.lt_succ_of_lt before, line, here, at_, writes⟩
  · exact ⟨k, Nat.lt_succ_self k, _, List.getElem?_eq_getElem inside, rfl, writes⟩

/-- The origins of all blocks up to a place of the code. -/
theorem Course.linked (course : Course ⟨context, true⟩ code states)
    (opened : openFunction context (initial bytes) = .ok () (states 0)) (inside : n ≤ code.length) :
    ∃ f written, (∀ c slot, written c slot → Wrote code states n c slot) ∧
      Aligned context false f written [] (states n) ∧ ∀ k ≤ n, Linked context code states f k := by
  induction n with
  | zero =>
      obtain ⟨⟨f, aligned⟩, _⟩ :=
        (@openFunction_aligned false context nofun bytes).of_ok opened
      refine ⟨f, _, fun _ _ => False.elim, aligned, fun k le => ?_⟩
      obtain rfl := Nat.le_zero.mp le
      exact ⟨f, _, .refl f, fun _ _ => False.elim, aligned⟩
  | succ n ih =>
      obtain ⟨f, written, known, aligned, before⟩ := ih (Nat.le_of_succ_le inside)
      obtain ⟨_, stepped⟩ := course.stepped opened inside aligned
      obtain ⟨g, written', grows, fewer, aligned'⟩ := stepped.aligned
      have known' (c : BlockId) (slot : Nat) (writes : written' c slot) :
          Wrote code states (n + 1) c slot :=
        .step inside ((fewer c slot writes).imp_left (known c slot))
      refine ⟨g, written', known', aligned', fun k le => ?_⟩
      rcases Nat.le_succ_iff.mp le with old | rfl
      · obtain ⟨h, w, grown, wrote, linked⟩ := before k old
        exact ⟨h, w, grown.trans grows, wrote, linked⟩
      · exact ⟨g, written', .refl g, known', aligned'⟩

theorem story_of_course (course : Course ⟨context, true⟩ code states)
    (opened : openFunction context (initial bytes) = .ok () (states 0)) :
    ∃ f, Story context bytes code states f := by
  obtain ⟨f, written, known, aligned, linked⟩ := course.linked opened (Nat.le_refl _)
  refine ⟨f, course, opened, fun k => course.reached opened, linked, ⟨written, known, aligned⟩,
    fun k inside keeps => ?_⟩
  obtain ⟨_, _, _, _, aligned⟩ := linked k (Nat.le_of_lt inside)
  obtain ⟨_, stepped⟩ := course.stepped opened inside aligned
  exact stepped.grows (keeps _ (List.getElem?_eq_getElem inside))

abbrev finished (code : List Located) (states : Nat → State) : Ssa.Builder :=
  (states code.length).builder

namespace Story

variable {j : Nat} {c : BlockId} {slot : Nat} {d e v : ValueId}
variable (story : Story context bytes code states f)
include story

theorem isOpen (inside : k < code.length) : (states k).control ≠ #[] :=
  (story.passes k inside).isOpen_ne

theorem aliased (inside : k ≤ code.length) : (states k).builder.Aliased := by
  obtain ⟨_, _, _, _, aligned⟩ := story.linked k inside
  exact aligned.built.reduced.toAliased

theorem lasts (le : j ≤ k) (inside : k ≤ code.length) :
    (states j).builder.Lasts (states k).builder := by
  induction k, le using Nat.le_induction with
  | base => exact .refl (story.aliased inside)
  | succ k le ih =>
      have before := Nat.le_of_succ_le inside
      obtain ⟨_, performs, _⟩ := ((story.reached k before).stepLogged (story.isOpen inside)).of_ok
        (story.passes k inside).step
      exact (ih before).trans (performs.lasts (story.aliased before))

theorem later (le : j ≤ k) (inside : k ≤ code.length) :
    (states j).builder.Later (states k).builder := by
  induction k, le using Nat.le_induction with
  | base =>
      obtain ⟨_, _, _, _, aligned⟩ := story.linked j inside
      exact (Ssa.Builder.Grows.refl aligned.built.sound.formed).toLater
  | succ k le ih =>
      have before := Nat.le_of_succ_le inside
      exact (ih before).trans ((story.reached k before).later (story.isOpen inside)
        (story.passes k inside).step)

theorem unused (inside : k < code.length) : ¬ (states k).builder.Used (states k).current :=
  (story.reached k (Nat.le_of_lt inside)).unused (story.isOpen inside)

theorem body_of_used (le : j ≤ k) (inside : k ≤ code.length) (used : (states j).builder.Used c) :
    (states k).builder.bodyOf c = (states j).builder.bodyOf c := by
  induction k, le using Nat.le_induction with
  | base => rfl
  | succ k le ih =>
      have before := Nat.le_of_succ_le inside
      obtain ⟨_, _, body⟩ := (story.reached k before).left (story.isOpen inside) (story.passes k inside).step
        ((story.later le before).used used)
      exact body.trans (ih before)

theorem wrote_of_used (used : (states k).builder.Used c)
    (wrote : Wrote code states code.length c slot) : Wrote code states k c slot := by
  obtain ⟨j, within, line, here, at_, writes⟩ := wrote
  refine ⟨j, ?_, line, here, at_, writes⟩
  by_contra beyond
  exact story.unused within (at_ ▸ (story.later (Nat.le_of_not_lt beyond) (Nat.le_of_lt within)).used used)

theorem closed_ : (states code.length).frames = [] ∧ (states code.length).regions = [] := by
  have closed := story.closed
  rw [Array.isEmpty_iff] at closed
  have frames : (states code.length).frames = [] := by simp [State.frames, closed]
  exact ⟨frames, (story.reached _ (Nat.le_refl _)).loose.bottom frames⟩

theorem whole : ∃ written, (finished code states).Consistent false written ∧
    (finished code states).Rooted f written ∧ (finished code states).Final ∧
      ∀ c slot, written c slot → Wrote code states code.length c slot := by
  obtain ⟨written, known, aligned⟩ := story.last
  obtain ⟨frames, regions⟩ := story.closed_
  exact ⟨written, aligned.built.sound, aligned.built.rooted, aligned.final frames regions, known⟩

theorem startsWith (known : (finished code states).definition c slot = some e)
    (unwritten : ¬ Wrote code states code.length c slot) : (finished code states).StartsWith c slot e := by
  obtain ⟨_, sound, _, _, fewer⟩ := story.whole
  exact (sound.flow.starts known).resolve_left fun written => unwritten (fewer c slot written)

theorem startsWith_at (inside : k ≤ code.length) (known : (states k).builder.definition c slot = some e)
    (unwritten : ¬ Wrote code states k c slot) : (finished code states).StartsWith c slot e := by
  obtain ⟨_, _, _, fewer, aligned⟩ := story.linked k inside
  obtain ⟨_, sound, _⟩ := story.whole
  exact ((aligned.built.sound.flow.starts known).resolve_left fun written =>
    unwritten (fewer c slot written)).later (story.later inside (Nat.le_refl _)) sound.formed

theorem definition (inside : k ≤ code.length) (used : (states k).builder.Used c)
    (known : (states k).builder.definition c slot = some d)
    (last : (finished code states).definition c slot = some e) :
    (finished code states).representative e = (finished code states).representative d := by
  obtain ⟨e', found, same⟩ := (story.later inside (Nat.le_refl _)).definition known used
  cases last.symm.trans found
  exact same

theorem older (inside : k ≤ code.length) {g : Forest} (grows : g.Grows f)
    (reaches : (states k).builder.Reaches g c v) (below : v < (states k).builder.values.size) :
    (finished code states).Older f (states k).builder.values.size c v := by
  obtain ⟨_, sound, _⟩ := story.whole
  have later := story.later inside (Nat.le_refl _)
  obtain ⟨u, smaller, same, stands⟩ := reaches.bounded below
  exact ⟨u, smaller, later.same same, stands.grow later sound.formed grows⟩

theorem older_definition (inside : k ≤ code.length)
    (known : (states k).builder.definition c slot = some d) :
    (finished code states).Older f (states k).builder.values.size c d := by
  obtain ⟨_, _, grows, _, aligned⟩ := story.linked k inside
  have sound := aligned.built.sound
  exact story.older inside grows (Ssa.Builder.definition_reaches sound aligned.built.rooted known)
    (sound.flow.definition_lt known).1

theorem older_operand (inside : k ≤ code.length)
    (reachable : (finished code states).Reachable (states k).current) {o : Operand}
    (member : o ∈ (states k).stack.operands.toList) : ∃ v, o.value = some v ∧
      (finished code states).Older f (states k).builder.values.size (states k).current v := by
  obtain ⟨_, _, grows, _, aligned⟩ := story.linked k inside
  obtain ⟨_, backs⟩ := aligned.operands o member
  split at backs
  · rename_i v value
    exact ⟨v, value, story.older inside grows backs.reaches backs.lt⟩
  · obtain ⟨_, _, rooted, _⟩ := story.whole
    exact absurd (backs.1.grow grows) (reachable.not_dead rooted)

theorem below (inside : k ≤ code.length) {frame : Frame} (member : frame ∈ (states k).frames) :
    ∃ a, f[frame.target]? = some (some a) ∧
      ∀ o ∈ (states k).stack.operands.toList.take frame.mark.height, ∀ v, o.value = some v →
        (finished code states).Reaches f a v := by
  obtain ⟨_, _, grows, _, aligned⟩ := story.linked k inside
  obtain ⟨_, sound, _⟩ := story.whole
  obtain ⟨a, entered⟩ := aligned.frames frame member
  refine ⟨a, grows _ _ entered.made, fun o listed v value => ?_⟩
  obtain ⟨_, backs⟩ := entered.below o listed
  rw [value] at backs
  exact backs.reaches.grow (story.later inside (Nat.le_refl _)) sound.formed grows

theorem funclets (inside : k ≤ code.length) {r : OpenRegion} (member : r ∈ (states k).regions) :
    ∀ block ∈ r.blocks, f[block]? = f[r.exit]? := by
  obtain ⟨_, _, grows, _, aligned⟩ := story.linked k inside
  obtain ⟨e, made, each⟩ := (aligned.regions r member).made
  intro block listed
  rw [grows _ _ made, grows _ _ (each block listed)]

end Story

end WasmFunclets.Validation
