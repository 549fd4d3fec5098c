import WasmFunclets.Proofs.Exits
import WasmFunclets.Proofs.Meaning.Story

/-! Blocks that a validation has not come to yet: they are empty and have written nothing. Among them are
the blocks that open constructs go on in, and those of the funclets that are still to come. -/

namespace WasmFunclets.Validation

open Attempt
open Ssa (Forest)

variable {context : Context} {bytes : List UInt8} {code : List Located} {states : Nat → State}
variable {f : Forest} {k j n slot : Nat} {c : BlockId} {l : Layer} {outer : List Layer}

def Unseen (states : Nat → State) (k : Nat) (c : BlockId) : Prop := ∀ j < k, (states j).current ≠ c

theorem Unseen.succ (unseen : Unseen states k c) (other : (states k).current ≠ c) :
    Unseen states (k + 1) c := by
  intro j before
  rcases Nat.lt_succ_iff_lt_or_eq.mp before with earlier | rfl
  · exact unseen j earlier
  · exact other

theorem Unseen.not_wrote (unseen : Unseen states k c) : ¬ Wrote code states k c slot := by
  rintro ⟨j, before, _, _, at_, _⟩
  exact unseen j before at_

theorem openFunction_bodies {t : State} (ok : openFunction context (initial bytes) = .ok () t) :
    t.builder.bodyOf c = #[] := by
  simp only [openFunction, bind_ok, onCursor_ok, modify_ok, newTarget_ok, pushFrame_ok] at ok
  obtain ⟨locals, _, ⟨_, _, rfl⟩, _, _, rfl, _, _, ⟨b, built, rfl⟩, _, _, rfl, rfl⟩ := ok
  have bodies : Leaves Ssa.Builder.bodyOf (target .exit context.signature.results) :=
    along_bind (Ssa.Builder.addBlock_bodyOf _) fun _ =>
      along_bind (Ssa.Builder.declareArguments_leaves _ _) fun _ => along_pure _
  change b.bodyOf c = _
  rw [bodies.of_ok built]
  cases c <;> rfl

namespace Story

variable (story : Story context bytes code states f)
include story

theorem body_of_other (inside : k < code.length) (other : (states k).current ≠ c) :
    (states (k + 1)).builder.bodyOf c = (states k).builder.bodyOf c := by
  obtain ⟨_, taken⟩ := story.taken inside
  obtain ⟨frame, _, _, found, _⟩ := ((story.framed inside).fetched _).cons
  obtain ⟨_, performs, front, back, rfl, fills, links⟩ :=
    (execute_orderly found code[k].instruction).of_ok taken.executed
  refine performs.bodyOf fun request member into => ?_
  rcases List.mem_append.mp member with early | late
  · exact other ((fills request early).2 c into).symm
  · rw [(links request late).1] at into
    cases into

theorem body_of_unseen (inside : k ≤ code.length) (unseen : Unseen states k c) :
    (states k).builder.bodyOf c = #[] := by
  induction k with
  | zero => exact openFunction_bodies story.opened
  | succ k ih =>
      rw [story.body_of_other inside (unseen k (Nat.lt_succ_self k)),
        ih (Nat.le_of_succ_le inside) fun j before => unseen j (Nat.lt_succ_of_lt before)]

theorem current_lt (inside : k ≤ code.length) : (states k).current < (states k).builder.blocks.size := by
  obtain ⟨_, _, _, _, aligned⟩ := story.linked k inside
  exact aligned.inside

theorem unseen_of_fresh (inside : k ≤ code.length) (fresh : (states k).builder.blocks.size ≤ c) :
    Unseen states (k + 1) c := by
  rintro j before rfl
  obtain ⟨_, there⟩ := Ssa.Builder.block_of_lt (story.current_lt (Nat.le_trans (Nat.le_of_lt_succ before) inside))
  obtain ⟨_, found, _⟩ := (story.later (Nat.le_of_lt_succ before) inside).block there
  exact Nat.lt_irrefl _ (Nat.lt_of_lt_of_le (Ssa.Builder.lt_of_block found) fresh)

theorem target_ne (inside : k ≤ code.length) {frame : Frame} (member : frame ∈ (states k).frames)
    (notLoop : frame.construct ≠ .loop) : (states k).current ≠ frame.target := by
  obtain ⟨_, _, _, _, aligned⟩ := story.linked k inside
  obtain ⟨_, entered⟩ := aligned.frames frame member
  exact (entered.sleeps notLoop).2.symm

theorem funclet_ne (inside : k ≤ code.length) {r : OpenRegion} (member : r ∈ (states k).regions) {i : Nat}
    {node : FuncletNode} (present : r.graph.nodes[i]? = some node) (undeclared : node.params = none)
    (place : r.blocks[i]? = some c) : (states k).current ≠ c := by
  obtain ⟨_, _, _, _, aligned⟩ := story.linked k inside
  exact (((aligned.regions r member).nodes present place).sleeps undeclared).2.2.symm

end Story

/-- Where the blocks of a layer were before: with an older layer, or nowhere. -/
theorem Shift.origin {s t : State} {i : Instruction} (shift : Shift s i t) (member : l ∈ t.layers) :
    (∃ m ∈ s.layers, m.Later l) ∨ s.builder.blocks.size ≤ l.frame.target ∧
      ∀ r, l.region = some r → ∀ block ∈ r.blocks, s.builder.blocks.size ≤ block := by
  have old (same : l ∈ s.layers) : ∃ m ∈ s.layers, m.Later l := ⟨l, same, .refl l⟩
  cases shift with
  | stays quiet _ =>
      obtain ⟨i, inside, rfl⟩ := List.getElem_of_mem member
      have length := quiet.layers.length_eq
      have steady := quiet.layers.get (by omega) inside
      exact .inl ⟨_, List.getElem_mem _, steady.later⟩
  | opens m layers _ _ _ _ _ _ _ _ _ fresh =>
      rw [layers] at member
      rcases List.mem_cons.mp member with rfl | outer
      · exact .inr fresh
      · exact .inl (old outer)
  | turns m n around before layers condition params isIf isElse =>
      rw [layers] at member
      rcases List.mem_cons.mp member with rfl | outer
      · refine .inl ⟨m, before ▸ List.mem_cons_self, ?_⟩
        rw [isElse]
        exact ⟨rfl, .inr ⟨⟨condition, params, isIf⟩, rfl⟩, rel_refl .refl _⟩
      · exact .inl (old (before ▸ List.mem_cons_of_mem _ outer))
  | goesOn m n around before layers r q region frame later =>
      rw [layers] at member
      rcases List.mem_cons.mp member with rfl | outer
      · refine .inl ⟨m, before ▸ List.mem_cons_self, ?_⟩
        rw [frame]
        exact ⟨rfl, .inl rfl, by rw [region]; exact .some later⟩
      · exact .inl (old (before ▸ List.mem_cons_of_mem _ outer))
  | closes m parent around before layers =>
      rw [layers] at member
      exact .inl (old (before ▸ List.mem_cons_of_mem _ member))
  | ends m before control =>
      have empty : t.layers = [] := by simp [State.layers, State.frames, control, layersOf]
      rw [empty] at member
      cases member

/-- A block that a layer is still to go on in: the one behind a construct that is no loop, or that of a
funclet without parameters. -/
def Layer.GoesOnIn (l : Layer) (c : BlockId) : Prop :=
  (l.frame.construct ≠ .loop ∧ c = l.frame.target) ∨
    ∃ (r : OpenRegion) (i : Nat) (node : FuncletNode), l.region = some r ∧
      r.graph.nodes[i]? = some node ∧ node.params = none ∧ r.blocks[i]? = some c

theorem Layer.Later.goesOnIn {m : Layer} (later : m.Later l) (awaits : l.GoesOnIn c) : m.GoesOnIn c := by
  rcases awaits with ⟨notLoop, rfl⟩ | ⟨r, i, node, region, present, undeclared, place⟩
  · exact .inl ⟨fun isLoop => notLoop (later.loop.mpr isLoop), by rw [later.frame]⟩
  · obtain ⟨q, opened, grown⟩ := rel_some (region ▸ later.region)
    have within : i < q.graph.nodes.size := by
      have same := grown.keeps.size_eq
      have := (Array.getElem?_eq_some_iff.mp present).1
      exact Nat.lt_of_lt_of_eq this same
    refine .inr ⟨q, i, q.graph.nodes[i], opened, Array.getElem?_eq_getElem within, ?_, ?_⟩
    · by_contra declared
      obtain ⟨params, known⟩ := Option.ne_none_iff_exists'.mp declared
      obtain ⟨node', present', known'⟩ := grown.keeps.params (Array.getElem?_eq_getElem within) known
      cases present.symm.trans present'
      cases undeclared.symm.trans known'
    · rw [grown.same] at place
      exact place

theorem undeclared_of_ahead {g : FuncletCalls} (settled : g.Settled) {i : Nat} {node : FuncletNode}
    (ahead : g.current < i) (present : g.nodes[i]? = some node) : node.params = none := by
  rw [← Option.not_isSome_iff_eq_none]
  intro declared
  have entered := (settled.entered_iff present).mp (settled.entered_of_params present declared)
  have current := settled.current_eq
  omega

namespace Story

variable (story : Story context bytes code states f)
include story

theorem awaited_ne (inside : k ≤ code.length) (member : l ∈ (states k).layers) (awaits : l.GoesOnIn c) :
    (states k).current ≠ c := by
  rcases awaits with ⟨notLoop, rfl⟩ | ⟨r, i, node, region, present, undeclared, place⟩
  · refine story.target_ne inside ?_ notLoop
    rw [← State.map_frame_layers]
    exact List.mem_map_of_mem member
  · exact story.funclet_ne inside (mem_regions_of_layersOf member region) present undeclared place

theorem unseen_of_goesOnIn (inside : k ≤ code.length) (member : l ∈ (states k).layers) (awaits : l.GoesOnIn c) :
    Unseen states (k + 1) c := by
  -- A layer is one from before, or was opened by the last step with blocks that did not exist before.
  induction k generalizing l with
  | zero => exact Unseen.succ (fun _ => nofun) (story.awaited_ne inside member awaits)
  | succ k ih =>
      refine Unseen.succ ?_ (story.awaited_ne inside member awaits)
      have before := Nat.le_of_succ_le inside
      obtain ⟨_, taken⟩ := story.taken inside
      rcases taken.moves.shift.origin member with ⟨m, old, later⟩ | ⟨target, blocks⟩
      · exact ih before old (later.goesOnIn awaits)
      · refine story.unseen_of_fresh before ?_
        rcases awaits with ⟨_, rfl⟩ | ⟨r, i, _, region, _, _, place⟩
        · exact target
        · exact blocks r region c (Array.mem_of_getElem? place)

end Story

end WasmFunclets.Validation
