import WasmFunclets.Proofs.Meaning.Shows

/-! From the end of one block to the start of another one: behind an edge the function has what the machine
has where the validation goes on. -/

namespace WasmFunclets.Machine

open Validation Attempt
open Ssa (Forest Point)

variable {V : Type} {context : Context} {bytes : List UInt8} {code : List Located} {states : Nat → State}
variable {f : Forest} {b : Ssa.Builder} {k n : Nat} {s t u : State} {c d e : Config V} {x y : Point V}
variable {ids : List ValueId} {v : ValueId} {target : BlockId} {kept : List Operand} {types : List ValueType}

/-- The function is at the end of its block, and knows there what the machine has for its locals. -/
structure Leaving (code : List Located) (states : Nat → State) (d : Config V) (x : Point V) : Prop where
  reachable : (finished code states).Reachable x.block
  position : x.position = ((finished code states).bodyOf x.block).size
  history : x.history = d.history
  locals : ∀ (slot : Nat) (a : Typed V) (v : ValueId), d.locals[slot]? = some a →
    (finished code states).definition x.block slot = some v →
      x.read (finished code states) v = some a.datum

def EdgeCarries (b : Ssa.Builder) (source target : BlockId) (ids : List ValueId) : Prop :=
  ∃ (k : Ssa.Block) (edge : Nat), b.blocks[target]? = some k ∧
    k.predecessors[edge]? = some ⟨source, ids⟩

/-- The validation goes on in a block where it has not been before. The arguments of the block lie on
operands that are not made in it. -/
structure Landing (code : List Located) (states : Nat → State) (k : Nat) (target : BlockId)
    (kept : List Operand) (types : List ValueType) : Prop where
  within : k < code.length
  current : (states k).current = target
  unseen : Unseen states k target
  operands : ∃ phis : Array ValueId, phis.size = types.length ∧
    (phis = #[] ∨ (states k).builder.argsAt target = some phis) ∧
    (states k).stack.operands.toList =
      kept ++ operandsOf types (phis.toList.map (states k).builder.representative)
  keeps : ∀ o ∈ kept, ∀ v, o.value = some v → ∃ w,
    (finished code states).look ((finished code states).representative v) = some w ∧ w.block ≠ some target

theorem EdgeCarries.reachable (passes : EdgeCarries b x.block target ids) (reachable : b.Reachable x.block) :
    b.Reachable target := by
  obtain ⟨k, edge, present, place⟩ := passes
  obtain ⟨l, path⟩ := reachable
  exact ⟨_, .step path present (Array.mem_of_getElem? place) rfl⟩

theorem reachable_block {strict : Bool} {written : BlockId → Nat → Prop} {c : BlockId}
    (sound : b.Consistent strict written) (reachable : b.Reachable c) : ∃ k, b.blocks[c]? = some k := by
  obtain ⟨_, path⟩ := reachable
  cases path with
  | entry =>
      obtain ⟨k, present, _⟩ := sound.flow.entry
      exact ⟨k, present⟩
  | step _ present => exact ⟨_, present⟩

theorem forall₂_and_right {α β : Type} {R : α → β → Prop} {P : β → Prop} {l : List α} {m : List β}
    (each : List.Forall₂ R l m) (all : ∀ b ∈ m, P b) : List.Forall₂ (fun a b => R a b ∧ P b) l m := by
  induction each with
  | nil => exact .nil
  | cons first _ ih =>
      exact .cons ⟨first, all _ List.mem_cons_self⟩ (ih fun b member => all b (List.mem_cons_of_mem _ member))

theorem Leaving.follow (leaving : Leaving code states d x) (story : Story context bytes code states f)
    (passes : EdgeCarries (finished code states) x.block target ids) :
    ∃ l edge, (finished code states).blocks[target]? = some l ∧
      l.predecessors[edge]? = some ⟨x.block, ids⟩ ∧ x.follow (finished code states) target edge =
        some ⟨target, 0, x.carried (finished code states) target edge, x.history⟩ := by
  obtain ⟨_, sound, _⟩ := story.whole
  obtain ⟨l, edge, present, place⟩ := passes
  obtain ⟨k, source⟩ := reachable_block sound leaving.reachable
  have bodyEnd : x.position = k.body.size := by
    rw [leaving.position, Ssa.Builder.bodyOf, source]
    rfl
  exact ⟨l, edge, present, place, by simp [Point.follow, source, present, place, bodyEnd]⟩

theorem Leaving.cross (leaving : Leaving code states d x) (story : Story context bytes code states f)
    (landing : Landing code states k target kept types)
    (passes : EdgeCarries (finished code states) x.block target ids) {front args : List (Typed V)}
    (below : List.Forall₂ (fun a o => ∃ v, o.value = some v ∧
      x.read (finished code states) v = some a.datum) front kept)
    (above : List.Forall₂ (fun a v => x.read (finished code states) v = some a.datum) args ids)
    (size : ids.length = types.length) (pc : e.pc = k) (stack : e.stack = front ++ args)
    (locals : e.locals = d.locals) (history : e.history = d.history)
    (agrees : Agrees e (states k).stack) :
    ∃ y edge, x.follow (finished code states) target edge = some y ∧ Meets code states f e y := by
  obtain ⟨_, sound, rooted, final, _⟩ := story.whole
  have reachable := passes.reachable leaving.reachable
  obtain ⟨l, edge, present, place, follows⟩ := leaving.follow story passes
  have inside := Nat.le_of_lt landing.within
  have lasts := story.lasts inside (Nat.le_refl _)
  let y : Point V := ⟨target, 0, x.carried (finished code states) target edge, x.history⟩
  refine ⟨y, edge, follows, ?_⟩
  subst pc
  have unwritten (slot : Nat) : ¬ Wrote code states e.pc target slot := landing.unseen.not_wrote
  exact {
    pc := rfl
    within := landing.within
    agrees := agrees
    rests := .refl agrees.above
    lasts := .refl (story.aliased inside)
    onward := lasts
    block := landing.current.symm
    current := rfl
    reachable := reachable
    position := by
      rw [story.body_of_unseen inside landing.unseen]
      rfl
    history := leaving.history.trans history.symm
    stack := by
      obtain ⟨phis, count, given, operands⟩ := landing.operands
      -- the edge sets the phis of its target only, so what lies below the arguments keeps its values
      have low : List.Forall₂ (fun a o => ∃ v, o.value = some v ∧ y.read (finished code states) v = some a.datum)
          front kept := by
        refine (forall₂_and_right below landing.keeps).imp ?_
        rintro a o ⟨⟨v, value, read⟩, keeps⟩
        obtain ⟨w, shown, elsewhere⟩ := keeps v value
        exact ⟨v, value, (Point.carried_elsewhere shown elsewhere).trans read⟩
      -- the arguments on top are those phis
      have high : List.Forall₂ (fun a v => y.read (finished code states) v = some a.datum) args
          (phis.toList.map (states e.pc).builder.representative) := by
        rw [List.forall₂_map_right_iff]
        refine List.forall₂_iff_get.mpr ⟨?_, fun j one two => ?_⟩
        · rw [above.length_eq, size, ← count, Array.length_toList]
        · have read := (List.forall₂_iff_get.mp above).2 j one (above.length_eq ▸ one)
          have listed : phis[j]? = some (phis.toList.get ⟨j, two⟩) := by
            rw [← Array.getElem?_toList, List.getElem?_eq_getElem two, List.get_eq_getElem]
          have declared : l.args = some phis := by
            rcases given with rfl | given
            · exact absurd two (Nat.not_lt_zero _)
            · have still := lasts.given given
              rwa [Ssa.Builder.argsAt, present] at still
          rw [← read]
          change x.carried _ _ _ _ = _
          rw [lasts.representative]
          exact sound.carried_argument rooted reachable present declared place listed
            (List.getElem?_eq_getElem (above.length_eq ▸ one))
      have length : (phis.toList.map (states e.pc).builder.representative).length = types.length := by
        rw [List.length_map, Array.length_toList, count]
      have values : List.Forall₂ _ (front ++ args) (kept ++ _) :=
        List.rel_append low ((forall₂_operandsOf length).mpr high)
      rw [← stack, ← operands] at values
      refine (forall₂_and_right values fun o member =>
        story.older_operand inside (landing.current ▸ reachable) member).imp ?_
      rintro a o ⟨⟨v, value, read⟩, w, value', older⟩
      cases value.symm.trans value'
      rw [landing.current] at older
      exact ⟨v, value, read, older⟩
    written := fun slot a here wrote => absurd wrote (unwritten slot)
    fresh := fun slot a here _ v starts => by
      obtain ⟨m, path⟩ := leaving.reachable
      obtain ⟨w, known, carried⟩ := sound.carried_local (x := x) rooted final path present place rfl starts
      exact carried.trans (leaving.locals slot a w (locals ▸ here) known) }

end WasmFunclets.Machine
