import Mathlib.Data.List.Perm.Subperm
import WasmFunclets.Proofs.Ssa.Settled

/-! Where a walk up single predecessors ends. The blocks it passed are known to lead to its end and
nowhere else. -/

namespace WasmFunclets.Ssa.Builder

def Follows (b : Builder) (c next : BlockId) : Prop :=
  ∃ k, b.blocks[c]? = some k ∧ k.isSealed = true ∧ k.kind ≠ .entry ∧
    k.predecessors.toList.map Predecessor.block = [next]

/-- The blocks passed on the way from a start to a goal, the last of them first. -/
inductive Trail (b : Builder) (start : BlockId) : List BlockId → BlockId → Prop where
  | nil : Trail b start [] start
  | cons {chain : List BlockId} {c next : BlockId} (before : Trail b start chain c)
      (follows : b.Follows c next) : Trail b start (c :: chain) next

variable {b t : Builder} {start goal c next : BlockId} {chain : List BlockId}

theorem Follows.unique (first : b.Follows c next) {other : BlockId} (second : b.Follows c other) :
    next = other := by
  obtain ⟨k, present, _, _, single⟩ := first
  obtain ⟨l, found, _, _, single'⟩ := second
  rw [present] at found
  cases found
  rw [single] at single'
  exact List.singleton_inj.mp single'

theorem Follows.lt (follows : b.Follows c next) : c < b.blocks.size := by
  obtain ⟨k, present, _⟩ := follows
  exact lt_of_block present

theorem Reads.follows (reads : b.Reads t) : t.Follows c next ↔ b.Follows c next := by
  constructor
  · rintro ⟨l, found, isSealed, kind, single⟩
    obtain ⟨k, present, alike, _⟩ := reads.block_back found
    exact ⟨k, present, alike.isSealed ▸ isSealed, alike.kind ▸ kind,
      alike.predecessors ▸ single⟩
  · rintro ⟨k, present, isSealed, kind, single⟩
    obtain ⟨l, found, alike, _⟩ := reads.block present
    exact ⟨l, found, by rw [alike.isSealed, isSealed], by rwa [alike.kind],
      by rw [alike.predecessors, single]⟩

theorem Trail.imp (trail : b.Trail start chain goal)
    (each : ∀ c next, b.Follows c next → t.Follows c next) : t.Trail start chain goal := by
  induction trail with
  | nil => exact .nil
  | cons _ follows ih => exact .cons ih (each _ _ follows)

theorem Trail.reads (trail : b.Trail start chain goal) (reads : b.Reads t) :
    t.Trail start chain goal := trail.imp fun _ _ => reads.follows.mpr

theorem Trail.start_mem (trail : b.Trail start chain goal) (passed : chain ≠ []) :
    start ∈ chain := by
  induction trail with
  | nil => exact absurd rfl passed
  | cons before _ ih =>
      cases before with
      | nil => exact List.mem_cons_self
      | cons => exact List.mem_cons_of_mem _ (ih (List.cons_ne_nil _ _))

theorem Trail.lt (trail : b.Trail start chain goal) (member : c ∈ chain) : c < b.blocks.size := by
  induction trail with
  | nil => cases member
  | cons _ follows ih =>
      rcases List.mem_cons.mp member with rfl | inside
      · exact follows.lt
      · exact ih inside

theorem Trail.follows (trail : b.Trail start chain goal) (member : c ∈ chain) :
    ∃ next, b.Follows c next ∧ (next = goal ∨ next ∈ chain) := by
  induction trail with
  | nil => cases member
  | @cons chain d goal before follows ih =>
      rcases List.mem_cons.mp member with rfl | inside
      · exact ⟨goal, follows, .inl rfl⟩
      · obtain ⟨next, after, rfl | deeper⟩ := ih inside
        · exact ⟨next, after, .inr List.mem_cons_self⟩
        · exact ⟨next, after, .inr (List.mem_cons_of_mem _ deeper)⟩

theorem Trail.next_mem (trail : b.Trail start chain goal) (member : c ∈ chain)
    (follows : b.Follows c next) : next = goal ∨ next ∈ chain := by
  obtain ⟨_, known, place⟩ := trail.follows member
  cases known.unique follows
  exact place

theorem Trail.closed {inside : BlockId → Prop}
    (closed : ∀ c next, inside c → b.Follows c next → inside next)
    (trail : b.Trail start chain goal) (member : c ∈ chain) (meets : inside c) : inside goal := by
  induction trail generalizing c with
  | nil => cases member
  | cons before follows ih =>
      rcases List.mem_cons.mp member with rfl | deeper
      · exact closed _ _ meets follows
      · exact closed _ _ (ih deeper meets) follows

theorem Trail.goal_mem (trail : b.Trail start chain goal) (twice : ¬ (goal :: chain).Nodup) :
    goal ∈ chain := by
  induction trail with
  | nil => simp at twice
  | @cons chain c goal before follows ih =>
      by_contra new
      have repeated : ¬ (c :: chain).Nodup := fun nodup => twice (List.nodup_cons.mpr ⟨new, nodup⟩)
      rcases before.next_mem (ih repeated) follows with rfl | deeper
      · exact new List.mem_cons_self
      · exact new (List.mem_cons_of_mem _ deeper)

/-- What is known of the block where a walk ends, and of the blocks it passed. -/
def Halts (b : Builder) (slot : Nat) (start : BlockId) : Walk → Prop
  | ⟨.defined v, chain⟩ => ∃ goal d, b.Trail start chain goal ∧ b.definition goal slot = some d ∧
      b.representative d = v
  | ⟨.unsealed c, chain⟩ => b.Trail start chain c ∧ b.definition c slot = none ∧
      ∃ k, b.blocks[c]? = some k ∧ k.isSealed = false
  | ⟨.entry c, chain⟩ => b.Trail start chain c ∧ b.definition c slot = none ∧
      ∃ k, b.blocks[c]? = some k ∧ k.kind = .entry
  | ⟨.orphan c, chain⟩ => b.Trail start chain c ∧ b.definition c slot = none ∧
      ∃ k, b.blocks[c]? = some k ∧ k.isSealed = true ∧ k.kind ≠ .entry ∧ k.predecessors = #[]
  | ⟨.cycle, chain⟩ => ∃ goal, b.Trail start chain goal ∧ goal ∈ chain
  | ⟨.join c preds, chain⟩ => b.Trail start chain c ∧ b.definition c slot = none ∧
      ∃ k, b.blocks[c]? = some k ∧ k.isSealed = true ∧ k.kind ≠ .entry ∧
        k.predecessors.toList.map Predecessor.block = preds ∧ preds.length ≠ 1

theorem definition_eq_none {k : Block} {slot : Nat} (present : b.blocks[c]? = some k) :
    b.definition c slot = none ↔ k.definitions[slot]? = none := by
  rw [definition_of_block present, Option.map_eq_none_iff]

theorem Trail.length_le (trail : b.Trail start chain goal) (inside : goal < b.blocks.size)
    (nodup : (goal :: chain).Nodup) : (goal :: chain).length ≤ b.blocks.size := by
  have below : goal :: chain ⊆ List.range b.blocks.size := by
    intro e member
    rw [List.mem_range]
    rcases List.mem_cons.mp member with rfl | deeper
    · exact inside
    · exact trail.lt deeper
  calc
    (goal :: chain).length ≤ (List.range b.blocks.size).length :=
      (List.Nodup.subperm nodup below).length_le
    _ = b.blocks.size := List.length_range

theorem walk_spec {slot : Nat} {fuel : Nat}
    (known : ∀ {c : BlockId} {k : Block}, b.blocks[c]? = some k →
      ∀ pred ∈ k.predecessors, pred.block < b.blocks.size)
    (inside : c < b.blocks.size) (trail : b.Trail start chain c)
    (undefined : ∀ e ∈ chain, b.definition e slot = none)
    (enough : b.blocks.size ≤ chain.length + fuel) :
    b.Halts slot start (b.walk slot fuel c chain) ∧
      ∀ e ∈ (b.walk slot fuel c chain).chain, b.definition e slot = none := by
  -- The chain holds the blocks that were passed, all of them without a definition.
  induction fuel generalizing c chain with
  | zero =>
      refine ⟨⟨c, trail, trail.goal_mem fun nodup => ?_⟩, undefined⟩
      -- more blocks than there are
      have := trail.length_le inside nodup
      rw [List.length_cons] at this
      omega
  | succ fuel ih =>
      obtain ⟨k, present⟩ := block_of_lt inside
      rw [walk, present]
      dsimp only
      cases defined : k.definitions[slot]? with
      | some d =>
          refine ⟨⟨c, d.value, trail, ?_, rfl⟩, undefined⟩
          rw [definition_of_block present, defined]
          rfl
      | none =>
          have none_ : b.definition c slot = none := (definition_eq_none present).mpr defined
          dsimp only
          by_cases isSealed : k.isSealed = true
          · rw [if_neg (by simp [isSealed])]
            by_cases isEntry : k.kind = .entry
            · rw [if_pos isEntry]
              exact ⟨⟨trail, none_, k, present, isEntry⟩, undefined⟩
            · rw [if_neg isEntry]
              split
              · rename_i nothing
                exact ⟨⟨trail, none_, k, present, isSealed, isEntry,
                  Array.toList_eq_nil_iff.mp nothing⟩, undefined⟩
              · rename_i pred single
                refine ih (known present pred ?_) (.cons trail ⟨k, present, isSealed, isEntry, ?_⟩)
                  ?_ ?_
                · rw [← Array.mem_toList_iff, single]
                  exact List.mem_cons_self
                · rw [single, List.map_singleton]
                · intro e member
                  rcases List.mem_cons.mp member with rfl | deeper
                  · exact none_
                  · exact undefined e deeper
                · rw [List.length_cons]
                  omega
              · rename_i none_found not_single
                refine ⟨⟨trail, none_, k, present, isSealed, isEntry, rfl, ?_⟩, undefined⟩
                rw [List.length_map]
                intro one
                obtain ⟨pred, single⟩ := List.length_eq_one_iff.mp one
                exact not_single pred single
          · rw [if_pos (by simp [isSealed])]
            exact ⟨⟨trail, none_, k, present, by simpa using isSealed⟩, undefined⟩

end WasmFunclets.Ssa.Builder
