import WasmFunclets.Proofs.Ssa.Trail

/-! The walk up single predecessors ends without a count of its steps: it is enough to look for blocks
that it has passed already. Both walks end at the same block, and they pass the same ones. -/

namespace WasmFunclets.Ssa.Builder

variable {b : Builder} {slot fuel : Nat} {start goal c next : BlockId} {chain : List BlockId}

/-- A walk that ends at a block it has passed already. -/
inductive Climbs (b : Builder) (slot : Nat) : List BlockId → BlockId → Walk → Prop where
  | defined {chain : List BlockId} {c : BlockId} {d : ValueId} (known : b.definition c slot = some d) :
      Climbs b slot chain c ⟨.defined (b.representative d), chain⟩
  | unsealed {chain : List BlockId} {c : BlockId} {k : Block} (new : b.definition c slot = none)
      (present : b.blocks[c]? = some k) (isOpen : k.isSealed = false) :
      Climbs b slot chain c ⟨.unsealed c, chain⟩
  | entry {chain : List BlockId} {c : BlockId} {k : Block} (new : b.definition c slot = none)
      (present : b.blocks[c]? = some k) (isSealed : k.isSealed = true) (kind : k.kind = .entry) :
      Climbs b slot chain c ⟨.entry c, chain⟩
  | orphan {chain : List BlockId} {c : BlockId} {k : Block} (new : b.definition c slot = none)
      (present : b.blocks[c]? = some k) (isSealed : k.isSealed = true) (kind : k.kind ≠ .entry)
      (alone : k.predecessors.toList = []) : Climbs b slot chain c ⟨.orphan c, chain⟩
  | join {chain : List BlockId} {c : BlockId} {k : Block} (new : b.definition c slot = none)
      (present : b.blocks[c]? = some k) (isSealed : k.isSealed = true) (kind : k.kind ≠ .entry)
      (several : 2 ≤ k.predecessors.toList.length) :
      Climbs b slot chain c ⟨.join c (k.predecessors.toList.map Predecessor.block), chain⟩
  | round {chain : List BlockId} {c next : BlockId} (new : b.definition c slot = none)
      (follows : b.Follows c next) (passed : next ∈ c :: chain) :
      Climbs b slot chain c ⟨.cycle, c :: chain⟩
  | up {chain : List BlockId} {c next : BlockId} {w : Walk} (new : b.definition c slot = none)
      (follows : b.Follows c next) (ahead : next ∉ c :: chain)
      (rest : Climbs b slot (c :: chain) next w) : Climbs b slot chain c w

theorem walk_follows (new : b.definition c slot = none) (follows : b.Follows c next) :
    b.walk slot (fuel + 1) c chain = b.walk slot fuel next (c :: chain) := by
  obtain ⟨k, present, isSealed, kind, single⟩ := follows
  obtain ⟨pred, only, rfl⟩ := List.map_eq_singleton_iff.mp single
  have undefined := (definition_eq_none present).mp new
  simp [walk, present, undefined, isSealed, kind, only]

theorem Follows.next_lt (follows : b.Follows c next)
    (known : ∀ {c : BlockId} {k : Block}, b.blocks[c]? = some k →
      ∀ pred ∈ k.predecessors, pred.block < b.blocks.size) : next < b.blocks.size := by
  obtain ⟨k, present, _, _, single⟩ := follows
  obtain ⟨pred, only, rfl⟩ := List.map_eq_singleton_iff.mp single
  refine known present pred ?_
  rw [← Array.mem_toList_iff, only]
  exact List.mem_cons_self

theorem walk_round (closed : ∀ e ∈ chain, b.definition e slot = none ∧
      ∃ next, b.Follows e next ∧ next ∈ chain) (member : c ∈ chain) :
    (b.walk slot fuel c chain).halt = .cycle ∧ ∀ e, e ∈ (b.walk slot fuel c chain).chain ↔ e ∈ chain := by
  induction fuel generalizing c chain with
  | zero => exact ⟨rfl, fun _ => Iff.rfl⟩
  | succ fuel ih =>
      obtain ⟨new, next, follows, inside⟩ := closed c member
      have same (e : BlockId) : e ∈ c :: chain ↔ e ∈ chain := by
        rw [List.mem_cons]
        exact ⟨fun place => place.elim (fun here => here ▸ member) fun deeper => deeper, .inr⟩
      rw [walk_follows new follows]
      have later := @ih next (c :: chain) (fun e passed => ?_) ((same next).mpr inside)
      · exact ⟨later.1, fun e => (later.2 e).trans (same e)⟩
      · obtain ⟨new', next', follows', inside'⟩ := closed e ((same e).mp passed)
        exact ⟨new', next', follows', (same next').mpr inside'⟩

/-- Both walks stop at a block, or it is sealed and has one predecessor. -/
theorem stops_or_follows (inside : c < b.blocks.size) :
    (∃ halt, b.Climbs slot chain c ⟨halt, chain⟩ ∧ b.walk slot (fuel + 1) c chain = ⟨halt, chain⟩) ∨
      b.definition c slot = none ∧ ∃ next, b.Follows c next := by
  obtain ⟨k, present⟩ := block_of_lt inside
  cases defined : k.definitions[slot]? with
  | some d =>
      have known : b.definition c slot = some d.value := by
        rw [definition_of_block present, defined, Option.map_some]
      exact .inl ⟨_, .defined known, by simp [walk, present, defined]⟩
  | none =>
      have new : b.definition c slot = none := (definition_eq_none present).mpr defined
      by_cases isSealed : k.isSealed = true
      · by_cases kind : k.kind = .entry
        · exact .inl ⟨_, .entry new present isSealed kind,
            by simp [walk, present, defined, isSealed, kind]⟩
        · rcases preds : k.predecessors.toList with _ | ⟨pred, _ | ⟨second, more⟩⟩
          · exact .inl ⟨_, .orphan new present isSealed kind preds,
              by simp [walk, present, defined, isSealed, kind, preds]⟩
          · exact .inr ⟨new, pred.block, k, present, isSealed, kind, by rw [preds, List.map_singleton]⟩
          · have several : 2 ≤ k.predecessors.toList.length := by
              rw [preds, List.length_cons, List.length_cons]
              omega
            exact .inl ⟨_, .join new present isSealed kind several,
              by simp [walk, present, defined, isSealed, kind, preds]⟩
      · rw [Bool.not_eq_true] at isSealed
        exact .inl ⟨_, .unsealed new present isSealed, by simp [walk, present, defined, isSealed]⟩

/-- From any block that is reached on a trail without a definition, the walk ends, and the counted one
comes to the same. -/
theorem climbs_of_trail
    (known : ∀ {c : BlockId} {k : Block}, b.blocks[c]? = some k →
      ∀ pred ∈ k.predecessors, pred.block < b.blocks.size)
    (inside : c < b.blocks.size) (trail : b.Trail start chain c)
    (undefined : ∀ e ∈ chain, b.definition e slot = none) (nodup : (c :: chain).Nodup)
    (enough : b.blocks.size ≤ chain.length + fuel) :
    ∃ w, b.Climbs slot chain c w ∧ w.chain.Nodup ∧ w.chain.length ≤ b.blocks.size ∧
      (b.walk slot fuel c chain).halt = w.halt ∧
      ∀ e, e ∈ (b.walk slot fuel c chain).chain ↔ e ∈ w.chain := by
  have short : (c :: chain).length ≤ b.blocks.size := trail.length_le inside nodup
  rw [List.length_cons] at short
  -- The blocks of the chain are distinct, so there is fuel left until the walk stops or meets one of them.
  induction fuel generalizing c chain with
  | zero => omega
  | succ fuel ih =>
      obtain ⟨halt, climbs, same⟩ | ⟨new, next, follows⟩ := stops_or_follows inside
      · rw [same]
        exact ⟨_, climbs, (List.nodup_cons.mp nodup).2, Nat.le_of_succ_le short, rfl, fun _ => Iff.rfl⟩
      · rw [walk_follows new follows]
        have onward : b.Trail start (c :: chain) next := .cons trail follows
        have undefined' : ∀ e ∈ c :: chain, b.definition e slot = none := by
          intro e member
          exact (List.mem_cons.mp member).elim (fun here => here ▸ new) (undefined e)
        by_cases passed : next ∈ c :: chain
        · refine ⟨_, .round new follows passed, nodup, short, ?_⟩
          refine walk_round (fun e member => ⟨undefined' e member, ?_⟩) passed
          obtain ⟨after, leads, place⟩ := onward.follows member
          exact ⟨after, leads, place.elim (fun here => here ▸ passed) fun deeper => deeper⟩
        · have ahead : (next :: c :: chain).Nodup := List.nodup_cons.mpr ⟨passed, nodup⟩
          have below : next < b.blocks.size := follows.next_lt known
          have longer : b.blocks.size ≤ (c :: chain).length + fuel := by
            rw [List.length_cons]
            omega
          obtain ⟨w, climbs, rest⟩ := ih below onward undefined' ahead longer
            (onward.length_le below ahead)
          exact ⟨w, .up new follows passed climbs, rest⟩

end WasmFunclets.Ssa.Builder
