import WasmFunclets.Proofs.Ssa.Advance

/-! A function under construction at its start: one block, and no values. -/

namespace WasmFunclets.Ssa.Builder

variable {context : Context} {strict : Bool} {locals : Array ValueType} {paramCount : Nat}

theorem representative_ofLocals (id : ValueId) : (ofLocals locals paramCount).representative id = id :=
  rfl

theorem block_ofLocals {c : BlockId} {k : Block}
    (present : (ofLocals locals paramCount).blocks[c]? = some k) : c = entryId ∧ k = .entry := by
  have below : c < 1 := (Array.getElem?_eq_some_iff.mp present).1
  obtain rfl : c = 0 := Nat.lt_one_iff.mp below
  exact ⟨rfl, (Option.some.inj present).symm⟩

theorem outline_ofLocals {c : BlockId} {o : BlockOutline}
    (present : (ofLocals locals paramCount).outline c = some o) :
    c = entryId ∧ o = Block.entry.outline := by
  obtain ⟨k, found, rfl⟩ := block_of_outline present
  obtain ⟨rfl, rfl⟩ := block_ofLocals found
  exact ⟨rfl, rfl⟩

theorem definition_ofLocals {c : BlockId} {s : Nat} :
    (ofLocals locals paramCount).definition c s = none := by
  rw [definition]
  cases present : (ofLocals locals paramCount).blocks[c]? with
  | none => rfl
  | some k =>
      obtain ⟨_, rfl⟩ := block_ofLocals present
      simp [Block.entry, Block.fresh]

theorem formed_ofLocals : (ofLocals locals paramCount).Formed strict where
  coherent := Substitution.coherent_empty
  operand_lt shown := by cases shown
  home shown := by cases shown
  replaced other := absurd rfl other
  live shown := by cases shown
  typed _ _ _ _ _ shown := by cases shown
  leader_typed _ _ _ _ shown := by cases shown

theorem flow_ofLocals {written : BlockId → Nat → Prop} {filling : ValueId → Prop} :
    (ofLocals locals paramCount).Flow strict written filling none where
  entry := ⟨.entry, rfl, rfl, rfl, rfl⟩
  entry_kind present := by
    obtain ⟨rfl, rfl⟩ := block_ofLocals present
    exact ⟨fun _ => rfl, fun _ => rfl⟩
  pred_lt present pred member := by
    obtain ⟨_, rfl⟩ := block_ofLocals present
    simp [Block.entry, Block.fresh] at member
  slot shown := by cases shown
  operands shown := by cases shown.1
  complete shown := by cases shown.1
  waits shown := by cases shown.1
  pending present member := by
    obtain ⟨_, rfl⟩ := block_ofLocals present
    simp [Block.entry, Block.fresh] at member
  pending_nodup present := by
    obtain ⟨_, rfl⟩ := block_ofLocals present
    simp [Block.entry, Block.fresh]
  placeholder present member := by
    obtain ⟨_, rfl⟩ := block_ofLocals present
    simp [Block.entry, Block.fresh] at member
  definition_lt known := by simp [definition_ofLocals] at known
  starts known := by simp [definition_ofLocals] at known
  typed _ _ _ _ known := by simp [definition_ofLocals] at known

theorem ledger_ofLocals : (ofLocals locals paramCount).Ledger none none where
  home_lt shown := by cases shown
  body present id := by
    obtain ⟨_, rfl⟩ := outline_ofLocals present
    refine ⟨fun member => ?_, fun ⟨_, shown, _⟩ => by cases shown⟩
    simp [Block.entry, Block.fresh, Block.outline] at member
  body_nodup present := by
    obtain ⟨_, rfl⟩ := outline_ofLocals present
    simp [Block.entry, Block.fresh, Block.outline]
  carried_lt present pred member := by
    obtain ⟨_, rfl⟩ := outline_ofLocals present
    simp [Block.entry, Block.fresh, Block.outline] at member
  argument present args := by
    obtain ⟨_, rfl⟩ := outline_ofLocals present
    cases args
  listed shown := by cases shown.1
  carried present args := by
    obtain ⟨_, rfl⟩ := outline_ofLocals present
    cases args
  operands shown := by cases shown.1
  complete shown := by cases shown.1

theorem rooted_ofLocals : (ofLocals locals paramCount).Rooted #[none] fun _ _ => False where
  size := rfl
  entry := rfl
  lt {c p} made := by
    have below : c < 1 := (Array.getElem?_eq_some_iff.mp made).1
    obtain rfl : c = 0 := Nat.lt_one_iff.mp below
    cases made
  edges present pred member := by
    obtain ⟨_, rfl⟩ := outline_ofLocals present
    simp [Block.entry, Block.fresh, Block.outline] at member
  args present pred member := by
    obtain ⟨_, rfl⟩ := outline_ofLocals present
    simp [Block.entry, Block.fresh, Block.outline] at member
  distinct present := by
    obtain ⟨_, rfl⟩ := outline_ofLocals present
    simp [Block.entry, Block.fresh, Block.outline]
  operands shown := by cases shown
  written absurd_ := absurd_.elim
  sorted present := by
    obtain ⟨_, rfl⟩ := outline_ofLocals present
    simp [Block.entry, Block.fresh, Block.outline]

theorem reduced_ofLocals : (ofLocals locals paramCount).Reduced [] where
  coherent := Substitution.coherent_empty
  operand_lt present := by cases present
  replaced id := by
    refine ⟨fun moved => absurd (representative_ofLocals id) moved, ?_⟩
    rintro ⟨p, present, _⟩
    cases present
  watched present := by cases present
  mixes present := by cases present

theorem built_ofLocals (known : strict = true → ∀ type ∈ locals, type.isValue = true) :
    (ofLocals locals paramCount).Built context strict #[none] (fun _ _ => False) [] where
  sound := ⟨formed_ofLocals, flow_ofLocals, ledger_ofLocals⟩
  rooted := rooted_ofLocals
  reduced := reduced_ofLocals
  typing _ _ _ shown := by cases shown
  locals := known

theorem unsealedAre_ofLocals : (ofLocals locals paramCount).UnsealedAre [] where
  nodup := .nil
  iff c := by
    refine ⟨fun ⟨x, shown, isOpen⟩ => ?_, fun member => by simp at member⟩
    obtain ⟨o, present, rfl⟩ := Option.map_eq_some_iff.mp shown
    obtain ⟨_, rfl⟩ := outline_ofLocals present
    cases isOpen

theorem not_used_ofLocals (c : BlockId) : ¬ (ofLocals locals paramCount).Used c := by
  rintro ⟨e, k, present, pred, member, _⟩
  obtain ⟨_, rfl⟩ := block_ofLocals present
  simp [Block.entry, Block.fresh] at member

end WasmFunclets.Ssa.Builder
