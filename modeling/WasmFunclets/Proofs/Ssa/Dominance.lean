import Mathlib.Data.List.Infix
import WasmFunclets.Proofs.Ssa.Final

/-! Paths from the entry. What is known in a block is made in a block that every path to it passes, and
nothing that a path comes to is undefined. -/

namespace WasmFunclets.Ssa.Builder

variable {strict : Bool} {f : Forest} {written : BlockId → Nat → Prop} {b : Builder}
variable {a c d e : BlockId} {l : List BlockId} {u v id : ValueId}

/-- The blocks of a path from the entry along predecessors, the last one first. -/
inductive Path (b : Builder) : List BlockId → Prop where
  | entry : Path b [entryId]
  | step {c d : BlockId} {l : List BlockId} {k : Block} {pred : Predecessor} (path : Path b (c :: l))
      (present : b.blocks[d]? = some k) (edge : pred ∈ k.predecessors) (source : pred.block = c) :
      Path b (d :: c :: l)

def Reachable (b : Builder) (c : BlockId) : Prop := ∃ l, Path b (c :: l)

def Dominates (b : Builder) (a c : BlockId) : Prop := ∀ l, Path b (c :: l) → a ∈ c :: l

theorem Path.tail (path : Path b (c :: d :: l)) : Path b (d :: l) := by
  cases path with
  | step rest => exact rest

theorem Path.upto (path : Path b l) (member : a ∈ l) : ∃ m, Path b (a :: m) ∧ a :: m <:+ l := by
  induction path with
  | entry =>
      obtain rfl := List.mem_singleton.mp member
      exact ⟨[], .entry, List.suffix_refl _⟩
  | @step c d l _ _ rest present edge source ih =>
      rcases List.mem_cons.mp member with rfl | inner
      · exact ⟨_, .step rest present edge source, List.suffix_refl _⟩
      · obtain ⟨m, path, suffix⟩ := ih inner
        exact ⟨m, path, suffix.trans (List.suffix_cons _ _)⟩

theorem Path.once (path : Path b (c :: l)) : ∃ m, Path b (c :: m) ∧ c ∉ m := by
  induction size : l.length using Nat.strongRecOn generalizing l with
  | ind n ih =>
      -- the path up to an earlier visit is a shorter one
      by_cases again : c ∈ l
      · cases l with
        | nil => cases again
        | cons d l =>
            obtain ⟨m, first, suffix⟩ := path.tail.upto again
            have shorter := suffix.length_le
            rw [List.length_cons, size] at shorter
            exact ih m.length shorter first rfl
      · exact ⟨l, path, again⟩

theorem Path.not_dead (rooted : b.Rooted f written) (path : Path b l) :
    ∀ c m, l = c :: m → ¬ f.Dead c := by
  induction path with
  | entry =>
      rintro c m same ⟨a, under, alone, inner⟩
      cases same
      cases under with
      | refl => exact inner rfl
      | step made => cases rooted.entry.symm.trans made
  | step rest present edge source ih =>
      rintro c m same ⟨a, under, alone, inner⟩
      cases same
      have alive := ih _ _ rfl
      rcases rooted.edges (outline_of_block present) _ edge with dead | ⟨p, made, behind⟩
      · exact alive (source ▸ dead)
      · cases under with
        | refl => cases made.symm.trans alone
        | step made' above =>
            cases made.symm.trans made'
            exact alive ⟨a, (source ▸ behind).trans above, alone, inner⟩

theorem Reachable.not_dead (reachable : b.Reachable c) (rooted : b.Rooted f written) : ¬ f.Dead c := by
  obtain ⟨l, path⟩ := reachable
  exact path.not_dead rooted c l rfl

theorem Path.passes (rooted : b.Rooted f written) (path : Path b l) :
    ∀ c m, l = c :: m → ∀ a, f.Under c a → a ∈ l := by
  induction path with
  | entry =>
      intro c m same a under
      cases same
      cases under with
      | refl => exact List.mem_cons_self
      | step made => cases rooted.entry.symm.trans made
  | step rest present edge source ih =>
      intro c m same a under
      cases same
      cases under with
      | refl => exact List.mem_cons_self
      | step made above =>
          rcases rooted.edges (outline_of_block present) _ edge with dead | ⟨p, made', behind⟩
          · exact absurd (source ▸ dead) (rest.not_dead rooted _ _ rfl)
          · cases made.symm.trans made'
            exact List.mem_cons_of_mem _ (ih _ _ rfl a ((source ▸ behind).trans above))

/-- A value that a block itself makes, or that a local has at the start of it. -/
def Begins (b : Builder) (c : BlockId) (u : ValueId) : Prop :=
  (∃ w, b.look u = some w ∧ w.block = some c) ∨ ∃ slot, b.StartsWith c slot u

theorem definition_reaches (sound : b.Consistent strict written) (rooted : b.Rooted f written) {slot : Nat}
    (known : b.definition c slot = some v) : b.Reaches f c v := by
  rcases sound.flow.starts known with byClient | starts
  · obtain ⟨v', same, reaches⟩ := rooted.written byClient
    cases known.symm.trans same
    exact reaches
  · exact reaches_of_startsWith starts

theorem Consistent.phi_inner (sound : b.Consistent strict written) {type : ValueType} {p : Phi}
    (shown : b.look u = some ⟨type, some c, .phi p⟩) : c ≠ entryId := by
  cases role : p.role with
  | argument j =>
      rintro rfl
      obtain ⟨k, present, _, _, none_⟩ := sound.flow.entry
      obtain ⟨phis, args, _⟩ := sound.ledger.listed ⟨shown, role⟩ (outline_of_block present)
      cases none_.symm.trans args
  | «local» slot =>
      obtain ⟨_, _, home, inner, _⟩ := sound.flow.slot shown role
      cases home
      exact inner

theorem Consistent.operand_reaches (sound : b.Consistent strict written) (rooted : b.Rooted f written)
    {type : ValueType} {p : Phi} {k : Block} {pred : Predecessor} {i : Nat} {o : ValueId}
    (shown : b.look u = some ⟨type, some c, .phi p⟩) (present : b.blocks[c]? = some k)
    (edge : k.predecessors[i]? = some pred) (place : p.operands[i]? = some o) :
    b.Reaches f pred.block o := by
  cases role : p.role with
  | argument j =>
      obtain ⟨pred', arg, edge', passed, same⟩ :=
        (sound.ledger.operands ⟨shown, role⟩ (outline_of_block present)).2 place
      cases edge.symm.trans edge'
      exact (rooted.args (outline_of_block present) pred (Array.mem_of_getElem? edge) arg
        (List.mem_of_getElem? passed)).congr same.symm
  | «local» slot =>
      obtain ⟨pred', v, edge', known, same⟩ := sound.flow.operands ⟨shown, role⟩ present place
      cases edge.symm.trans edge'
      exact (definition_reaches sound rooted known).congr same.symm

/-- What a phi that is replaced stands for is known behind it on every path. -/
theorem Consistent.replaced_behind (sound : b.Consistent strict written) (rooted : b.Rooted f written)
    (path : Path b (c :: l)) (replaced : b.representative u ≠ u) {w : Value}
    (shown : b.look u = some w) (home : w.block = some c) :
    ∃ d m, l = d :: m ∧ b.Reaches f d u := by
  obtain ⟨type, home', p, _, isPhi, complete, _, _, operands⟩ := sound.formed.replaced replaced
  cases shown.symm.trans isPhi
  cases home
  have inner := sound.phi_inner shown
  cases path with
  | entry => exact absurd rfl inner
  | @step d _ m k pred rest present edge source =>
      obtain ⟨i, place⟩ := Array.mem_iff_getElem?.mp edge
      have size : p.operands.size = k.predecessors.size := by
        cases role : p.role with
        | argument j =>
            exact (sound.ledger.operands ⟨shown, role⟩ (outline_of_block present)).1
        | «local» slot => exact (sound.flow.complete ⟨shown, role⟩ present complete).1
      have inside : i < p.operands.size := size ▸ (Array.getElem?_eq_some_iff.mp place).1
      have operand := Array.getElem?_eq_getElem inside
      have reaches := sound.operand_reaches rooted shown present place operand
      have same := operands _ (Array.mem_of_getElem? operand)
      exact ⟨d, m, rfl, source ▸ reaches.congr same.symm⟩

/-- A value that begins in a block is made there, or every path brings it along. -/
theorem Consistent.begins_cases (sound : b.Consistent strict written) (rooted : b.Rooted f written)
    (path : Path b (c :: l)) (begins : b.Begins c u) :
    (∃ w, b.look (b.representative u) = some w ∧ w.block = some c ∧
      (w.content.isInstruction = true → b.representative u = u)) ∨
      ∃ d m, l = d :: m ∧ b.Reaches f d u := by
  have made {v : ValueId} {w : Value} (shown : b.look v = some w) (home : w.block = some c)
      (same : b.representative u = b.representative v)
      (own : w.content.isInstruction = true → u = v) :
      (∃ w, b.look (b.representative u) = some w ∧ w.block = some c ∧
        (w.content.isInstruction = true → b.representative u = u)) ∨
        ∃ d m, l = d :: m ∧ b.Reaches f d u := by
    by_cases still : b.representative v = v
    · refine .inl ⟨w, by rw [same, still, shown], home, fun listed => ?_⟩
      rw [same, still, own listed]
    · obtain ⟨d, m, split, reaches⟩ := sound.replaced_behind rooted path still shown home
      exact .inr ⟨d, m, split, reaches.congr same⟩
  rcases begins with ⟨w, shown, home⟩ | ⟨slot, starts⟩
  · exact made shown home rfl fun _ => rfl
  · cases starts with
    | initial entry value =>
        obtain ⟨type, _, shown⟩ := value
        refine .inl ⟨_, shown, by rw [entry], fun listed => ?_⟩
        dsimp only at listed
        split at listed <;> cases listed
    | phi own role same => exact made own rfl same nofun
    | @passed k present inner isSealed each =>
        cases path with
        | entry => exact absurd rfl inner
        | @step d _ m k' pred rest present' edge source =>
            cases present.symm.trans present'
            obtain ⟨v, known, same⟩ := each pred edge
            refine .inr ⟨d, m, rfl, ?_⟩
            exact source ▸ (definition_reaches sound rooted known).congr same.symm

theorem Reaches.begins (reaches : b.Reaches f c v) (alive : ¬ f.Dead c) :
    ∃ u e, b.representative u = b.representative v ∧ f.Under c e ∧ b.Begins e u := by
  obtain ⟨u, same, dead | ⟨e, under, known⟩⟩ := reaches
  · exact absurd dead alive
  · exact ⟨u, e, same, under, known⟩

theorem Consistent.home_on_path (sound : b.Consistent strict written) (rooted : b.Rooted f written)
    (path : Path b (c :: l)) (reaches : b.Reaches f c v) :
    ∃ w e, b.look (b.representative v) = some w ∧ w.block = some e ∧ e ∈ c :: l := by
  induction size : l.length using Nat.strongRecOn generalizing c l v with
  | ind n ih =>
      obtain ⟨u, e, same, under, begins⟩ := reaches.begins (path.not_dead rooted c l rfl)
      obtain ⟨m, first, suffix⟩ := path.upto (path.passes rooted c l rfl e under)
      rcases sound.begins_cases rooted first begins with ⟨w, shown, home, _⟩ | ⟨d, m', rfl, behind⟩
      · exact ⟨w, e, same ▸ shown, home, suffix.subset List.mem_cons_self⟩
      · have shorter : m'.length < n := by
          have := suffix.length_le
          simp only [List.length_cons] at this
          omega
        obtain ⟨w, e', shown, home, on⟩ := ih _ shorter first.tail behind rfl
        exact ⟨w, e', same ▸ shown, home, suffix.subset (List.mem_cons_of_mem _ on)⟩

theorem Consistent.dominates (sound : b.Consistent strict written) (rooted : b.Rooted f written)
    (reachable : b.Reachable c) (reaches : b.Reaches f c v) :
    ∃ w e, b.look (b.representative v) = some w ∧ w.block = some e ∧ b.Dominates e c := by
  obtain ⟨l, path⟩ := reachable
  obtain ⟨w, e, shown, home, _⟩ := sound.home_on_path rooted path reaches
  refine ⟨w, e, shown, home, fun m other => ?_⟩
  obtain ⟨w', e', shown', home', on⟩ := sound.home_on_path rooted other reaches
  cases shown.symm.trans shown'
  cases home.symm.trans home'
  exact on

/-- An instruction of a block that the block knows is known there by its own name: no path brings it
along to the block where it is made. -/
theorem Consistent.own_instruction (sound : b.Consistent strict written) (rooted : b.Rooted f written)
    (reachable : b.Reachable c) (stands : b.Stands f c u) {w : Value}
    (shown : b.look (b.representative u) = some w) (home : w.block = some c)
    (listed : w.content.isInstruction = true) : b.representative u = u := by
  obtain ⟨_, some_⟩ := reachable
  obtain ⟨l, path, once⟩ := some_.once
  have behind {d : BlockId} {m : List BlockId} (path : Path b (d :: m)) (reaches : b.Reaches f d u)
      (inside : d :: m ⊆ l) : False := by
    obtain ⟨w', e, shown', home', on⟩ := sound.home_on_path rooted path reaches
    cases shown.symm.trans shown'
    cases home.symm.trans home'
    exact once (inside on)
  rcases stands with dead | ⟨e, under, begins⟩
  · exact absurd dead (path.not_dead rooted c l rfl)
  by_cases here : e = c
  · subst here
    rcases sound.begins_cases rooted path begins with ⟨w', shown', _, own⟩ | ⟨d, m, rfl, reaches⟩
    · cases shown.symm.trans shown'
      exact own listed
    · exact (behind path.tail reaches (List.Subset.refl _)).elim
  · obtain ⟨m, first, suffix⟩ := path.upto (path.passes rooted c l rfl e under)
    have inside : e :: m ⊆ l := by
      rcases List.suffix_cons_iff.mp suffix with same | inner
      · exact absurd (List.cons.inj same).1 here
      · exact inner.subset
    exact (behind first ⟨u, rfl, .inr ⟨e, .refl e, begins⟩⟩ inside).elim

/-- A value that is not undefined, made in a block that dominates another one. -/
def Supports (b : Builder) (c : BlockId) (o : ValueId) (w : Value) (e : BlockId) : Prop :=
  b.values[b.representative o]? = some w ∧ w.content ≠ .undef ∧ w.block = some e ∧ b.Dominates e c

/-- On the way from the entry every operand is defined before it is used: in a block that dominates
the use, and within one block by something other than an instruction or by an earlier one. -/
structure Defined (b : Builder) : Prop where
  instruction : ∀ (id : ValueId) (v : Value) (c : BlockId) (k : Block), b.values[id]? = some v →
    v.content.isInstruction = true → v.block = some c → b.blocks[c]? = some k → b.Reachable c →
      ∀ o ∈ v.operands, ∃ w e, b.Supports c o w e ∧ (e = c → w.content.isInstruction = true →
        ∃ i j : Nat, i < j ∧ k.body[i]? = some (b.representative o) ∧ k.body[j]? = some id)
  phi : ∀ (id : ValueId) (v : Value) (p : Phi) (c : BlockId) (k : Block), b.values[id]? = some v →
    v.content = .phi p → v.block = some c → b.blocks[c]? = some k →
      ∀ (i : Nat) (pred : Predecessor) (o : ValueId), k.predecessors[i]? = some pred →
        p.operands[i]? = some o → b.Reachable pred.block → ∃ w e, b.Supports pred.block o w e

theorem Consistent.supports (sound : b.Consistent strict written) (rooted : b.Rooted f written)
    (reachable : b.Reachable c) (reaches : b.Reaches f c v) : ∃ w e, b.Supports c v w e := by
  obtain ⟨w, e, shown, home, dominates⟩ := sound.dominates rooted reachable reaches
  obtain ⟨w, present, rfl⟩ := value_of_look shown
  refine ⟨w, e, present, fun undef => ?_, by rwa [block_plain] at home, dominates⟩
  have none_ := (sound.formed.home shown).mpr (by
    obtain ⟨_, _, _⟩ := w
    cases undef
    rfl)
  cases none_.symm.trans home

theorem lt_of_sorted {xs : List Nat} {i j x y : Nat} (sorted : xs.Pairwise (· < ·))
    (first : xs[i]? = some x) (second : xs[j]? = some y) (lt : x < y) : i < j := by
  obtain ⟨inside, rfl⟩ := List.getElem?_eq_some_iff.mp first
  obtain ⟨inside', rfl⟩ := List.getElem?_eq_some_iff.mp second
  by_contra le
  rcases Nat.lt_or_eq_of_le (Nat.le_of_not_lt le) with less | rfl
  · exact Nat.lt_asymm lt (List.pairwise_iff_getElem.mp sorted j i inside' inside less)
  · exact Nat.lt_irrefl _ lt

theorem Consistent.defined (sound : b.Consistent strict written) (rooted : b.Rooted f written) :
    b.Defined where
  instruction id v c k present listed home block reachable o member := by
    have shown := look_of_value present
    have found := outline_of_block block
    obtain ⟨u, older, same, stands⟩ := rooted.operands shown (by rwa [block_plain])
      (by rwa [isInstruction_plain]) o (by rwa [operands_plain])
    obtain ⟨w, e, supports⟩ := sound.supports rooted reachable ⟨u, same, stands⟩
    refine ⟨w, e, supports, fun here isInstruction => ?_⟩
    subst here
    obtain ⟨present', _, home', _⟩ := supports
    have shown' := look_of_value present'
    have own := sound.own_instruction rooted reachable stands (same ▸ shown') (by rwa [block_plain])
      (by rwa [isInstruction_plain])
    obtain ⟨i, first⟩ := Array.mem_iff_getElem?.mp
      ((sound.ledger.body found _).mpr ⟨_, shown', by rwa [block_plain], by rwa [isInstruction_plain]⟩)
    obtain ⟨j, second⟩ := Array.mem_iff_getElem?.mp
      ((sound.ledger.body found _).mpr ⟨_, shown, by rwa [block_plain], by rwa [isInstruction_plain]⟩)
    refine ⟨i, j, lt_of_sorted (rooted.sorted found) ?_ ?_ (?_ : b.representative o < id), first, second⟩
    · rw [Array.getElem?_toList]
      exact first
    · rw [Array.getElem?_toList]
      exact second
    · rw [← same, own]
      exact older
  phi id v p c k present isPhi home block i pred o edge place reachable := by
    have shown := look_of_phi present isPhi
    rw [home] at shown
    exact sound.supports rooted reachable (sound.operand_reaches rooted shown block edge place)

end WasmFunclets.Ssa.Builder
