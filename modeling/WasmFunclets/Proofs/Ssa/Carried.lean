import WasmFunclets.Proofs.Ssa.Dominance
import WasmFunclets.Ssa.Execution

/-! What becomes of the values of a point when an instruction is carried out and when an edge is
followed. An instruction changes no value that its block knew before. An edge gives the arguments and the
locals of its target what the block at its start has for them, and leaves what is known above the
target as it is. -/

namespace WasmFunclets.Ssa

open Builder

variable {V : Type} {strict : Bool} {f : Forest} {written : BlockId → Nat → Prop} {b : Builder}
variable {x : Point V} {a c d : BlockId} {i j slot : Nat} {u v id : ValueId} {w : Value} {k : Block}
variable {l : List BlockId} {pred : Predecessor}

namespace Point

theorem carried_elsewhere (shown : b.look id = some w) (other : w.block ≠ some d) :
    x.carried b d i id = x.env id := by
  obtain ⟨v, present, rfl⟩ := value_of_look shown
  rw [block_plain] at other
  rw [carried, present]
  split
  · rename_i same
    cases same
    rw [if_neg fun here => other (congrArg some here.1)]
  · rfl

theorem carried_phi {type : ValueType} {p : Phi} (shown : b.look id = some ⟨type, some d, .phi p⟩)
    (live : p.replacement = none) : x.carried b d i id = p.operands[i]?.bind (x.read b) := by
  obtain ⟨v, present, same⟩ := value_of_look shown
  obtain ⟨_, _, _ | _ | _ | _ | q | _ | _⟩ := v
  case phi =>
    cases same
    rw [carried, present]
    exact if_pos ⟨rfl, live⟩
  all_goals cases same

end Point

namespace Builder

/-- A block knows a value under the name of one that is older than a certain one. -/
def Older (b : Builder) (f : Forest) (n : ValueId) (c : BlockId) (v : ValueId) : Prop :=
  ∃ u < n, b.representative u = b.representative v ∧ b.Stands f c u

theorem Older.mono {m n : ValueId} (older : b.Older f m c v) (le : m ≤ n) : b.Older f n c v := by
  obtain ⟨u, less, known⟩ := older
  exact ⟨u, Nat.lt_of_lt_of_le less le, known⟩

theorem Older.congr {n : ValueId} (older : b.Older f n c v)
    (same : b.representative v = b.representative u) : b.Older f n c u := by
  obtain ⟨w, less, alike, known⟩ := older
  exact ⟨w, less, alike.trans same, known⟩

theorem Older.reaches {n : ValueId} (older : b.Older f n c v) : b.Reaches f c v := by
  obtain ⟨u, _, same, stands⟩ := older
  exact ⟨u, same, stands⟩

theorem Consistent.made_above (sound : b.Consistent strict written) (rooted : b.Rooted f written)
    (reachable : b.Reachable d) (under : f.Under d a) (other : a ≠ d) (reaches : b.Reaches f a v) :
    ∃ w, b.look (b.representative v) = some w ∧ w.block ≠ some d := by
  obtain ⟨_, some_⟩ := reachable
  obtain ⟨m, path, once⟩ := some_.once
  obtain ⟨n, first, suffix⟩ := path.upto (path.passes rooted d m rfl a under)
  obtain ⟨w, e, shown, home, on⟩ := sound.home_on_path rooted first reaches
  refine ⟨w, shown, fun here => once ?_⟩
  cases home.symm.trans here
  rcases List.suffix_cons_iff.mp suffix with same | inner
  · exact absurd (List.cons.inj same).1 other
  · exact inner.subset on

theorem Consistent.made_behind_phi (sound : b.Consistent strict written) (rooted : b.Rooted f written)
    (reachable : b.Reachable d) (replaced : b.representative u ≠ u) (shown : b.look u = some w)
    (home : w.block = some d) : ∃ w, b.look (b.representative u) = some w ∧ w.block ≠ some d := by
  obtain ⟨_, some_⟩ := reachable
  obtain ⟨m, path, once⟩ := some_.once
  obtain ⟨e, n, rfl, reaches⟩ := sound.replaced_behind rooted path replaced shown home
  obtain ⟨w', e', shown', home', on⟩ := sound.home_on_path rooted path.tail reaches
  refine ⟨w', shown', fun here => once ?_⟩
  cases home'.symm.trans here
  exact on

theorem Consistent.made_past (sound : b.Consistent strict written) (rooted : b.Rooted f written)
    (reachable : b.Reachable d) (inner : d ≠ entryId) (present : b.blocks[d]? = some k)
    (each : ∀ pred ∈ k.predecessors, b.Reaches f pred.block v) :
    ∃ w, b.look (b.representative v) = some w ∧ w.block ≠ some d := by
  obtain ⟨_, some_⟩ := reachable
  obtain ⟨m, path, once⟩ := some_.once
  cases path with
  | entry => exact absurd rfl inner
  | @step c _ m k' pred rest present' edge source =>
      cases present.symm.trans present'
      obtain ⟨w, e', shown, home, on⟩ := sound.home_on_path rooted rest (source ▸ each pred edge)
      refine ⟨w, shown, fun here => once ?_⟩
      cases home.symm.trans here
      exact on

theorem Consistent.made_before (sound : b.Consistent strict written) (rooted : b.Rooted f written)
    (reachable : b.Reachable d) (inner : d ≠ entryId) (present : b.blocks[d]? = some k)
    (each : ∀ pred ∈ k.predecessors, ∃ e, b.definition pred.block slot = some e ∧
      b.representative e = b.representative v) :
    ∃ w, b.look (b.representative v) = some w ∧ w.block ≠ some d :=
  sound.made_past rooted reachable inner present fun pred member => by
    obtain ⟨e, known, same⟩ := each pred member
    exact (definition_reaches sound rooted known).congr same.symm

theorem Final.complete_of_look (final : b.Final) {type : ValueType} {home : Option BlockId} {p : Phi}
    (shown : b.look u = some ⟨type, home, .phi p⟩) : p.complete = true := by
  obtain ⟨v, present, same⟩ := value_of_look shown
  obtain ⟨_, _, _ | _ | _ | _ | q | _ | _⟩ := v
  case phi =>
    cases same
    exact (final.complete_phi present rfl : q.complete = true)
  all_goals cases same

variable (sound : b.Consistent strict written) (rooted : b.Rooted f written)
include sound rooted

theorem Consistent.carried_operand (reachable : b.Reachable d) {type : ValueType} {p : Phi} {o : ValueId}
    (shown : b.look u = some ⟨type, some d, .phi p⟩) (place : p.operands[i]? = some o) :
    x.carried b d i (b.representative u) = x.read b o := by
  by_cases live : b.representative u = u
  · rw [live, Point.carried_phi shown (sound.formed.live shown live), place, Option.bind_some]
  · obtain ⟨w, shown', elsewhere⟩ := sound.made_behind_phi rooted reachable live shown rfl
    obtain ⟨_, _, _, _, again, _, _, _, operands⟩ := sound.formed.replaced live
    cases shown.symm.trans again
    rw [Point.carried_elsewhere shown' elsewhere, Point.read, operands o (Array.mem_of_getElem? place)]

theorem Consistent.carried_argument (reachable : b.Reachable d) {phis : Array ValueId} {arg : ValueId}
    (present : b.blocks[d]? = some k) (args : k.args = some phis)
    (edge : k.predecessors[i]? = some pred) (listed : phis[j]? = some u)
    (carried : pred.args[j]? = some arg) :
    x.carried b d i (b.representative u) = x.read b arg := by
  have outline := outline_of_block present
  obtain ⟨type, p, phi⟩ := sound.ledger.argument outline args listed
  obtain ⟨size, each⟩ := sound.ledger.operands phi outline
  have inside : i < p.operands.size := size ▸ (Array.getElem?_eq_some_iff.mp edge).1
  have place := Array.getElem?_eq_getElem inside
  obtain ⟨pred', arg', edge', carried', same⟩ := each place
  cases edge.symm.trans edge'
  cases carried.symm.trans carried'
  rw [sound.carried_operand rooted reachable phi.1 place, Point.read, Point.read, same]

/-- A local that the target has not written gets what it is at the end of the block behind. -/
theorem Consistent.carried_local (final : b.Final) (path : b.Path (c :: l)) (present : b.blocks[d]? = some k)
    (edge : k.predecessors[i]? = some pred) (source : pred.block = c) (starts : b.StartsWith d slot v) :
    ∃ e, b.definition c slot = some e ∧
      x.carried b d i (b.representative v) = x.read b e := by
  have member := Array.mem_of_getElem? edge
  have reachable : b.Reachable d := ⟨_, .step path present member source⟩
  cases starts with
  | initial entry =>
      obtain ⟨k', present', _, none_, _⟩ := sound.flow.entry
      cases (entry ▸ present).symm.trans present'
      simp [none_] at member
  | @phi q type p own role same =>
      have size := (sound.flow.complete ⟨own, role⟩ present (final.complete_of_look own)).1
      have inside : i < p.operands.size := size ▸ (Array.getElem?_eq_some_iff.mp edge).1
      have place := Array.getElem?_eq_getElem inside
      obtain ⟨pred', e, edge', known, alike⟩ := sound.flow.operands ⟨own, role⟩ present place
      cases edge.symm.trans edge'
      refine ⟨e, source ▸ known, ?_⟩
      rw [same, sound.carried_operand rooted reachable own place, Point.read, Point.read, alike]
  | passed present' inner _ each =>
      cases present.symm.trans present'
      obtain ⟨e, known, alike⟩ := each pred member
      obtain ⟨w, shown, elsewhere⟩ := sound.made_before rooted reachable inner present each
      refine ⟨e, source ▸ known, ?_⟩
      rw [Point.carried_elsewhere shown elsewhere, Point.read, alike]

theorem Consistent.other_instruction (reachable : b.Reachable c) (shown : b.look id = some w)
    (home : w.block = some c) (listed : w.content.isInstruction = true) (stands : b.Stands f c u)
    (other : u ≠ id) : b.representative u ≠ id := fun same =>
  other ((sound.own_instruction rooted reachable stands (same ▸ shown) home listed).symm.trans same)

theorem Consistent.older_other (reachable : b.Reachable c) (shown : b.look id = some w)
    (home : w.block = some c) (listed : w.content.isInstruction = true) (older : b.Older f id c v) :
    b.representative v ≠ id := by
  obtain ⟨u, less, same, stands⟩ := older
  exact same ▸ sound.other_instruction rooted reachable shown home listed stands (Nat.ne_of_lt less)

theorem Consistent.startsWith_other (reachable : b.Reachable c) (shown : b.look id = some w)
    (home : w.block = some c) (listed : w.content.isInstruction = true) (starts : b.StartsWith c slot v) :
    b.representative v ≠ id := by
  intro here
  cases starts with
  | initial _ value =>
      obtain ⟨type, _, shown'⟩ := value
      rw [here, shown] at shown'
      cases shown'
      dsimp only at listed
      split at listed <;> cases listed
  | @phi q type p own role same =>
      have stands : b.Stands f c q := .inr ⟨c, .refl c, .inl ⟨_, own, rfl⟩⟩
      refine sound.other_instruction rooted reachable shown home listed stands ?_ (same ▸ here)
      rintro rfl
      cases own.symm.trans shown
      cases listed
  | passed present inner _ each =>
      obtain ⟨w', shown', elsewhere⟩ := sound.made_before rooted reachable inner present each
      rw [here, shown] at shown'
      cases shown'
      exact elsewhere home

end Builder

end WasmFunclets.Ssa
