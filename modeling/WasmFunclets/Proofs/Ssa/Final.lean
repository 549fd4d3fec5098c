import Mathlib.Data.List.Nodup
import WasmFunclets.Proofs.Ssa.Shape

/-! A function whose blocks are all sealed: nothing in it waits any longer, its ids name something, and
its blocks and values say the same of each other. -/

namespace WasmFunclets.Ssa.Builder

variable {context : Context} {strict : Bool} {f : Forest} {written : BlockId → Nat → Prop}
variable {b : Builder} {id : ValueId} {v : Value} {p : Phi} {c : BlockId} {k : Block}

theorem look_of_value (present : b.values[id]? = some v) : b.look id = some v.plain := by
  rw [look, present, Option.map_some]

theorem look_of_phi (present : b.values[id]? = some v) (isPhi : v.content = .phi p) :
    b.look id = some ⟨v.type, v.block, .phi p.plain⟩ := by
  obtain ⟨_, _, _⟩ := v
  cases isPhi
  exact look_of_value present

theorem value_of_look {w : Value} (shown : b.look id = some w) :
    ∃ v, b.values[id]? = some v ∧ v.plain = w := Option.map_eq_some_iff.mp shown

@[simp] theorem type_plain (v : Value) : v.plain.type = v.type := Value.type_updatePhi _ v

@[simp] theorem block_plain (v : Value) : v.plain.block = v.block := Value.block_updatePhi _ v

@[simp] theorem operands_plain (v : Value) : v.plain.operands = v.operands := by
  obtain ⟨_, _, _ | _ | _ | _ | _ | _ | _⟩ := v <;> rfl

@[simp] theorem isInstruction_plain (v : Value) :
    v.plain.content.isInstruction = v.content.isInstruction := by
  obtain ⟨_, _, _ | _ | _ | _ | _ | _ | _⟩ := v <;> rfl

theorem Consistent.phi_home (sound : b.Consistent strict written) (present : b.values[id]? = some v)
    (isPhi : v.content = .phi p) : ∃ c k, v.block = some c ∧ b.blocks[c]? = some k := by
  have shown := look_of_phi present isPhi
  obtain ⟨c, home⟩ := Option.ne_none_iff_exists'.mp fun none_ => by
    cases (sound.formed.home shown).mp none_
  obtain ⟨o, found⟩ := outline_of_lt (sound.ledger.home_lt shown home)
  obtain ⟨k, block, _⟩ := block_of_outline found
  exact ⟨c, k, home, block⟩

structure Final (b : Builder) : Prop where
  isSealed : ∀ k ∈ b.blocks, k.isSealed = true
  pending : ∀ k ∈ b.blocks, k.pending = #[]
  placeholder : ∀ k ∈ b.blocks, ∀ (slot : Nat) (phi : ValueId),
    k.definitions[slot]? ≠ some (.placeholder phi)
  complete : ∀ v ∈ b.values, ∀ p, v.content = .phi p → p.complete = true

theorem Consistent.final (sound : b.Consistent strict written)
    (closed : ∀ c x, b.shape c = some x → x.isSealed = true) : b.Final := by
  have isSealed : ∀ {c : BlockId} {k : Block}, b.blocks[c]? = some k → k.isSealed = true :=
    fun present => closed _ _ (shape_of_outline (outline_of_block present))
  have idle : ∀ {c : BlockId} {k : Block} {slot : Nat} {id : ValueId}, b.blocks[c]? = some k →
      (slot, id) ∉ k.pending := fun present waits => by
    have isOpen := (sound.flow.pending present waits).1
    rw [isSealed present] at isOpen
    cases isOpen
  refine ⟨fun k member => ?_, fun k member => ?_, fun k member slot phi waits => ?_,
    fun v member p isPhi => ?_⟩
  · obtain ⟨c, present⟩ := Array.mem_iff_getElem?.mp member
    exact isSealed present
  · obtain ⟨c, present⟩ := Array.mem_iff_getElem?.mp member
    exact Array.eq_empty_iff_forall_not_mem.mpr fun _ => idle present
  · obtain ⟨c, present⟩ := Array.mem_iff_getElem?.mp member
    exact idle present (sound.flow.placeholder present waits)
  · obtain ⟨id, present⟩ := Array.mem_iff_getElem?.mp member
    obtain ⟨c, k, home, block⟩ := sound.phi_home present isPhi
    have shown := look_of_phi present isPhi
    rw [home] at shown
    cases role : p.role with
    | argument j =>
        exact (sound.ledger.complete ⟨shown, role⟩ (outline_of_block block)).1 (isSealed block)
    | «local» slot =>
        by_contra filling
        rcases sound.flow.waits ⟨shown, role⟩ block (eq_false_of_ne_true filling) with absurd_ | ⟨waits, _⟩
        · exact absurd_
        · exact idle block waits

theorem Final.complete_phi (final : b.Final) (present : b.values[id]? = some v)
    (isPhi : v.content = .phi p) : p.complete = true :=
  final.complete v (Array.mem_of_getElem? present) p isPhi

/-- The operands of a phi: one for each predecessor of its block, the value that this one passes for
the argument or the definition that it ends with. -/
def Phi.Fed (b : Builder) (id : ValueId) (k : Block) (p : Phi) : Prop :=
  p.operands.size = k.predecessors.size ∧
    match p.role with
    | .argument j => (∃ phis, k.args = some phis ∧ phis[j]? = some id) ∧
        ∀ (i : Nat) (o : ValueId) (pred : Predecessor), p.operands[i]? = some o →
          k.predecessors[i]? = some pred → ∃ arg, pred.args[j]? = some arg ∧
            b.representative arg = b.representative o
    | .local slot => ∀ (i : Nat) (o : ValueId) (pred : Predecessor), p.operands[i]? = some o →
        k.predecessors[i]? = some pred → ∃ l d, b.blocks[pred.block]? = some l ∧
          l.definitions[slot]? = some d ∧ b.representative d.value = b.representative o

/-- Ids name something, every block has a predecessor once, with a value for each argument, and every
instruction stands once, in its own block. -/
structure Integral (b : Builder) : Prop where
  value : ∀ (id : ValueId) (v : Value), b.values[id]? = some v →
    (∀ o ∈ v.operands, o < b.values.size) ∧ ∀ c, v.block = some c → c < b.blocks.size
  block : ∀ (c : BlockId) (k : Block), b.blocks[c]? = some k →
    (∀ pred ∈ k.predecessors, pred.block < b.blocks.size ∧ ∀ arg ∈ pred.args, arg < b.values.size) ∧
    (∀ phi ∈ k.argIds, phi < b.values.size) ∧ (∀ id ∈ k.body, id < b.values.size) ∧
    ∀ (slot : Nat) (d : Definition), k.definitions[slot]? = some d → d.value < b.values.size
  distinct : ∀ (c : BlockId) (k : Block), b.blocks[c]? = some k →
    (k.predecessors.toList.map Predecessor.block).Nodup
  carried : ∀ (c : BlockId) (k : Block) (phis : Array ValueId), b.blocks[c]? = some k →
    k.args = some phis → ∀ pred ∈ k.predecessors, pred.args.length = phis.size
  phi : ∀ (id : ValueId) (v : Value) (p : Phi), b.values[id]? = some v → v.content = .phi p →
    ∃ c k, v.block = some c ∧ b.blocks[c]? = some k ∧ Phi.Fed b id k p
  placed : ∀ (id : ValueId) (v : Value), b.values[id]? = some v → v.content.isInstruction = true →
    ∃ c, v.block = some c
  body : ∀ (c : BlockId) (k : Block) (id : ValueId) (v : Value), b.blocks[c]? = some k →
    b.values[id]? = some v → k.body.toList.count id =
      if v.content.isInstruction = true ∧ v.block = some c then 1 else 0

theorem Consistent.fed (sound : b.Consistent strict written) (present : b.values[id]? = some v)
    (isPhi : v.content = .phi p) (complete : p.complete = true) (home : v.block = some c)
    (block : b.blocks[c]? = some k) : Phi.Fed b id k p := by
  have shown := look_of_phi present isPhi
  rw [home] at shown
  have found := outline_of_block block
  unfold Phi.Fed
  split
  · rename_i j role
    have argument : b.ArgumentPhi id v.type c j p.plain := ⟨shown, role⟩
    obtain ⟨size, carried⟩ := sound.ledger.operands argument found
    refine ⟨size, sound.ledger.listed argument found, fun i o pred place edge => ?_⟩
    obtain ⟨pred', arg, edge', passed, same⟩ := carried place
    cases edge.symm.trans edge'
    exact ⟨arg, passed, same⟩
  · rename_i slot role
    have isLocal : b.LocalPhi id v.type c slot p.plain := ⟨shown, role⟩
    refine ⟨(sound.flow.complete isLocal block complete).1, fun i o pred place edge => ?_⟩
    obtain ⟨pred', d, edge', defined, same⟩ := sound.flow.operands isLocal block place
    cases edge.symm.trans edge'
    obtain ⟨d', found', rfl⟩ := Option.map_eq_some_iff.mp defined
    obtain ⟨l, ends, inside⟩ := Option.bind_eq_some_iff.mp found'
    exact ⟨l, d', ends, inside, same⟩

theorem Consistent.operand_lt (sound : b.Consistent strict written) (rooted : b.Rooted f written)
    (shown : b.look id = some v) : ∀ o ∈ v.operands, o < b.values.size := by
  intro o member
  cases part : v.content.isProjection with
  | false => exact sound.formed.operand_lt shown part o member
  | true =>
      have listed : v.content.isInstruction = true := by
        obtain ⟨_, _, _ | _ | _ | _ | _ | _ | _⟩ := v <;> first | rfl | cases part
      obtain ⟨c, home⟩ := Option.ne_none_iff_exists'.mp fun none_ => by
        rw [(sound.formed.home shown).mp none_] at part
        cases part
      obtain ⟨u, older, same, _⟩ := rooted.operands shown home listed o member
      by_contra out
      rw [sound.formed.representative_of_le (Nat.le_of_not_lt out)] at same
      have inside := sound.formed.representative_lt (Nat.lt_trans older (lt_of_look shown))
      exact out (same ▸ inside)

theorem Consistent.integral (sound : b.Consistent strict written) (rooted : b.Rooted f written)
    (final : b.Final) : b.Integral where
  value id v present := by
    have shown := look_of_value present
    refine ⟨fun o member => ?_, fun c home => ?_⟩
    · exact sound.operand_lt rooted shown o (by rwa [operands_plain])
    · exact sound.ledger.home_lt shown (by rwa [block_plain])
  block c k present := by
    have found := outline_of_block present
    refine ⟨fun pred member => ⟨sound.flow.pred_lt present pred member,
      sound.ledger.carried_lt found pred member⟩, fun phi member => ?_, fun id member => ?_,
      fun slot d known => (sound.flow.definition_lt
        (definition_eq_some.mpr ⟨k, d, present, known, rfl⟩)).1⟩
    · cases args : k.args with
      | none => simp [Block.argIds, args] at member
      | some phis =>
          obtain ⟨j, listed⟩ := List.mem_iff_getElem?.mp member
          rw [Block.argIds, args, Option.getD_some, Array.getElem?_toList] at listed
          obtain ⟨_, _, shown, _⟩ := sound.ledger.argument found args listed
          exact lt_of_look shown
    · obtain ⟨_, shown, _⟩ := (sound.ledger.body found id).mp member
      exact lt_of_look shown
  distinct c k present := rooted.distinct (outline_of_block present)
  carried c k phis present args pred member := by
    obtain ⟨i, place⟩ := Array.mem_iff_getElem?.mp member
    exact sound.ledger.carried (outline_of_block present) args
      (Array.getElem?_eq_some_iff.mp place).1 place
  phi id v p present isPhi := by
    obtain ⟨c, k, home, block⟩ := sound.phi_home present isPhi
    exact ⟨c, k, home, block, sound.fed present isPhi (final.complete_phi present isPhi) home block⟩
  placed id v present listed := by
    refine Option.ne_none_iff_exists'.mp fun none_ => ?_
    have undef := (sound.formed.home (look_of_value present)).mp (by rwa [block_plain])
    rw [← isInstruction_plain, undef] at listed
    cases listed
  body c k id v block present := by
    have found := outline_of_block block
    have shown := look_of_value present
    have member : id ∈ k.body ↔ v.content.isInstruction = true ∧ v.block = some c := by
      refine (sound.ledger.body found id).trans ⟨?_, ?_⟩
      · rintro ⟨w, shown', home, listed⟩
        cases shown.symm.trans shown'
        exact ⟨by rwa [isInstruction_plain] at listed, by rwa [block_plain] at home⟩
      · rintro ⟨listed, home⟩
        exact ⟨_, shown, by rwa [block_plain], by rwa [isInstruction_plain]⟩
    split
    · rename_i here
      exact List.count_eq_one_of_mem (sound.ledger.body_nodup found)
        (Array.mem_toList_iff.mpr (member.mpr here))
    · rename_i elsewhere
      exact List.count_eq_zero.mpr fun inside => elsewhere (member.mp (Array.mem_toList_iff.mp inside))

end WasmFunclets.Ssa.Builder
