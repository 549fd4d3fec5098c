import WasmFunclets.Proofs.Ssa.Settle

/-! What holds of blocks apart from locals: which values are in their bodies, what their edges carry
and which phis take it. -/

namespace WasmFunclets.Ssa

def Content.isInstruction : Content → Bool
  | .op .. | .constant .. | .project .. => true
  | _ => false

theorem Value.IsRead.idle {v : Value} (make : v.IsRead) : v.content.isInstruction = false := by
  cases make <;> rfl

theorem Value.Settles.idle {v w : Value} (settles : v.Settles w) :
    w.content.isInstruction = v.content.isInstruction := by
  rcases settles with rfl | ⟨_, _, _, _, rfl, _, rfl⟩ <;> rfl

structure BlockOutline where
  kind : BlockKind
  isSealed : Bool
  predecessors : Array Predecessor
  args : Option (Array ValueId)
  body : Array ValueId

def Block.outline (k : Block) : BlockOutline := ⟨k.kind, k.isSealed, k.predecessors, k.args, k.body⟩

theorem Block.Alike.outline {k l : Block} (alike : k.Alike l) : l.outline = k.outline := by
  rw [Block.outline, alike.kind, alike.isSealed, alike.predecessors, alike.args, alike.body,
    Block.outline]

namespace Builder

variable {strict : Bool} {written : BlockId → Nat → Prop} {filling later_ : ValueId → Prop}
variable {closing : Option BlockId} {b t : Builder}

def outline (b : Builder) (c : BlockId) : Option BlockOutline := b.blocks[c]?.map Block.outline

theorem outline_of_block {c : BlockId} {k : Block} (present : b.blocks[c]? = some k) :
    b.outline c = some k.outline := by rw [outline, present, Option.map_some]

theorem block_of_outline {c : BlockId} {o : BlockOutline} (present : b.outline c = some o) :
    ∃ k, b.blocks[c]? = some k ∧ k.outline = o := Option.map_eq_some_iff.mp present

theorem lt_of_outline {c : BlockId} {o : BlockOutline} (present : b.outline c = some o) :
    c < b.blocks.size := by
  obtain ⟨k, found, _⟩ := block_of_outline present
  exact lt_of_block found

theorem outline_of_lt {c : BlockId} (inside : c < b.blocks.size) : ∃ o, b.outline c = some o := by
  obtain ⟨k, present⟩ := block_of_lt inside
  exact ⟨_, outline_of_block present⟩

theorem Keeps.outline (reads : b.Keeps t) : t.outline = b.outline := by
  funext c
  cases present : b.blocks[c]? with
  | none =>
      have missing : t.blocks[c]? = none := by
        rw [Array.getElem?_eq_none_iff] at present ⊢
        rwa [reads.count]
      rw [Builder.outline, Builder.outline, missing, present]
  | some k =>
      obtain ⟨l, found, alike, _⟩ := reads.block present
      rw [outline_of_block found, outline_of_block present, alike.outline]

/-- How many edges of a block its arguments have taken values from: all of them, but for a block that
is being given arguments. -/
def reach (giving : Option (BlockId × Nat)) (c : BlockId) (edges : Nat) : Nat :=
  match giving with
  | some (id, n) => if c = id then n else edges
  | none => edges

def ArgumentPhi (b : Builder) (id : ValueId) (type : ValueType) (c : BlockId) (j : Nat) (p : Phi) :
    Prop :=
  b.look id = some ⟨type, some c, .phi p⟩ ∧ p.role = .argument j

/-- What blocks and values say of each other. One block may be about to be sealed, and one may be
given arguments. -/
structure Ledger (closing : Option BlockId) (giving : Option (BlockId × Nat)) (b : Builder) :
    Prop where
  home_lt : ∀ {id : ValueId} {v : Value} {c : BlockId}, b.look id = some v → v.block = some c →
    c < b.blocks.size
  body : ∀ {c : BlockId} {o : BlockOutline}, b.outline c = some o → ∀ id, id ∈ o.body ↔
    ∃ v, b.look id = some v ∧ v.block = some c ∧ v.content.isInstruction = true
  body_nodup : ∀ {c : BlockId} {o : BlockOutline}, b.outline c = some o → o.body.toList.Nodup
  carried_lt : ∀ {c : BlockId} {o : BlockOutline}, b.outline c = some o → ∀ pred ∈ o.predecessors,
    ∀ arg ∈ pred.args, arg < b.values.size
  argument : ∀ {c : BlockId} {o : BlockOutline} {phis : Array ValueId}, b.outline c = some o →
    o.args = some phis → ∀ {j : Nat} {id : ValueId}, phis[j]? = some id →
      ∃ type p, b.ArgumentPhi id type c j p
  listed : ∀ {id : ValueId} {type : ValueType} {c : BlockId} {j : Nat} {p : Phi} {o : BlockOutline},
    b.ArgumentPhi id type c j p → b.outline c = some o → ∃ phis, o.args = some phis ∧
      phis[j]? = some id
  carried : ∀ {c : BlockId} {o : BlockOutline} {phis : Array ValueId}, b.outline c = some o →
    o.args = some phis → ∀ {i : Nat} {pred : Predecessor}, i < reach giving c o.predecessors.size →
      o.predecessors[i]? = some pred → pred.args.length = phis.size
  operands : ∀ {id : ValueId} {type : ValueType} {c : BlockId} {j : Nat} {p : Phi} {o : BlockOutline},
    b.ArgumentPhi id type c j p → b.outline c = some o →
      p.operands.size = reach giving c o.predecessors.size ∧
      ∀ {i : Nat} {v : ValueId}, p.operands[i]? = some v → ∃ pred arg,
        o.predecessors[i]? = some pred ∧ pred.args[j]? = some arg ∧
          b.representative arg = b.representative v
  complete : ∀ {id : ValueId} {type : ValueType} {c : BlockId} {j : Nat} {p : Phi} {o : BlockOutline},
    b.ArgumentPhi id type c j p → b.outline c = some o →
      (o.isSealed = true → p.complete = true) ∧
        (p.complete = true → o.isSealed = true ∨ closing = some c)

variable {giving : Option (BlockId × Nat)}

theorem Reads.argumentPhi_back (reads : b.Reads t) {id : ValueId} {type : ValueType} {c : BlockId}
    {j : Nat} {p : Phi} (phi : t.ArgumentPhi id type c j p) :
    ∃ r, b.ArgumentPhi id type c j { p with replacement := r } := by
  by_cases old : id < b.values.size
  · obtain ⟨v, present⟩ := look_of_lt old
    obtain ⟨w, found, settles⟩ := reads.look present
    rw [phi.1] at found
    cases found
    obtain ⟨r, rfl⟩ := settles.of_phi
    exact ⟨r, present, phi.2⟩
  · cases reads.added (Nat.le_of_not_lt old) phi.1 with
    | phi _ _ role => cases phi.2.symm.trans role

theorem Ledger.reads (ledger : b.Ledger closing giving) (reads : b.Reads t)
    (homes : ∀ {id : ValueId} {v : Value} {c : BlockId}, b.values.size ≤ id → t.look id = some v →
      v.block = some c → c < t.blocks.size) : t.Ledger closing giving := by
  have outlines := reads.outline
  constructor
  case home_lt =>
    intro id v c found home
    by_cases old : id < b.values.size
    · obtain ⟨u, present⟩ := look_of_lt old
      obtain ⟨w, found', settles⟩ := reads.look present
      rw [found] at found'
      cases found'
      rw [reads.count]
      exact ledger.home_lt present (settles.block_eq ▸ home)
    · exact homes (Nat.le_of_not_lt old) found home
  case body =>
    intro c o present id
    rw [outlines] at present
    rw [ledger.body present]
    constructor
    · rintro ⟨v, before, home, listed⟩
      obtain ⟨w, found, settles⟩ := reads.look before
      exact ⟨w, found, by rw [settles.block_eq, home], by rw [settles.idle, listed]⟩
    · rintro ⟨w, found, home, listed⟩
      by_cases old : id < b.values.size
      · obtain ⟨v, before⟩ := look_of_lt old
        obtain ⟨w', found', settles⟩ := reads.look before
        rw [found] at found'
        cases found'
        exact ⟨v, before, settles.block_eq ▸ home, settles.idle ▸ listed⟩
      · rw [(reads.added (Nat.le_of_not_lt old) found).idle] at listed
        cases listed
  case body_nodup =>
    intro c o present
    exact ledger.body_nodup (outlines ▸ present)
  case carried_lt =>
    intro c o present pred member arg carried
    exact Nat.lt_of_lt_of_le (ledger.carried_lt (outlines ▸ present) pred member arg carried)
      reads.size
  case argument =>
    intro c o phis present args j id position
    obtain ⟨type, p, before, role⟩ := ledger.argument (outlines ▸ present) args position
    obtain ⟨w, found, settles⟩ := reads.look before
    obtain ⟨r, rfl⟩ := settles.phi
    exact ⟨type, _, found, role⟩
  case listed =>
    intro id type c j p o phi present
    obtain ⟨r, before⟩ := reads.argumentPhi_back phi
    exact ledger.listed before (outlines ▸ present)
  case carried =>
    intro c o phis present args i pred
    exact ledger.carried (outlines ▸ present) args
  case operands =>
    intro id type c j p o phi present
    obtain ⟨r, before⟩ := reads.argumentPhi_back phi
    obtain ⟨size, each⟩ := ledger.operands before (outlines ▸ present)
    refine ⟨size, fun {i v} operand => ?_⟩
    obtain ⟨pred, arg, position, carried, same⟩ := each operand
    exact ⟨pred, arg, position, carried, reads.same same⟩
  case complete =>
    intro id type c j p o phi present
    obtain ⟨r, before⟩ := reads.argumentPhi_back phi
    have rule := ledger.complete before (outlines ▸ present)
    exact rule

theorem Flow.homes (flow : t.Flow strict written filling closing)
    (reads : b.Reads t) {id : ValueId} {v : Value} {c : BlockId} (new : b.values.size ≤ id)
    (found : t.look id = some v) (home : v.block = some c) : c < t.blocks.size := by
  cases reads.added new found with
  | param | zero =>
      cases home
      exact flow.size_pos
  | undef => cases home
  | phi _ _ role =>
      obtain ⟨_, c', same, _, known⟩ := flow.slot found role
      cases same.symm.trans home
      obtain ⟨d, known⟩ := Option.isSome_iff_exists.mp known
      obtain ⟨k, _, present, _⟩ := definition_eq_some.mp known
      exact lt_of_block present

section Retouch

variable {id : ValueId} {type : ValueType} {home : Option BlockId} {p q : Phi}

theorem Retouches.outline (touch : b.Retouches id type home p q t) : t.outline = b.outline := by
  funext c
  rw [Builder.outline, touch.blocks, Builder.outline]

/-- A phi changes, and an argument only as far as it is complete. -/
theorem Ledger.retouch (ledger : b.Ledger closing giving) (touch : b.Retouches id type home p q t)
    (operands : ∀ j, p.role = .argument j → q.operands = p.operands)
    (complete : ∀ j c o, p.role = .argument j → home = some c → b.outline c = some o →
      (o.isSealed = true → q.complete = true) ∧
        (q.complete = true → o.isSealed = true ∨ closing = some c)) : t.Ledger closing giving := by
  have outlines := touch.outline
  have same : t.representative = b.representative := touch.representative
  -- an argument phi, as it was
  have back {i : ValueId} {type' : ValueType} {c : BlockId} {j : Nat} {r : Phi}
      (phi : t.ArgumentPhi i type' c j r) :
      b.ArgumentPhi i type' c j r ∨ i = id ∧ b.ArgumentPhi i type' c j p ∧ home = some c ∧ r = q := by
    obtain ⟨u, before, _, _, rfl | ⟨rfl, rfl, same⟩⟩ := touch.back phi.1
    · exact .inl ⟨before, phi.2⟩
    · cases same
      exact .inr ⟨rfl, ⟨before, touch.role.symm.trans phi.2⟩, rfl, rfl⟩
  constructor
  case home_lt =>
    intro i v c found here
    obtain ⟨u, before, _, block, _⟩ := touch.back found
    rw [touch.blocks]
    exact ledger.home_lt before (block.trans here)
  case body =>
    intro c o present i
    rw [outlines] at present
    rw [ledger.body present]
    constructor
    · rintro ⟨v, before, here, listed⟩
      have other : i ≠ id := by
        rintro rfl
        rw [touch.before] at before
        cases before
        cases listed
      exact ⟨v, by rw [touch.others other, before], here, listed⟩
    · rintro ⟨v, found, here, listed⟩
      obtain ⟨u, before, _, _, rfl | ⟨rfl, rfl, rfl⟩⟩ := touch.back found
      · exact ⟨_, before, here, listed⟩
      · cases listed
  case body_nodup =>
    intro c o present
    exact ledger.body_nodup (outlines ▸ present)
  case carried_lt =>
    intro c o present pred member arg carried
    rw [touch.size]
    exact ledger.carried_lt (outlines ▸ present) pred member arg carried
  case argument =>
    intro c o phis present args j i position
    obtain ⟨type', r, before, role⟩ := ledger.argument (outlines ▸ present) args position
    by_cases own : i = id
    · subst own
      rw [touch.before] at before
      cases before
      exact ⟨_, q, touch.own, touch.role.trans role⟩
    · exact ⟨type', r, by rw [touch.others own, before], role⟩
  case listed =>
    intro i type' c j r o phi present
    rcases back phi with before | ⟨_, before, _⟩
    · exact ledger.listed before (outlines ▸ present)
    · exact ledger.listed before (outlines ▸ present)
  case carried =>
    intro c o phis present args i pred
    exact ledger.carried (outlines ▸ present) args
  case operands =>
    intro i type' c j r o phi present
    rw [same]
    rcases back phi with before | ⟨_, before, _, rfl⟩
    · exact ledger.operands before (outlines ▸ present)
    · rw [operands j before.2]
      exact ledger.operands before (outlines ▸ present)
  case complete =>
    intro i type' c j r o phi present
    rcases back phi with before | ⟨_, before, here, rfl⟩
    · exact ledger.complete before (outlines ▸ present)
    · exact complete j c o before.2 here (outlines ▸ present)

end Retouch

end Builder

end WasmFunclets.Ssa
