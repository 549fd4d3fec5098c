import WasmFunclets.Proofs.Ssa.Flow

/-! What holds of the locals of a function under construction between any two elementary changes:
which phis collect operands, which wait for their block to be sealed, and which definition each of
their operands is. -/

namespace WasmFunclets.Ssa.Builder

def LocalPhi (b : Builder) (id : ValueId) (type : ValueType) (c : BlockId) (slot : Nat) (p : Phi) :
    Prop :=
  b.look id = some ⟨type, some c, .phi p⟩ ∧ p.role = .local slot

/-- The state of the locals. Some locals of blocks are written, where the definition is up to the
client; some phis are collecting operands; and one block may be about to be sealed. -/
structure Flow (strict : Bool) (written : BlockId → Nat → Prop) (filling : ValueId → Prop)
    (closing : Option BlockId) (b : Builder) : Prop where
  entry : ∃ k, b.blocks[entryId]? = some k ∧ k.isSealed = true ∧ k.predecessors = #[] ∧ k.args = none
  entry_kind : ∀ {c : BlockId} {k : Block}, b.blocks[c]? = some k → (k.kind = .entry ↔ c = entryId)
  pred_lt : ∀ {c : BlockId} {k : Block}, b.blocks[c]? = some k →
    ∀ pred ∈ k.predecessors, pred.block < b.blocks.size
  slot : ∀ {id : ValueId} {type : ValueType} {home : Option BlockId} {p : Phi} {s : Nat},
    b.look id = some ⟨type, home, .phi p⟩ → p.role = .local s →
      b.locals[s]? = some type ∧ ∃ c, home = some c ∧ c ≠ entryId ∧ (b.definition c s).isSome
  operands : ∀ {id : ValueId} {type : ValueType} {c : BlockId} {s : Nat} {p : Phi} {k : Block},
    b.LocalPhi id type c s p → b.blocks[c]? = some k → ∀ {i : Nat} {o : ValueId},
      p.operands[i]? = some o → ∃ pred d, k.predecessors[i]? = some pred ∧
        b.definition pred.block s = some d ∧ b.representative d = b.representative o
  complete : ∀ {id : ValueId} {type : ValueType} {c : BlockId} {s : Nat} {p : Phi} {k : Block},
    b.LocalPhi id type c s p → b.blocks[c]? = some k → p.complete = true →
      p.operands.size = k.predecessors.size ∧ (k.isSealed = true ∨ closing = some c)
  waits : ∀ {id : ValueId} {type : ValueType} {c : BlockId} {s : Nat} {p : Phi} {k : Block},
    b.LocalPhi id type c s p → b.blocks[c]? = some k → p.complete = false →
      filling id ∨ (s, id) ∈ k.pending ∧ p.operands = #[]
  pending : ∀ {c : BlockId} {k : Block} {s : Nat} {id : ValueId}, b.blocks[c]? = some k →
    (s, id) ∈ k.pending → k.isSealed = false ∧ (b.definition c s).isSome ∧
      ∃ type p, b.LocalPhi id type c s p
  pending_nodup : ∀ {c : BlockId} {k : Block}, b.blocks[c]? = some k →
    (k.pending.toList.map Prod.snd).Nodup
  placeholder : ∀ {c : BlockId} {k : Block} {s : Nat} {id : ValueId}, b.blocks[c]? = some k →
    k.definitions[s]? = some (.placeholder id) → (s, id) ∈ k.pending
  definition_lt : ∀ {c : BlockId} {s : Nat} {d : ValueId}, b.definition c s = some d →
    d < b.values.size ∧ s < b.locals.size
  starts : ∀ {c : BlockId} {s : Nat} {d : ValueId}, b.definition c s = some d →
    written c s ∨ b.StartsWith c s d
  typed : strict = true → ∀ {c : BlockId} {s : Nat} {d : ValueId}, b.definition c s = some d →
    ∀ type w, b.locals[s]? = some type → b.look (b.representative d) = some w →
      w.type.admits type = true

variable {strict : Bool} {written : BlockId → Nat → Prop} {filling later_ : ValueId → Prop}
variable {closing : Option BlockId} {b t : Builder}

theorem Flow.size_pos (flow : b.Flow strict written filling closing) : 0 < b.blocks.size := by
  obtain ⟨k, present, _⟩ := flow.entry
  exact lt_of_block present

theorem Keeps.localPhi_back (reads : b.Keeps t) {id : ValueId} {type : ValueType} {c : BlockId}
    {s : Nat} {p : Phi} (phi : t.LocalPhi id type c s p) (old : id < b.values.size) :
    ∃ r, b.LocalPhi id type c s { p with replacement := r } := by
  obtain ⟨v, present⟩ := look_of_lt old
  obtain ⟨w, found, settles⟩ := reads.look present
  rw [phi.1] at found
  cases found
  obtain ⟨r, rfl⟩ := settles.of_phi
  exact ⟨r, present, phi.2⟩

theorem Keeps.localPhi (reads : b.Keeps t) {id : ValueId} {type : ValueType} {c : BlockId}
    {s : Nat} {p : Phi} (phi : b.LocalPhi id type c s p) :
    ∃ r, t.LocalPhi id type c s { p with replacement := r } := by
  obtain ⟨w, found, settles⟩ := reads.look phi.1
  obtain ⟨r, rfl⟩ := settles.phi
  exact ⟨r, found, phi.2⟩

theorem Keeps.isSome_definition (reads : b.Keeps t) {c : BlockId} {s : Nat}
    (known : (b.definition c s).isSome) : (t.definition c s).isSome := by
  obtain ⟨d, known⟩ := Option.isSome_iff_exists.mp known
  obtain ⟨d', known', _⟩ := reads.definition known
  rw [known']
  rfl

theorem Keeps.definition_back (reads : b.Keeps t) {c : BlockId} {s : Nat} {d : ValueId}
    (known : t.definition c s = some d) : b.definition c s = none ∨
      ∃ d₀, b.definition c s = some d₀ ∧ t.representative d = t.representative d₀ := by
  cases before : b.definition c s with
  | none => exact .inl rfl
  | some d₀ =>
      obtain ⟨d', known', same⟩ := reads.definition before
      cases known.symm.trans known'
      exact .inr ⟨d₀, rfl, same⟩

section Later

variable {id : ValueId} {type : ValueType} {c : BlockId} {s : Nat} {p : Phi} {k l : Block}

theorem Flow.slot_later (flow : b.Flow strict written filling closing) (reads : b.Keeps t)
    (old : id < b.values.size) {home : Option BlockId} (present : t.look id = some ⟨type, home, .phi p⟩)
    (role : p.role = .local s) : t.locals[s]? = some type ∧
      ∃ c, home = some c ∧ c ≠ entryId ∧ (t.definition c s).isSome := by
  obtain ⟨v, before⟩ := look_of_lt old
  obtain ⟨w, found, settles⟩ := reads.look before
  cases present.symm.trans found
  obtain ⟨r, rfl⟩ := settles.of_phi
  obtain ⟨typed, c, rfl, inner, known⟩ := flow.slot before role
  exact ⟨reads.locals ▸ typed, c, rfl, inner, reads.isSome_definition known⟩

theorem Flow.operand_later (flow : b.Flow strict written filling closing) (reads : b.Keeps t)
    (old : id < b.values.size) (phi : t.LocalPhi id type c s p) (present : t.blocks[c]? = some k)
    {i : Nat} {o : ValueId} (operand : p.operands[i]? = some o) :
    ∃ pred d, k.predecessors[i]? = some pred ∧ t.definition pred.block s = some d ∧
      t.representative d = t.representative o := by
  obtain ⟨r, before⟩ := reads.localPhi_back phi old
  obtain ⟨l, earlier, alike, _⟩ := reads.block_back present
  obtain ⟨pred, d, position, known, same⟩ := flow.operands before earlier operand
  obtain ⟨d', known', same'⟩ := reads.definition known
  exact ⟨pred, d', by rw [alike.predecessors, position], known', same'.trans (reads.same same)⟩

theorem Flow.complete_later (flow : b.Flow strict written filling closing) (reads : b.Keeps t)
    (old : id < b.values.size) (phi : t.LocalPhi id type c s p) (present : t.blocks[c]? = some k)
    (full : p.complete = true) :
    p.operands.size = k.predecessors.size ∧ (k.isSealed = true ∨ closing = some c) := by
  obtain ⟨r, before⟩ := reads.localPhi_back phi old
  obtain ⟨l, earlier, alike, _⟩ := reads.block_back present
  rw [alike.predecessors, alike.isSealed]
  have rule := flow.complete before earlier
  exact rule full

theorem Flow.waits_later (flow : b.Flow strict written filling closing) (reads : b.Keeps t)
    (old : id < b.values.size) (phi : t.LocalPhi id type c s p) (present : t.blocks[c]? = some k)
    (incomplete : p.complete = false) : filling id ∨ (s, id) ∈ k.pending ∧ p.operands = #[] := by
  obtain ⟨r, before⟩ := reads.localPhi_back phi old
  obtain ⟨l, earlier, _, ⟨extra, pending, _⟩, _⟩ := reads.block_back present
  refine (flow.waits before earlier incomplete).imp_right fun ⟨waiting, empty⟩ => ?_
  rw [pending]
  exact ⟨Array.mem_append_left _ waiting, empty⟩

theorem Flow.pending_later (flow : b.Flow strict written filling closing) (reads : b.Keeps t)
    (before : b.blocks[c]? = some k) (alike : k.Alike l) (waiting : (s, id) ∈ k.pending) :
    l.isSealed = false ∧ (t.definition c s).isSome ∧ ∃ type p, t.LocalPhi id type c s p := by
  obtain ⟨isOpen, known, type, p, phi⟩ := flow.pending before waiting
  obtain ⟨r, later⟩ := reads.localPhi phi
  exact ⟨by rw [alike.isSealed, isOpen], reads.isSome_definition known, type, _, later⟩

/-- A phi that is new is none of those that a block waits for. -/
theorem Flow.pending_push_nodup (flow : b.Flow strict written filling closing)
    (before : b.blocks[c]? = some k) (new : b.values.size ≤ id) :
    ((k.pending.push (s, id)).toList.map Prod.snd).Nodup := by
  rw [Array.toList_push, List.map_append, List.map_singleton]
  refine List.nodup_append.mpr ⟨flow.pending_nodup before, List.pairwise_singleton _ _, ?_⟩
  rintro _ member _ single rfl
  obtain ⟨⟨s', id'⟩, inside, rfl⟩ := List.mem_map.mp member
  obtain ⟨_, _, _, _, phi⟩ := flow.pending before (Array.mem_toList_iff.mp inside)
  obtain rfl : id' = id := List.mem_singleton.mp single
  exact absurd (lt_of_look phi.1) (Nat.not_lt.mpr new)

theorem Flow.typed_later (flow : b.Flow strict written filling closing) (first : b.Formed strict)
    (reads : b.Keeps t) (formed : t.Formed strict) (checked : strict = true) {d d₀ : ValueId}
    (before : b.definition c s = some d₀) (same : t.representative d = t.representative d₀)
    (slot : t.locals[s]? = some type) {w : Value} (found : t.look (t.representative d) = some w) :
    w.type.admits type = true := by
  obtain ⟨v, leader⟩ := look_of_lt (first.representative_lt (flow.definition_lt before).1)
  obtain ⟨v', leader', settles⟩ := reads.look leader
  rw [same, ← reads.representative] at found
  have toward := formed.leader_typed checked leader' found
  rw [settles.type_eq] at toward
  exact ValueType.admits_trans toward
    (flow.typed checked before type v (reads.locals ▸ slot) leader)

end Later

/-- New phis have no operands yet, new definitions are right, and what waits is known. -/
theorem Flow.keeps (flow : b.Flow strict written filling closing) (first : b.Formed strict)
    (reads : b.Keeps t) (formed : t.Formed strict) (grows : ∀ id, filling id → later_ id)
    (phis : ∀ {id : ValueId} {type : ValueType} {home : Option BlockId} {p : Phi} {s : Nat},
      b.values.size ≤ id → t.look id = some ⟨type, home, .phi p⟩ → p.role = .local s →
        t.locals[s]? = some type ∧ p.operands = #[] ∧ p.complete = false ∧
          ∃ c k, home = some c ∧ c ≠ entryId ∧ (t.definition c s).isSome ∧
            t.blocks[c]? = some k ∧ (later_ id ∨ (s, id) ∈ k.pending))
    (definitions : ∀ {c : BlockId} {s : Nat} {d : ValueId}, b.definition c s = none →
      t.definition c s = some d → d < t.values.size ∧ s < t.locals.size ∧ t.StartsWith c s d ∧
        (strict = true → ∀ type w, t.locals[s]? = some type → t.look (t.representative d) = some w →
          w.type.admits type = true))
    (bounds : ∀ {c : BlockId} {s : Nat} {d : ValueId}, t.definition c s = some d →
      d < t.values.size)
    (pendings : ∀ {c : BlockId} {k l : Block}, b.blocks[c]? = some k → t.blocks[c]? = some l →
      l.pending = k.pending ∨ ∃ s id, l.pending = k.pending.push (s, id) ∧ b.values.size ≤ id ∧
        l.isSealed = false ∧ (t.definition c s).isSome ∧ ∃ type p, t.LocalPhi id type c s p) :
    t.Flow strict written later_ closing where
  entry := by
    obtain ⟨k, present, isSealed, predecessors, args⟩ := flow.entry
    obtain ⟨l, found, alike, _⟩ := reads.block present
    exact ⟨l, found, by rw [alike.isSealed, isSealed], by rw [alike.predecessors, predecessors],
      by rw [alike.args, args]⟩
  entry_kind present := by
    obtain ⟨k, before, alike, _⟩ := reads.block_back present
    rw [alike.kind, flow.entry_kind before]
  pred_lt present pred member := by
    obtain ⟨k, before, alike, _⟩ := reads.block_back present
    rw [reads.count]
    exact flow.pred_lt before pred (alike.predecessors ▸ member)
  -- An old phi is as it was up to leaders, and `phis` tells of the new ones.
  slot {id type home p s} present role := by
    by_cases old : id < b.values.size
    · exact flow.slot_later reads old present role
    · obtain ⟨typed, _, _, c, k, rfl, inner, known, _⟩ := phis (Nat.le_of_not_lt old) present role
      exact ⟨typed, c, rfl, inner, known⟩
  operands {id type c s p k} phi present i o operand := by
    by_cases old : id < b.values.size
    · exact flow.operand_later reads old phi present operand
    · obtain ⟨_, empty, _⟩ := phis (Nat.le_of_not_lt old) phi.1 phi.2
      rw [empty] at operand
      simp at operand
  complete {id type c s p k} phi present full := by
    by_cases old : id < b.values.size
    · exact flow.complete_later reads old phi present full
    · obtain ⟨_, _, incomplete, _⟩ := phis (Nat.le_of_not_lt old) phi.1 phi.2
      rw [incomplete] at full
      cases full
  waits {id type c s p k} phi present incomplete := by
    by_cases old : id < b.values.size
    · exact (flow.waits_later reads old phi present incomplete).imp_left (grows id)
    · obtain ⟨_, empty, _, c', l, home, _, _, found, waits⟩ := phis (Nat.le_of_not_lt old) phi.1 phi.2
      cases home
      cases present.symm.trans found
      exact waits.imp_right fun waiting => ⟨waiting, empty⟩
  pending {c l s id} present waiting := by
    obtain ⟨k, before, alike, _⟩ := reads.block_back present
    rcases pendings before present with same | ⟨s', id', grown, _, isOpen, known, phi⟩
    · exact flow.pending_later reads before alike (same ▸ waiting)
    · rw [grown] at waiting
      rcases Array.mem_push.mp waiting with earlier | new
      · exact flow.pending_later reads before alike earlier
      · cases new
        exact ⟨isOpen, known, phi⟩
  pending_nodup {c l} present := by
    obtain ⟨k, before, _⟩ := reads.block_back present
    rcases pendings before present with same | ⟨s, id, grown, new, _⟩
    · exact same ▸ flow.pending_nodup before
    · exact grown ▸ flow.pending_push_nodup before new
  placeholder {c l s id} present known := by
    obtain ⟨k, before, _, ⟨extra, pending, _⟩, placeholders⟩ := reads.block_back present
    rcases placeholders known with old | new
    · rw [pending]
      exact Array.mem_append_left _ (flow.placeholder before old)
    · exact new
  definition_lt {c s d} known := by
    refine ⟨bounds known, ?_⟩
    rcases reads.definition_back known with new | ⟨d₀, before, _⟩
    · exact (definitions new known).2.1
    · rw [reads.locals]
      exact (flow.definition_lt before).2
  starts {c s d} known := by
    rcases reads.definition_back known with new | ⟨d₀, before, same⟩
    · exact .inr (definitions new known).2.2.1
    · exact (flow.starts before).imp_right fun starts => (starts.later reads.later formed).congr same
  typed checked c s d known type w slot found := by
    rcases reads.definition_back known with new | ⟨d₀, before, same⟩
    · exact (definitions new known).2.2.2 checked type w slot found
    · exact flow.typed_later first reads formed checked before same slot found

/-- A phi that stands for itself is changed, but neither its role nor what it stands for. -/
structure Retouches (b : Builder) (id : ValueId) (type : ValueType) (home : Option BlockId)
    (p q : Phi) (t : Builder) : Prop where
  before : b.look id = some ⟨type, home, .phi p⟩
  look : ∀ i, t.look i = if i = id then some ⟨type, home, .phi q⟩ else b.look i
  role : q.role = p.role
  replacement : q.replacement = p.replacement
  live : b.representative id = id
  substitution : t.substitution = b.substitution
  blocks : t.blocks = b.blocks
  locals : t.locals = b.locals
  paramCount : t.paramCount = b.paramCount
  size : t.values.size = b.values.size

section Retouch

variable {id : ValueId} {type : ValueType} {home : Option BlockId} {p q : Phi}

theorem Retouches.own (touch : b.Retouches id type home p q t) :
    t.look id = some ⟨type, home, .phi q⟩ := by rw [touch.look, if_pos rfl]

theorem Retouches.others (touch : b.Retouches id type home p q t) {i : ValueId} (other : i ≠ id) :
    t.look i = b.look i := by rw [touch.look, if_neg other]

theorem Retouches.representative (touch : b.Retouches id type home p q t) :
    t.representative = b.representative := by
  funext i
  rw [Builder.representative, touch.substitution]
  rfl

theorem Retouches.definition (touch : b.Retouches id type home p q t) :
    t.definition = b.definition := by
  funext c s
  rw [Builder.definition, touch.blocks]
  rfl

theorem Retouches.back (touch : b.Retouches id type home p q t) {i : ValueId} {v : Value}
    (found : t.look i = some v) : ∃ u, b.look i = some u ∧ u.type = v.type ∧ u.block = v.block ∧
      (v = u ∨ i = id ∧ u = ⟨type, home, .phi p⟩ ∧ v = ⟨type, home, .phi q⟩) := by
  by_cases same : i = id
  · subst same
    rw [touch.own] at found
    cases found
    exact ⟨_, touch.before, rfl, rfl, .inr ⟨rfl, rfl, rfl⟩⟩
  · exact ⟨v, touch.others same ▸ found, rfl, rfl, .inl rfl⟩

theorem Retouches.formed (touch : b.Retouches id type home p q t) (formed : b.Formed strict)
    (operands : ∀ o ∈ q.operands, o ∈ p.operands ∨ o < b.values.size ∧
      (strict = true → ∀ w, b.look (b.representative o) = some w → w.type.admits type = true)) :
    t.Formed strict := by
  have rep := touch.representative
  constructor
  case coherent =>
    rw [touch.substitution, touch.size]
    exact formed.coherent
  case operand_lt =>
    intro i v found whole o member
    rw [touch.size]
    obtain ⟨u, before, _, _, rfl | ⟨rfl, rfl, rfl⟩⟩ := touch.back found
    · exact formed.operand_lt before whole o member
    · rcases operands o (Array.mem_toList_iff.mp member) with old | new
      · exact formed.operand_lt before rfl o (Array.mem_toList_iff.mpr old)
      · exact new.1
  case home =>
    intro i v found
    obtain ⟨u, before, _, _, rfl | ⟨rfl, rfl, rfl⟩⟩ := touch.back found
    · exact formed.home before
    · simpa using formed.home before
  case replaced =>
    intro i changed
    rw [rep] at changed ⊢
    have other : i ≠ id := fun same => changed (same ▸ touch.live)
    rw [touch.others other]
    exact formed.replaced changed
  case live =>
    intro i type' home' r found kept
    rw [rep] at kept
    obtain ⟨u, before, _, _, rfl | ⟨rfl, rfl, same⟩⟩ := touch.back found
    · exact formed.live before kept
    · cases same
      rw [touch.replacement]
      exact formed.live before kept
  case typed =>
    intro checked i type' home' r found o member w leader
    rw [rep] at leader
    obtain ⟨u', leader', type_eq, _⟩ := touch.back leader
    rw [← type_eq]
    obtain ⟨u, before, _, _, rfl | ⟨rfl, rfl, same⟩⟩ := touch.back found
    · exact formed.typed checked before o member u' leader'
    · cases same
      rcases operands o member with old | new
      · exact formed.typed checked before o old u' leader'
      · exact new.2 checked u' leader'
  case leader_typed =>
    intro checked i v w found leader
    rw [rep] at leader
    obtain ⟨u, before, type_eq, _⟩ := touch.back found
    obtain ⟨u', leader', type_eq', _⟩ := touch.back leader
    rw [← type_eq, ← type_eq']
    exact formed.leader_typed checked before leader'

theorem Retouches.later (touch : b.Retouches id type home p q t) (formed : b.Formed strict) :
    b.Later t where
  locals := touch.locals
  paramCount := touch.paramCount
  block present :=
    ⟨_, by rw [touch.blocks, present], rfl, .refl _, fun still => ⟨still, rfl⟩⟩
  look {i v} present := by
    by_cases same : i = id
    · subst same
      rw [touch.before] at present
      cases present
      exact ⟨_, touch.own, rfl, rfl, .inr ⟨p, q, rfl, rfl, touch.role⟩⟩
    · exact ⟨v, by rw [touch.others same, present], .refl v⟩
  representative i := by
    rw [touch.representative]
    exact formed.representative_idem i
  definition known _ := ⟨_, by rw [touch.definition, known], rfl⟩

/-- A phi may get further operands that its predecessors know, or be completed. -/
theorem Retouches.flow (touch : b.Retouches id type home p q t) (before : b.Formed strict)
    (formed : t.Formed strict) (flow : b.Flow strict written filling closing)
    (shrinks : ∀ i, filling i → i ≠ id → later_ i)
    (operands : ∀ {c : BlockId} {s : Nat} {k : Block}, home = some c → q.role = .local s →
      b.blocks[c]? = some k → ∀ {i : Nat} {o : ValueId}, q.operands[i]? = some o →
        ∃ pred d, k.predecessors[i]? = some pred ∧ b.definition pred.block s = some d ∧
          b.representative d = b.representative o)
    (complete : ∀ {c : BlockId} {s : Nat} {k : Block}, home = some c → q.role = .local s →
      b.blocks[c]? = some k → q.complete = true →
        q.operands.size = k.predecessors.size ∧ (k.isSealed = true ∨ closing = some c))
    (waits : ∀ {c : BlockId} {s : Nat} {k : Block}, home = some c → q.role = .local s →
      b.blocks[c]? = some k → q.complete = false →
        later_ id ∨ (s, id) ∈ k.pending ∧ q.operands = #[]) :
    t.Flow strict written later_ closing where
  entry := by
    rw [touch.blocks]
    exact flow.entry
  entry_kind present := flow.entry_kind (touch.blocks ▸ present)
  pred_lt present pred member := by
    rw [touch.blocks] at present ⊢
    exact flow.pred_lt present pred member
  slot found role := by
    rw [touch.locals, touch.definition]
    obtain ⟨u, before, _, _, rfl | ⟨rfl, rfl, same⟩⟩ := touch.back found
    · exact flow.slot before role
    · cases same
      exact flow.slot before (touch.role.symm.trans role)
  operands {i' type' c s r k} phi present i o operand := by
    rw [touch.blocks] at present
    rw [touch.definition, touch.representative]
    obtain ⟨u, before, _, _, rfl | ⟨rfl, rfl, same⟩⟩ := touch.back phi.1
    · exact flow.operands ⟨before, phi.2⟩ present operand
    · cases same
      exact operands rfl phi.2 present operand
  complete {i' type' c s r k} phi present full := by
    rw [touch.blocks] at present
    obtain ⟨u, before, _, _, rfl | ⟨rfl, rfl, same⟩⟩ := touch.back phi.1
    · exact flow.complete ⟨before, phi.2⟩ present full
    · cases same
      exact complete rfl phi.2 present full
  waits {i' type' c s r k} phi present incomplete := by
    rw [touch.blocks] at present
    by_cases same : i' = id
    · subst same
      have own := touch.own
      rw [phi.1] at own
      cases own
      exact waits rfl phi.2 present incomplete
    · exact (flow.waits ⟨touch.others same ▸ phi.1, phi.2⟩ present incomplete).imp_left
        fun fills => shrinks i' fills same
  pending {c k s i} present waiting := by
    rw [touch.blocks] at present
    rw [touch.definition]
    obtain ⟨isOpen, known, type', r, phi⟩ := flow.pending present waiting
    refine ⟨isOpen, known, type', ?_⟩
    by_cases same : i = id
    · subst same
      have own := touch.before
      rw [phi.1] at own
      cases own
      exact ⟨q, touch.own, touch.role.trans phi.2⟩
    · exact ⟨r, touch.others same ▸ phi.1, phi.2⟩
  pending_nodup present := flow.pending_nodup (touch.blocks ▸ present)
  placeholder present known := flow.placeholder (touch.blocks ▸ present) known
  definition_lt known := by
    rw [touch.size, touch.locals]
    exact flow.definition_lt (touch.definition ▸ known)
  starts known := by
    rw [touch.definition] at known
    exact (flow.starts known).imp_right (.later (touch.later before) formed)
  typed checked c s d known type' w slot found := by
    rw [touch.definition] at known
    rw [touch.representative] at found
    rw [touch.locals] at slot
    obtain ⟨u, leader, type_eq, _⟩ := touch.back found
    rw [← type_eq]
    exact flow.typed checked known type' u slot leader

end Retouch

theorem retouches_fed {id : ValueId} {type : ValueType} {home : Option BlockId} {p : Phi}
    (present : b.look id = some ⟨type, home, .phi p⟩) (live : b.representative id = id)
    (operand : ValueId) :
    b.Retouches id type home p (p.feed (b.representative operand)) (b.fed id operand) where
  before := present
  look i := by
    rw [look_fed]
    split
    · rw [‹i = id›, present]
      rfl
    · rfl
  role := rfl
  replacement := rfl
  live := live
  substitution := substitution_fed _ _
  blocks := blocks_fed _ _
  locals := locals_fed _ _
  paramCount := paramCount_fed _ _
  size := size_fed _ _

theorem retouches_finish {id : ValueId} {type : ValueType} {home : Option BlockId} {p : Phi}
    (present : b.look id = some ⟨type, home, .phi p⟩) (live : b.representative id = id) :
    b.Retouches id type home p p.finish (b.onPhi id Phi.finish) where
  before := present
  look i := by
    rw [look_onPhi id Phi.finish fun _ => rfl]
    split
    · rw [‹i = id›, present]
      rfl
    · rfl
  role := rfl
  replacement := rfl
  live := live
  substitution := rfl
  blocks := rfl
  locals := rfl
  paramCount := rfl
  size := size_onPhi _ _

end WasmFunclets.Ssa.Builder
