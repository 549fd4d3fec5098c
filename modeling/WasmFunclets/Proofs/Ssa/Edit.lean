import WasmFunclets.Proofs.Ssa.Ledger

/-! What holds of a function under construction between operations, and what the simple operations
leave: new blocks, new values and reads and writes of locals. -/

namespace WasmFunclets.Ssa.Builder

open Attempt

/-- What holds between operations. Some locals of blocks have been written. -/
structure Consistent (strict : Bool) (written : BlockId → Nat → Prop) (b : Builder) : Prop where
  formed : b.Formed strict
  flow : b.Flow strict written (fun _ => False) none
  ledger : b.Ledger none none

/-- A function under construction after operations other than writes of locals. -/
structure Grows (b t : Builder) : Prop extends Later b t where
  size : b.values.size ≤ t.values.size
  count : b.blocks.size ≤ t.blocks.size
  knows : ∀ {c : BlockId} {s : Nat} {d : ValueId}, b.definition c s = some d →
    ∃ d', t.definition c s = some d' ∧ t.representative d' = t.representative d

variable {strict : Bool} {written : BlockId → Nat → Prop} {filling : ValueId → Prop}
variable {closing : Option BlockId} {b t u : Builder}

theorem Grows.refl (formed : b.Formed strict) : b.Grows b where
  toLater := (Reads.refl formed).later
  size := Nat.le_refl _
  count := Nat.le_refl _
  knows known := ⟨_, known, rfl⟩

theorem Grows.trans (first : b.Grows t) (second : t.Grows u) : b.Grows u where
  toLater := first.toLater.trans second.toLater
  size := Nat.le_trans first.size second.size
  count := Nat.le_trans first.count second.count
  knows known := by
    obtain ⟨d, found, same⟩ := first.knows known
    obtain ⟨e, last, same'⟩ := second.knows found
    exact ⟨e, last, same'.trans (second.toLater.same same)⟩

theorem Keeps.grows (keeps : b.Keeps t) : b.Grows t where
  toLater := keeps.later
  size := keeps.size
  count := Nat.le_of_eq keeps.count.symm
  knows := keeps.definition

theorem outline_onBlock (c : BlockId) {change : Block → Block} {f : BlockOutline → BlockOutline}
    (effect : ∀ k, (change k).outline = f k.outline) (e : BlockId) :
    (b.onBlock c change).outline e = if e = c then (b.outline e).map f else b.outline e := by
  rw [outline, block_onBlock, outline]
  split
  · rw [Option.map_map, Option.map_map]
    exact Option.map_congr fun k _ => effect k
  · rfl

/-- A change of a block that is not about locals. The edges of a sealed block stay. -/
structure Reshapes (b : Builder) (c : BlockId) (change : Block → Block) : Prop where
  kind : ∀ k, (change k).kind = k.kind
  isSealed : ∀ k, (change k).isSealed = k.isSealed
  definitions : ∀ k, (change k).definitions = k.definitions
  pending : ∀ k, (change k).pending = k.pending
  args : c = entryId → ∀ k, (change k).args = k.args
  edges : ∀ k, b.blocks[c]? = some k → (change k).predecessors = k.predecessors ∨
    k.isSealed = false ∧
      EdgesLast k.predecessors (change k).predecessors ∧
      ∀ pred ∈ (change k).predecessors, pred.block < b.blocks.size

section Reshape

variable {c : BlockId} {change : Block → Block}

theorem Reshapes.back (reshapes : b.Reshapes c change) {e : BlockId} {l : Block}
    (present : (b.onBlock c change).blocks[e]? = some l) : ∃ k, b.blocks[e]? = some k ∧
      l.kind = k.kind ∧ l.isSealed = k.isSealed ∧ l.definitions = k.definitions ∧
      l.pending = k.pending ∧ (e = entryId → l.args = k.args) ∧
      (l.predecessors = k.predecessors ∨ k.isSealed = false ∧
        EdgesLast k.predecessors l.predecessors ∧
        ∀ pred ∈ l.predecessors, pred.block < b.blocks.size) := by
  rw [block_onBlock] at present
  split at present
  · rename_i same
    obtain ⟨k, before, rfl⟩ := Option.map_eq_some_iff.mp present
    exact ⟨k, before, reshapes.kind k, reshapes.isSealed k, reshapes.definitions k,
      reshapes.pending k, fun entry => reshapes.args (same ▸ entry) k,
      reshapes.edges k (same ▸ before)⟩
  · exact ⟨l, present, rfl, rfl, rfl, rfl, fun _ => rfl, .inl rfl⟩

theorem Reshapes.definition (reshapes : b.Reshapes c change) :
    (b.onBlock c change).definition = b.definition :=
  definition_onBlock c reshapes.definitions

theorem Reshapes.later (reshapes : b.Reshapes c change) (formed : b.Formed strict) :
    b.Later (b.onBlock c change) where
  locals := rfl
  paramCount := rfl
  block {e k} present := by
    obtain ⟨l, found⟩ := block_of_lt (b := b.onBlock c change) (c := e)
      (by rw [size_onBlock]; exact lt_of_block present)
    obtain ⟨k', before, kind, isSealed, _, _, _, edges⟩ := reshapes.back found
    rw [present] at before
    cases before
    refine ⟨l, found, kind, ?_, fun still => ⟨by rw [isSealed, still], ?_⟩⟩
    · rcases edges with same | ⟨_, grown, _⟩
      · rw [same]
        exact .refl _
      · exact grown
    · rcases edges with same | ⟨isOpen, _⟩
      · exact same
      · rw [still] at isOpen
        cases isOpen
  look present := ⟨_, present, .refl _⟩
  representative := formed.representative_idem
  definition known _ := ⟨_, by rwa [reshapes.definition], rfl⟩

theorem Reshapes.grows (reshapes : b.Reshapes c change) (formed : b.Formed strict) :
    b.Grows (b.onBlock c change) where
  toLater := reshapes.later formed
  size := Nat.le_refl _
  count := Nat.le_of_eq (size_onBlock _ _).symm
  knows known := ⟨_, by rwa [reshapes.definition], rfl⟩

theorem Flow.reshape (flow : b.Flow strict written (fun _ => False) none) (formed : b.Formed strict)
    (reshapes : b.Reshapes c change) :
    (b.onBlock c change).Flow strict written (fun _ => False) none where
  entry := by
    obtain ⟨k, present, isSealed, none_, args⟩ := flow.entry
    obtain ⟨l, found⟩ := block_of_lt (b := b.onBlock c change) (c := entryId)
      (by rw [size_onBlock]; exact lt_of_block present)
    obtain ⟨k', before, _, isSealed', _, _, args', edges⟩ := reshapes.back found
    rw [present] at before
    cases before
    refine ⟨l, found, isSealed'.trans isSealed, ?_, (args' rfl).trans args⟩
    rcases edges with same | ⟨isOpen, _⟩
    · rw [same, none_]
    · rw [isSealed] at isOpen
      cases isOpen
  entry_kind present := by
    obtain ⟨k, before, kind, _⟩ := reshapes.back present
    rw [kind, flow.entry_kind before]
  pred_lt present pred member := by
    obtain ⟨k, before, _, _, _, _, _, edges⟩ := reshapes.back present
    rw [size_onBlock]
    rcases edges with same | ⟨_, _, inside⟩
    · exact flow.pred_lt before pred (same ▸ member)
    · exact inside pred member
  slot present role := by
    rw [reshapes.definition]
    exact flow.slot present role
  operands {id type e s p l} phi present i o operand := by
    obtain ⟨k, before, _, _, _, _, _, edges⟩ := reshapes.back present
    rw [reshapes.definition]
    rcases edges with same | ⟨isOpen, _⟩
    · rw [same]
      exact flow.operands phi before operand
    · -- the phis of an open block have no operands yet
      cases full : p.complete with
      | true =>
          rcases (flow.complete phi before full).2 with isSealed | absurd_
          · rw [isOpen] at isSealed
            cases isSealed
          · cases absurd_
      | false =>
          rcases flow.waits phi before full with absurd_ | ⟨_, none_⟩
          · exact absurd_.elim
          · rw [none_] at operand
            simp at operand
  complete {id type e s p l} phi present full := by
    obtain ⟨k, before, _, isSealed, _, _, _, edges⟩ := reshapes.back present
    obtain ⟨size, still⟩ := flow.complete phi before full
    rw [isSealed]
    refine ⟨?_, still⟩
    rcases edges with same | ⟨isOpen, _⟩
    · rw [same, size]
    · rcases still with closed | absurd_
      · rw [isOpen] at closed
        cases closed
      · cases absurd_
  waits {id type e s p l} phi present incomplete := by
    obtain ⟨k, before, _, _, _, pending, _⟩ := reshapes.back present
    rw [pending]
    exact flow.waits phi before incomplete
  pending {e l s id} present waiting := by
    obtain ⟨k, before, _, isSealed, _, pending, _⟩ := reshapes.back present
    rw [isSealed, reshapes.definition]
    exact flow.pending before (pending ▸ waiting)
  pending_nodup present := by
    obtain ⟨k, before, _, _, _, pending, _⟩ := reshapes.back present
    rw [pending]
    exact flow.pending_nodup before
  placeholder present known := by
    obtain ⟨k, before, _, _, definitions, pending, _⟩ := reshapes.back present
    rw [pending]
    exact flow.placeholder before (definitions ▸ known)
  definition_lt known := flow.definition_lt (reshapes.definition ▸ known)
  starts known := by
    rw [reshapes.definition] at known
    exact (flow.starts known).imp_right
      (.later (reshapes.later formed) (formed.congr rfl rfl))
  typed checked c s d known := by
    rw [reshapes.definition] at known
    exact flow.typed checked known

end Reshape

def withBlock (b : Builder) (kind : BlockKind) : Builder :=
  { b with blocks := b.blocks.push (.fresh kind) }

section NewBlock

variable {kind : BlockKind}

theorem block_withBlock (c : BlockId) : (b.withBlock kind).blocks[c]? =
    if c = b.blocks.size then some (.fresh kind) else b.blocks[c]? := Array.getElem?_push

theorem block_withBlock_of {c : BlockId} {k : Block} (present : b.blocks[c]? = some k) :
    (b.withBlock kind).blocks[c]? = some k := by
  rw [block_withBlock, if_neg (Nat.ne_of_lt (lt_of_block present)), present]

theorem definition_withBlock : (b.withBlock kind).definition = b.definition := by
  funext c s
  rw [definition, definition, block_withBlock]
  split
  · rename_i new
    rw [new, Array.getElem?_eq_none (Nat.le_refl _)]
    rfl
  · rfl

theorem outline_withBlock (c : BlockId) : (b.withBlock kind).outline c =
    if c = b.blocks.size then some ⟨kind, false, #[], none, #[]⟩ else b.outline c := by
  rw [outline, block_withBlock, outline]
  split <;> rfl

theorem grows_withBlock (formed : b.Formed strict) : b.Grows (b.withBlock kind) where
  locals := rfl
  paramCount := rfl
  block present := ⟨_, block_withBlock_of present, rfl, .refl _, fun still => ⟨still, rfl⟩⟩
  look present := ⟨_, present, .refl _⟩
  representative := formed.representative_idem
  definition known _ := ⟨_, by rwa [definition_withBlock], rfl⟩
  size := Nat.le_refl _
  count := by simp [withBlock]
  knows known := ⟨_, by rwa [definition_withBlock], rfl⟩

theorem back_withBlock {c : BlockId} {l : Block} (present : (b.withBlock kind).blocks[c]? = some l) :
    b.blocks[c]? = some l ∨ c = b.blocks.size ∧ l = .fresh kind := by
  rw [block_withBlock] at present
  split at present
  · cases present
    exact .inr ⟨‹_›, rfl⟩
  · exact .inl present

theorem Flow.withBlock (flow : b.Flow strict written filling closing) (formed : b.Formed strict)
    (inner : kind ≠ .entry) (homes : ∀ {id : ValueId} {v : Value} {c : BlockId},
      b.look id = some v → v.block = some c → c < b.blocks.size) :
    (b.withBlock kind).Flow strict written filling closing where
  entry := by
    obtain ⟨k, present, rest⟩ := flow.entry
    exact ⟨k, block_withBlock_of present, rest⟩
  entry_kind {c l} present := by
    rcases back_withBlock present with before | ⟨rfl, rfl⟩
    · exact flow.entry_kind before
    · exact ⟨fun same => absurd same inner, fun same => absurd flow.size_pos (by
        rw [show b.blocks.size = entryId from same]
        exact Nat.lt_irrefl _)⟩
  pred_lt {c l} present pred member := by
    rcases back_withBlock present with before | ⟨rfl, rfl⟩
    · exact Nat.lt_of_lt_of_le (flow.pred_lt before pred member) (grows_withBlock formed).count
    · simp [Block.fresh] at member
  slot present role := by
    rw [definition_withBlock]
    exact flow.slot present role
  operands {id type c s p l} phi present i o operand := by
    rw [definition_withBlock]
    rcases back_withBlock present with before | ⟨rfl, rfl⟩
    · exact flow.operands phi before operand
    · exact absurd (homes phi.1 rfl) (Nat.lt_irrefl _)
  complete {id type c s p l} phi present := by
    rcases back_withBlock present with before | ⟨rfl, rfl⟩
    · exact flow.complete phi before
    · exact absurd (homes phi.1 rfl) (Nat.lt_irrefl _)
  waits {id type c s p l} phi present := by
    rcases back_withBlock present with before | ⟨rfl, rfl⟩
    · exact flow.waits phi before
    · exact absurd (homes phi.1 rfl) (Nat.lt_irrefl _)
  pending {c l s id} present waiting := by
    rw [definition_withBlock]
    rcases back_withBlock present with before | ⟨rfl, rfl⟩
    · exact flow.pending before waiting
    · simp [Block.fresh] at waiting
  pending_nodup {c l} present := by
    rcases back_withBlock present with before | ⟨rfl, rfl⟩
    · exact flow.pending_nodup before
    · exact List.nodup_nil
  placeholder {c l s id} present known := by
    rcases back_withBlock present with before | ⟨rfl, rfl⟩
    · exact flow.placeholder before known
    · simp [Block.fresh] at known
  definition_lt known := flow.definition_lt (definition_withBlock ▸ known)
  starts known := by
    rw [definition_withBlock] at known
    exact (flow.starts known).imp_right
      (.later (grows_withBlock formed).toLater (formed.congr rfl rfl))
  typed checked c s d known := by
    rw [definition_withBlock] at known
    exact flow.typed checked known

theorem Ledger.withBlock (ledger : b.Ledger none none) : (b.withBlock kind).Ledger none none := by
  have back {c : BlockId} {o : BlockOutline} (present : (b.withBlock kind).outline c = some o) :
      b.outline c = some o ∨ c = b.blocks.size ∧ o = ⟨kind, false, #[], none, #[]⟩ := by
    rw [outline_withBlock] at present
    split at present
    · cases present
      exact .inr ⟨‹_›, rfl⟩
    · exact .inl present
  have homeless {id : ValueId} {v : Value} (present : b.look id = some v)
      (home : v.block = some b.blocks.size) : False :=
    Nat.lt_irrefl _ (ledger.home_lt present home)
  constructor
  case home_lt =>
    intro id v c present home
    exact Nat.lt_of_lt_of_le (ledger.home_lt present home) (by simp [Builder.withBlock])
  case body =>
    intro c o present id
    rcases back present with before | ⟨rfl, rfl⟩
    · exact ledger.body before id
    · refine ⟨fun member => by simp at member, ?_⟩
      rintro ⟨v, shown, home, _⟩
      exact (homeless shown home).elim
  case body_nodup =>
    intro c o present
    rcases back present with before | ⟨rfl, rfl⟩
    · exact ledger.body_nodup before
    · exact List.nodup_nil
  case carried_lt =>
    intro c o present pred member
    rcases back present with before | ⟨rfl, rfl⟩
    · exact ledger.carried_lt before pred member
    · simp at member
  case argument =>
    intro c o phis present args
    rcases back present with before | ⟨rfl, rfl⟩
    · exact ledger.argument before args
    · cases args
  case listed =>
    intro id type c j p o phi present
    rcases back present with before | ⟨rfl, rfl⟩
    · exact ledger.listed phi before
    · exact (homeless phi.1 rfl).elim
  case carried =>
    intro c o phis present args
    rcases back present with before | ⟨rfl, rfl⟩
    · exact ledger.carried before args
    · cases args
  case operands =>
    intro id type c j p o phi present
    rcases back present with before | ⟨rfl, rfl⟩
    · exact ledger.operands phi before
    · exact (homeless phi.1 rfl).elim
  case complete =>
    intro id type c j p o phi present
    rcases back present with before | ⟨rfl, rfl⟩
    · exact ledger.complete phi before
    · exact (homeless phi.1 rfl).elim

theorem addBlock_ends (sound : b.Consistent strict written) (inner : kind ≠ .entry) :
    Ends (addBlock kind) b (fun id t => id = b.blocks.size ∧ t = b.withBlock kind ∧
      t.Consistent strict written ∧ b.Grows t) fun _ _ => False := by
  rw [addBlock, ends_bind, ends_get, ends_bind, ends_modify, ends_pure]
  exact ⟨rfl, rfl, ⟨sound.formed.congr rfl rfl,
    sound.flow.withBlock sound.formed inner sound.ledger.home_lt, sound.ledger.withBlock⟩,
    grows_withBlock sound.formed⟩

end NewBlock

structure Pads (b t : Builder) : Prop where
  size : b.values.size ≤ t.values.size
  blocks : t.blocks = b.blocks
  locals : t.locals = b.locals
  paramCount : t.paramCount = b.paramCount
  representative : t.representative = b.representative
  old : ∀ {i : ValueId}, i < b.values.size → t.look i = b.look i
  new : ∀ {i : ValueId} {v : Value}, b.values.size ≤ i → t.look i = some v →
    ∃ type, v = ⟨type, none, .undef⟩

theorem Pads.refl (b : Builder) : b.Pads b where
  size := Nat.le_refl _
  blocks := rfl
  locals := rfl
  paramCount := rfl
  representative := rfl
  old _ := rfl
  new out present := absurd (lt_of_look present) (Nat.not_lt.mpr out)

theorem Pads.trans (first : b.Pads t) (second : t.Pads u) : b.Pads u where
  size := Nat.le_trans first.size second.size
  blocks := second.blocks.trans first.blocks
  locals := second.locals.trans first.locals
  paramCount := second.paramCount.trans first.paramCount
  representative := second.representative.trans first.representative
  old inside := (second.old (Nat.lt_of_lt_of_le inside first.size)).trans (first.old inside)
  new {i v} out present := by
    by_cases mid : i < t.values.size
    · exact first.new out (second.old mid ▸ present)
    · exact second.new (Nat.le_of_not_lt mid) present

theorem Pads.outline (pads : b.Pads t) : t.outline = b.outline := by
  funext c
  rw [Builder.outline, pads.blocks, Builder.outline]

theorem Pads.definition (pads : b.Pads t) : t.definition = b.definition := by
  funext c s
  rw [Builder.definition, pads.blocks, Builder.definition]

theorem undef_sound (formed : b.Formed strict) (flow : b.Flow strict written filling closing)
    (type : ValueType) : (b.withValue ⟨type, none, .undef⟩).Formed strict ∧
      (b.withValue ⟨type, none, .undef⟩).Flow strict written filling closing ∧
      b.Reads (b.withValue ⟨type, none, .undef⟩) ∧ b.Pads (b.withValue ⟨type, none, .undef⟩) := by
  obtain ⟨formed', _⟩ := formed.undef type
  refine ⟨formed', flow.withValue formed (by simp) formed',
    Reads.withValue formed (.undef type) (by simp), ⟨by simp, rfl, rfl, rfl,
      representative_withValue formed.coherent _, fun {i} inside => ?_, fun {i v} out present => ?_⟩⟩
  · rw [look_withValue, if_neg (Nat.ne_of_lt inside)]
  · rw [look_withValue] at present
    split at present
    · cases present
      exact ⟨type, rfl⟩
    · exact absurd (lt_of_look present) (Nat.not_lt.mpr out)

theorem undefs_ends {giving : Option (BlockId × Nat)} (types : List ValueType)
    (formed : b.Formed strict) (flow : b.Flow strict written filling closing)
    (ledger : b.Ledger closing giving) :
    Ends (undefs types) b (fun ids t => t.Formed strict ∧ t.Flow strict written filling closing ∧
      t.Ledger closing giving ∧ b.Reads t ∧ b.Pads t ∧ ids.length = types.length ∧
      ∀ (j : Nat) (id : ValueId), ids[j]? = some id → b.values.size ≤ id ∧
        ∃ type, types[j]? = some type ∧ t.look id = some ⟨type, none, .undef⟩) Exhausted := by
  rw [undefs]
  induction types generalizing b with
  | nil => exact ⟨formed, flow, ledger, .refl formed, .refl b, rfl, by simp⟩
  | cons type types ih =>
      rw [List.mapM_cons, ends_bind]
      refine (undef_ends b type).imp ?_
      rintro _ _ ⟨rfl, rfl⟩
      obtain ⟨formed', flow', reads, pads⟩ := undef_sound formed flow type
      rw [ends_bind]
      refine (ih formed' flow' (ledger.reads reads (flow'.homes reads))).imp ?_
      rintro ids t ⟨formed'', flow'', ledger'', reads', pads', length, each⟩
      rw [ends_pure]
      refine ⟨formed'', flow'', ledger'', reads.trans reads', pads.trans pads', by simp [length], ?_⟩
      rintro (_ | j) id found
      · cases found
        refine ⟨Nat.le_refl _, type, rfl, ?_⟩
        rw [pads'.old (by simp), look_withValue, if_pos rfl]
        rfl
      · obtain ⟨new, rest⟩ := each j id found
        exact ⟨Nat.le_trans reads.size new, rest⟩

def appended (b : Builder) (c : BlockId) (v : Value) : Builder :=
  (b.withValue v).onBlock c fun k => { k with body := k.body.push b.values.size }

section Append

variable {c : BlockId} {v : Value}

theorem look_appended (plain : v.plain = v) (i : ValueId) :
    (b.appended c v).look i = if i = b.values.size then some v else b.look i := by
  rw [appended, look_onBlock, look_withValue, plain]

theorem outline_appended (e : BlockId) : (b.appended c v).outline e = if e = c then
    (b.outline e).map fun o => { o with body := o.body.push b.values.size } else b.outline e :=
  outline_onBlock c (f := fun o => { o with body := o.body.push b.values.size }) (fun _ => rfl) e

theorem reshapes_push (b : Builder) (c : BlockId) (id : ValueId) :
    b.Reshapes c fun k => { k with body := k.body.push id } :=
  ⟨fun _ => rfl, fun _ => rfl, fun _ => rfl, fun _ => rfl, fun _ _ => rfl, fun _ _ => .inl rfl⟩

theorem Ledger.appended (ledger : b.Ledger none none) (formed : b.Formed strict)
    (home : v.block = some c) (instruction : v.content.isInstruction = true)
    (inside : c < b.blocks.size) : (b.appended c v).Ledger none none := by
  have plain : v.plain = v := v.plain_of_ne (by rintro p same; rw [same] at instruction; cases instruction)
  have look := look_appended (b := b) (c := c) plain
  have old {i : ValueId} {u : Value} (present : b.look i = some u) :
      (b.appended c v).look i = some u := by
    rw [look, if_neg (Nat.ne_of_lt (lt_of_look present)), present]
  have outline := outline_appended (b := b) (c := c) (v := v)
  have size : (b.appended c v).values.size = b.values.size + 1 := by simp [Builder.appended]
  have rep : (b.appended c v).representative = b.representative :=
    representative_withValue formed.coherent v
  -- a block, as it was but for its body
  have back {e : BlockId} {o : BlockOutline} (present : (b.appended c v).outline e = some o) :
      ∃ o', b.outline e = some o' ∧ o.isSealed = o'.isSealed ∧ o.predecessors = o'.predecessors ∧
        o.args = o'.args ∧ o.body = if e = c then o'.body.push b.values.size else o'.body := by
    rw [outline] at present
    split at present
    · obtain ⟨o', before, rfl⟩ := Option.map_eq_some_iff.mp present
      exact ⟨o', before, rfl, rfl, rfl, (if_pos ‹_›).symm⟩
    · exact ⟨o, present, rfl, rfl, rfl, (if_neg ‹_›).symm⟩
  -- an argument phi is an old one
  have phi_back {i : ValueId} {type : ValueType} {e : BlockId} {j : Nat} {p : Phi}
      (phi : (b.appended c v).ArgumentPhi i type e j p) : b.ArgumentPhi i type e j p := by
    refine ⟨?_, phi.2⟩
    have shown := phi.1
    rw [look] at shown
    split at shown
    · cases shown
      cases instruction
    · exact shown
  constructor
  case home_lt =>
    intro i u e present place
    have count : (b.appended c v).blocks.size = b.blocks.size := size_onBlock _ _
    rw [count]
    rw [look] at present
    split at present
    · cases present
      cases home.symm.trans place
      exact inside
    · exact ledger.home_lt present place
  case body =>
    intro e o present i
    obtain ⟨o', before, _, _, _, body⟩ := back present
    rw [body]
    by_cases new : i = b.values.size
    · subst new
      have gone : b.values.size ∉ o'.body := by
        intro member
        obtain ⟨u, shown, _⟩ := (ledger.body before _).mp member
        exact Nat.lt_irrefl _ (lt_of_look shown)
      rw [look, if_pos rfl]
      by_cases here : e = c
      · subst here
        rw [if_pos rfl]
        exact ⟨fun _ => ⟨v, rfl, home, instruction⟩, fun _ => Array.mem_push_self⟩
      · rw [if_neg here]
        refine ⟨fun member => absurd member gone, ?_⟩
        rintro ⟨u, same, place, _⟩
        cases same
        cases home.symm.trans place
        exact absurd rfl here
    · rw [look, if_neg new, ← ledger.body before i]
      split
      · simp [Array.mem_push, new]
      · exact Iff.rfl
  case body_nodup =>
    intro e o present
    obtain ⟨o', before, _, _, _, body⟩ := back present
    rw [body]
    split
    · rw [Array.toList_push]
      refine List.nodup_append.mpr ⟨ledger.body_nodup before, List.pairwise_singleton _ _, ?_⟩
      rintro i member _ single rfl
      obtain rfl := List.mem_singleton.mp single
      obtain ⟨u, shown, _⟩ := (ledger.body before _).mp (Array.mem_toList_iff.mp member)
      exact Nat.lt_irrefl _ (lt_of_look shown)
    · exact ledger.body_nodup before
  case carried_lt =>
    intro e o present pred member arg carried
    obtain ⟨o', before, _, predecessors, _⟩ := back present
    rw [size]
    exact Nat.lt_succ_of_lt (ledger.carried_lt before pred (predecessors ▸ member) arg carried)
  case argument =>
    intro e o phis present args j i position
    obtain ⟨o', before, _, _, same, _⟩ := back present
    obtain ⟨type, p, shown, role⟩ := ledger.argument before (same ▸ args) position
    exact ⟨type, p, old shown, role⟩
  case listed =>
    intro i type e j p o phi present
    obtain ⟨o', before, _, _, same, _⟩ := back present
    rw [same]
    exact ledger.listed (phi_back phi) before
  case carried =>
    intro e o phis present args i pred reached position
    obtain ⟨o', before, _, predecessors, same, _⟩ := back present
    rw [predecessors] at reached position
    exact ledger.carried before (same ▸ args) reached position
  case operands =>
    intro i type e j p o phi present
    obtain ⟨o', before, _, predecessors, _, _⟩ := back present
    rw [predecessors, rep]
    exact ledger.operands (phi_back phi) before
  case complete =>
    intro i type e j p o phi present
    obtain ⟨o', before, isSealed, _, _, _⟩ := back present
    rw [isSealed]
    exact ledger.complete (phi_back phi) before

/-- What an instruction leaves: its value is the last one of its block's body. -/
structure Appends (strict : Bool) (written : BlockId → Nat → Prop) (b : Builder) (c : BlockId)
    (v : Value) (id : ValueId) (t : Builder) : Prop where
  sound : t.Consistent strict written
  grows : b.Grows t
  id_eq : id = b.values.size
  eq : t = b.appended c v

theorem append_ends (sound : b.Consistent strict written) {type : ValueType} {content : Content}
    (instruction : content.isInstruction = true)
    (operands : content.isProjection = false →
      ∀ o ∈ (Value.mk type (some c) content).operands, o < b.values.size)
    (inside : c < b.blocks.size) :
    Ends (append c type content) b
      (fun id t => b.Appends strict written c ⟨type, some c, content⟩ id t) Exhausted := by
  obtain ⟨formed, flow, ledger⟩ := sound
  have noPhi : ∀ p, content ≠ .phi p := by
    rintro p same
    rw [same] at instruction
    cases instruction
  have plain := (Value.mk type (some c) content).plain_of_ne noPhi
  rw [append, ends_bind]
  refine (addValue_ends b).imp ?_
  rintro _ _ ⟨rfl, rfl⟩
  rw [ends_bind, ends_modifyBlock, ends_pure]
  have formed' : (b.withValue ⟨type, some c, content⟩).Formed strict := by
    refine formed.withValue plain ⟨fun absurd_ => (by cases absurd_), ?_⟩ operands
      fun _ _ p same => absurd (congrArg Value.content same) (noPhi p)
    rintro rfl
    cases instruction
  have flow' := flow.withValue formed (v := ⟨type, some c, content⟩)
    (fun p _ same => absurd same (noPhi p)) formed'
  have keeps := Keeps.withValue formed ⟨type, some c, content⟩
  have reshapes := reshapes_push (b.withValue ⟨type, some c, content⟩) c b.values.size
  exact ⟨⟨formed'.congr rfl rfl, flow'.reshape formed' reshapes,
    ledger.appended formed rfl instruction inside⟩, keeps.grows.trans (reshapes.grows formed'), rfl,
    rfl⟩

theorem constant_ends (sound : b.Consistent strict written) {type : ValueType} {bits : UInt64}
    (inside : c < b.blocks.size) : Ends (constant c type bits) b
      (fun id t => b.Appends strict written c ⟨type, some c, .constant bits⟩ id t) Exhausted := by
  rw [constant, ends_bind, ends_checkBlock inside]
  exact append_ends sound rfl (by simp [Value.operands]) inside

theorem project_ends (sound : b.Consistent strict written) {tuple : ValueId} {index : Nat}
    {type : ValueType} (inside : c < b.blocks.size) :
    Ends (project c tuple index type) b (fun id t => b.Appends strict written c
      ⟨type, some c, .project (b.representative tuple) index⟩ id t) Exhausted := by
  rw [project, ends_bind, ends_checkBlock inside, ends_bind, ends_get]
  exact append_ends sound rfl nofun inside

theorem emit_ends (sound : b.Consistent strict written) {opcode : UInt8} {type : ValueType}
    {operands : List ValueId} {immediate : UInt64} (inside : c < b.blocks.size)
    (known : ∀ o ∈ operands, o < b.values.size) :
    Ends (emit c opcode type operands immediate) b (fun id t => b.Appends strict written c
      ⟨type, some c, .op opcode (operands.map b.representative) immediate⟩ id t) Exhausted := by
  have each : ∀ o ∈ operands.map b.representative, o < b.values.size := by
    intro o member
    obtain ⟨o', inside', rfl⟩ := List.mem_map.mp member
    exact sound.formed.representative_lt (known o' inside')
  rw [emit, ends_bind, ends_checkBlock inside, ends_bind, ends_get, ends_bind, ends_maintain]
  refine ⟨fun _ => append_ends sound rfl (fun _ => each) inside, fun absurd_ => absurd ?_ absurd_⟩
  simpa using each

end Append

theorem readLocal_ends (sound : b.Consistent strict written) {c : BlockId} {slot : Nat}
    {type : ValueType} (inside : c < b.blocks.size) (known : b.locals[slot]? = some type) :
    Ends (getLocal c slot) b (fun v t => t.Consistent strict written ∧ b.Reads t ∧
      (∃ d, t.definition c slot = some d ∧ t.representative d = v) ∧ v < t.values.size ∧
      t.representative v = v) Exhausted := by
  refine (getLocal_ends sound.flow sound.formed known inside).imp ?_
  rintro v t ⟨⟨formed, flow, reads, _, ⟨d, defined, same⟩, bound⟩, leads⟩
  exact ⟨⟨formed, flow, sound.ledger.reads reads (flow.homes reads)⟩, reads,
    ⟨d, defined, same.trans leads⟩, bound, leads⟩

/-- What a write leaves: nothing changes but the one definition, which no edge relies on yet. -/
structure Redefines (b : Builder) (c : BlockId) (slot : Nat) (v : ValueId) (t : Builder) : Prop where
  later : b.Later t
  values : t.values = b.values
  substitution : t.substitution = b.substitution
  outline : t.outline = b.outline
  definition : ∀ (e : BlockId) (s : Nat),
    t.definition e s = if e = c ∧ s = slot then some v else b.definition e s

theorem redefines_define (formed : b.Formed strict) {c : BlockId} (slot : Nat) (v : ValueId)
    (inside : c < b.blocks.size) (unused : ¬ b.Used c) :
    b.Redefines c slot v (b.onBlock c (Block.define slot (.final v))) := by
  have shown := definition_define inside slot (.final v)
  refine ⟨⟨rfl, rfl, fun {e k} present => ?_, fun present => ⟨_, present, .refl _⟩,
    formed.representative_idem, fun {e s d} known used => ?_⟩, rfl, rfl, ?_, shown⟩
  · rw [block_onBlock]
    split
    · rw [present]
      exact ⟨_, rfl, rfl, .refl _, fun still => ⟨still, rfl⟩⟩
    · exact ⟨k, present, rfl, .refl _, fun still => ⟨still, rfl⟩⟩
  · refine ⟨d, ?_, rfl⟩
    rw [shown, if_neg, known]
    exact fun both => unused (both.1 ▸ used)
  · funext e
    rw [@outline_onBlock b c (Block.define slot (.final v)) id fun _ => rfl]
    split
    · exact Option.map_id_apply
    · rfl

theorem Flow.define (flow : b.Flow strict written (fun _ => False) none) (formed : b.Formed strict)
    {c : BlockId} {slot : Nat} {type : ValueType} {v : ValueId} (inside : c < b.blocks.size)
    (unused : ¬ b.Used c) (known : b.locals[slot]? = some type) (bound : v < b.values.size)
    (typed : strict = true → ∀ w, b.look (b.representative v) = some w →
      w.type.admits type = true) :
    (b.onBlock c (Block.define slot (.final v))).Flow strict
      (fun e s => written e s ∨ e = c ∧ s = slot) (fun _ => False) none := by
  have writes := redefines_define formed slot v inside unused
  have shown := writes.definition
  have formed' : (b.onBlock c (Block.define slot (.final v))).Formed strict := formed.congr rfl rfl
  -- Only one definition of one block is new, so the fields are read off in the state before.
  have back {e : BlockId} {l : Block}
      (present : (b.onBlock c (Block.define slot (.final v))).blocks[e]? = some l) :
      ∃ k, b.blocks[e]? = some k ∧ k.Alike l ∧ l.pending = k.pending ∧
        ∀ s, l.definitions[s]? = if e = c ∧ s = slot then some (.final v) else k.definitions[s]? := by
    rw [block_onBlock] at present
    split at present
    · obtain ⟨k, before, rfl⟩ := Option.map_eq_some_iff.mp present
      exact ⟨k, before, ⟨rfl, rfl, rfl, rfl, rfl⟩, rfl, fun s => by
        simp [Block.define, getElem?_insert, *]⟩
    · exact ⟨l, present, .refl l, rfl, fun s => by simp [*]⟩
  have some_ {e : BlockId} {s : Nat} (before : (b.definition e s).isSome) :
      ((b.onBlock c (Block.define slot (.final v))).definition e s).isSome := by
    rw [shown]
    split
    · rfl
    · exact before
  constructor
  case entry =>
    obtain ⟨k, present, isSealed, none_, args⟩ := flow.entry
    obtain ⟨l, found⟩ := block_of_lt (b := b.onBlock c (Block.define slot (.final v))) (c := entryId)
      (by rw [size_onBlock]; exact lt_of_block present)
    obtain ⟨k', before, alike, _⟩ := back found
    rw [present] at before
    cases before
    exact ⟨l, found, by rw [alike.isSealed, isSealed], by rw [alike.predecessors, none_],
      by rw [alike.args, args]⟩
  case entry_kind =>
    intro e l present
    obtain ⟨k, before, alike, _⟩ := back present
    rw [alike.kind, flow.entry_kind before]
  case pred_lt =>
    intro e l present pred member
    obtain ⟨k, before, alike, _⟩ := back present
    rw [size_onBlock]
    exact flow.pred_lt before pred (alike.predecessors ▸ member)
  case slot =>
    intro id type' home p s present role
    obtain ⟨type_, e, home_, inner, before⟩ := flow.slot present role
    exact ⟨type_, e, home_, inner, some_ before⟩
  case operands =>
    intro id type' e s p l phi present i o operand
    obtain ⟨k, before, alike, _⟩ := back present
    obtain ⟨pred, d, position, defined, same⟩ := flow.operands phi before operand
    refine ⟨pred, d, by rw [alike.predecessors, position], ?_, same⟩
    -- the block is no block's predecessor yet, so no operand stands for the new definition
    rw [shown, if_neg, defined]
    rintro ⟨rfl, _⟩
    exact unused ⟨e, k, before, pred, Array.mem_of_getElem? position, rfl⟩
  case complete =>
    intro id type' e s p l phi present full
    obtain ⟨k, before, alike, _⟩ := back present
    rw [alike.predecessors, alike.isSealed]
    exact flow.complete phi before full
  case waits =>
    intro id type' e s p l phi present incomplete
    obtain ⟨k, before, _, pending, _⟩ := back present
    rw [pending]
    exact flow.waits phi before incomplete
  case pending =>
    intro e l s id present waiting
    obtain ⟨k, before, alike, pending, _⟩ := back present
    obtain ⟨isOpen, defined, rest⟩ := flow.pending before (pending ▸ waiting)
    exact ⟨by rw [alike.isSealed, isOpen], some_ defined, rest⟩
  case pending_nodup =>
    intro e l present
    obtain ⟨k, before, _, pending, _⟩ := back present
    rw [pending]
    exact flow.pending_nodup before
  case placeholder =>
    intro e l s id present defined
    obtain ⟨k, before, _, pending, definitions⟩ := back present
    rw [definitions] at defined
    rw [pending]
    split at defined
    · cases defined
    · exact flow.placeholder before defined
  case definition_lt =>
    intro e s d defined
    rw [shown] at defined
    split at defined
    · rename_i here
      cases defined
      exact ⟨bound, here.2 ▸ (Array.getElem?_eq_some_iff.mp known).1⟩
    · exact flow.definition_lt defined
  case starts =>
    intro e s d defined
    rw [shown] at defined
    split at defined
    · exact .inl (.inr ‹_›)
    · exact (flow.starts defined).imp .inl (.later writes.later formed')
  case typed =>
    intro checked e s d defined type' w type_ leader
    rw [shown] at defined
    split at defined
    · rename_i here
      cases defined
      rw [here.2] at type_
      rw [onBlock, known] at type_
      cases type_
      exact typed checked w leader
    · exact flow.typed checked defined type' w type_ leader

theorem Ledger.of_outline {giving : Option (BlockId × Nat)} (ledger : b.Ledger closing giving)
    (values : t.values = b.values) (substitution : t.substitution = b.substitution)
    (count : t.blocks.size = b.blocks.size) (outline : t.outline = b.outline) :
    t.Ledger closing giving := by
  obtain ⟨home_lt, body, body_nodup, carried_lt, argument, listed, carried, operands, complete⟩ :=
    ledger
  have looks : t.look = b.look := by
    funext i
    rw [look, values, look]
  have reps : t.representative = b.representative := by
    funext i
    rw [representative, substitution, representative]
  have phi {i : ValueId} {type : ValueType} {c : BlockId} {j : Nat} {p : Phi}
      (phi : t.ArgumentPhi i type c j p) : b.ArgumentPhi i type c j p := ⟨looks ▸ phi.1, phi.2⟩
  refine ⟨by rwa [looks, count], by rwa [outline, looks], by rwa [outline], by rwa [outline, values],
    ?_, ?_, by rwa [outline], ?_, ?_⟩
  · rw [outline]
    intro c o phis present args j id position
    obtain ⟨type, p, shown, role⟩ := argument present args position
    exact ⟨type, p, by rwa [looks], role⟩
  · rw [outline]
    exact fun here => listed (phi here)
  · rw [outline, reps]
    exact fun here => operands (phi here)
  · rw [outline]
    exact fun here => complete (phi here)

theorem setLocal_ends (sound : b.Consistent strict written) {c : BlockId} {slot : Nat}
    {type : ValueType} {v : ValueId} (inside : c < b.blocks.size) (unused : ¬ b.Used c)
    (known : b.locals[slot]? = some type) (bound : v < b.values.size)
    (typed : strict = true → ∀ w, b.look (b.representative v) = some w →
      w.type.admits type = true) :
    Ends (setLocal c slot v) b (fun _ t =>
      t.Consistent strict (fun e s => written e s ∨ e = c ∧ s = slot) ∧ b.Redefines c slot v t)
      fun _ _ => False := by
  have slot_lt := (Array.getElem?_eq_some_iff.mp known).1
  rw [setLocal, ends_bind, ends_checkBlock inside, ends_bind, ends_get, ends_bind, ends_maintain]
  refine ⟨fun _ => ?_, fun absurd_ => absurd_ ⟨slot_lt, bound⟩⟩
  have writes := redefines_define sound.formed slot v inside unused
  exact ⟨⟨sound.formed.congr rfl rfl, sound.flow.define sound.formed inside unused known bound typed,
    sound.ledger.of_outline rfl rfl (size_onBlock _ _) writes.outline⟩, writes⟩

end WasmFunclets.Ssa.Builder
