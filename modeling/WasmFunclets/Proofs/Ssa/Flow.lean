import Mathlib.Tactic.ByContra
import WasmFunclets.Proofs.Ssa.Trivial

/-! How the definitions of locals hang together. The definition of a local at the end of a block that
does not write it is a phi of that block, or what all predecessors agree on. A read adds definitions
and phis, and changes no more than what stands for phis that are complete. -/

namespace WasmFunclets.Ssa

structure Block.Alike (k l : Block) : Prop where
  kind : l.kind = k.kind
  isSealed : l.isSealed = k.isSealed
  predecessors : l.predecessors = k.predecessors
  args : l.args = k.args
  body : l.body = k.body

theorem Block.Alike.refl (k : Block) : k.Alike k := ⟨rfl, rfl, rfl, rfl, rfl⟩

theorem Block.Alike.trans {k l m : Block} (first : k.Alike l) (second : l.Alike m) : k.Alike m where
  kind := second.kind.trans first.kind
  isSealed := second.isSealed.trans first.isSealed
  predecessors := second.predecessors.trans first.predecessors
  args := second.args.trans first.args
  body := second.body.trans first.body

structure Value.Kin (v w : Value) : Prop where
  type : w.type = v.type
  block : w.block = v.block
  content : w.content = v.content ∨ ∃ p q, v.content = .phi p ∧ w.content = .phi q ∧ q.role = p.role

theorem Value.Kin.refl (v : Value) : v.Kin v := ⟨rfl, rfl, .inl rfl⟩

theorem Value.Kin.trans {u v w : Value} (first : u.Kin v) (second : v.Kin w) : u.Kin w where
  type := second.type.trans first.type
  block := second.block.trans first.block
  content := by
    have before := first.content
    have behind := second.content
    grind

theorem Value.Settles.kin {v w : Value} (settles : v.Settles w) : v.Kin w := by
  rcases settles with rfl | ⟨_, _, p, r, rfl, _, rfl⟩
  · exact .refl _
  · exact ⟨rfl, rfl, .inr ⟨p, _, rfl, rfl, rfl⟩⟩

theorem Value.Kin.phi {type : ValueType} {home : Option BlockId} {p : Phi} {w : Value}
    (kin : Value.Kin ⟨type, home, .phi p⟩ w) :
    ∃ q, w = ⟨type, home, .phi q⟩ ∧ q.role = p.role := by
  obtain ⟨type', home', content⟩ := w
  obtain ⟨type_eq, block_eq, content_eq⟩ := kin
  dsimp only at *
  subst type_eq block_eq
  rcases content_eq with rfl | ⟨_, q, same, rfl, role⟩
  · exact ⟨p, rfl, rfl⟩
  · cases same
    exact ⟨q, rfl, role⟩

theorem Value.Kin.eq {v w : Value} (kin : v.Kin w) (plain : ∀ p, v.content ≠ .phi p) : w = v := by
  obtain ⟨type', home', content⟩ := w
  obtain ⟨type_eq, block_eq, content_eq⟩ := kin
  dsimp only at *
  subst type_eq block_eq
  rcases content_eq with rfl | ⟨p, _, isPhi, _⟩
  · rfl
  · exact absurd isPhi (plain p)

/-- What a read of a local can make: an initial value, an undefined one, or a phi of a local. -/
inductive Value.IsRead : Value → Prop where
  | param (type : ValueType) (slot : Nat) : IsRead ⟨type, some Builder.entryId, .param slot⟩
  | zero (type : ValueType) : IsRead ⟨type, some Builder.entryId, .zero⟩
  | undef (type : ValueType) : IsRead ⟨type, none, .undef⟩
  | phi (type : ValueType) (home : Option BlockId) {p : Phi} {slot : Nat}
      (role : p.role = .local slot) : IsRead ⟨type, home, .phi p⟩

namespace Builder

def Used (b : Builder) (c : BlockId) : Prop :=
  ∃ (e : BlockId) (k : Block), b.blocks[e]? = some k ∧ ∃ pred ∈ k.predecessors, pred.block = c

/-- Each edge keeps its place and its values, which may have got more in front of them. -/
def EdgesLast (old new : Array Predecessor) : Prop :=
  ∀ (i : Nat) (p : Predecessor), old[i]? = some p →
    ∃ q, new[i]? = some q ∧ q.block = p.block ∧ p.args <:+ q.args

theorem EdgesLast.refl (edges : Array Predecessor) : EdgesLast edges edges :=
  fun _ p place => ⟨p, place, rfl, List.suffix_refl _⟩

theorem EdgesLast.trans {old new last : Array Predecessor} (first : EdgesLast old new)
    (second : EdgesLast new last) : EdgesLast old last := fun i p place => by
  obtain ⟨q, place', block, values⟩ := first i p place
  obtain ⟨r, place'', block', values'⟩ := second i q place'
  exact ⟨r, place'', block'.trans block, values.trans values'⟩

theorem edgesLast_push (edges : Array Predecessor) (edge : Predecessor) :
    EdgesLast edges (edges.push edge) := fun i p place => by
  refine ⟨p, ?_, rfl, List.suffix_refl _⟩
  rw [Array.getElem?_push, if_neg (Nat.ne_of_lt (Array.getElem?_eq_some_iff.mp place).1), place]

theorem EdgesLast.mem {old new : Array Predecessor} (last : EdgesLast old new) {p : Predecessor}
    (member : p ∈ old) : ∃ q ∈ new, q.block = p.block := by
  obtain ⟨i, place⟩ := Array.mem_iff_getElem?.mp member
  obtain ⟨q, place', block, _⟩ := last i p place
  exact ⟨q, Array.mem_of_getElem? place', block⟩

/-- All that stays of a function under construction. -/
structure Later (b t : Builder) : Prop where
  locals : t.locals = b.locals
  paramCount : t.paramCount = b.paramCount
  block : ∀ {c : BlockId} {k : Block}, b.blocks[c]? = some k → ∃ l, t.blocks[c]? = some l ∧
    l.kind = k.kind ∧
    EdgesLast k.predecessors l.predecessors ∧
    (k.isSealed = true → l.isSealed = true ∧ l.predecessors = k.predecessors)
  look : ∀ {id : ValueId} {v : Value}, b.look id = some v → ∃ w, t.look id = some w ∧ v.Kin w
  representative : ∀ id, t.representative (b.representative id) = t.representative id
  definition : ∀ {c : BlockId} {s : Nat} {d : ValueId}, b.definition c s = some d → b.Used c →
    ∃ d', t.definition c s = some d' ∧ t.representative d' = t.representative d

variable {b t u : Builder}

theorem Later.used (later : b.Later t) {c : BlockId} (used : b.Used c) : t.Used c := by
  obtain ⟨e, k, present, pred, member, rfl⟩ := used
  obtain ⟨l, found, _, grown, _⟩ := later.block present
  obtain ⟨pred', member', same⟩ := grown.mem member
  exact ⟨e, l, found, pred', member', same⟩

theorem Later.same (later : b.Later t) {v w : ValueId}
    (same : b.representative v = b.representative w) : t.representative v = t.representative w := by
  rw [← later.representative v, same, later.representative]

theorem Later.trans (first : b.Later t) (second : t.Later u) : b.Later u where
  locals := second.locals.trans first.locals
  paramCount := second.paramCount.trans first.paramCount
  block present := by
    obtain ⟨l, found, kind, grown, closed⟩ := first.block present
    obtain ⟨m, last, kind', grown', closed'⟩ := second.block found
    refine ⟨m, last, kind'.trans kind, grown.trans grown', fun isSealed => ?_⟩
    obtain ⟨still, same⟩ := closed isSealed
    obtain ⟨ever, same'⟩ := closed' still
    exact ⟨ever, same'.trans same⟩
  look present := by
    obtain ⟨v, found, before⟩ := first.look present
    obtain ⟨w, last, behind⟩ := second.look found
    exact ⟨w, last, before.trans behind⟩
  representative id := by
    rw [← second.representative, first.representative, second.representative]
  definition known used := by
    obtain ⟨d, found, same⟩ := first.definition known used
    obtain ⟨e, last, same'⟩ := second.definition found (first.used used)
    exact ⟨e, last, same'.trans (second.same same)⟩

def IsInitial (b : Builder) (slot : Nat) (v : ValueId) : Prop :=
  ∃ type, b.locals[slot]? = some type ∧
    b.look v = some ⟨type, some entryId, if slot < b.paramCount then .param slot else .zero⟩

/-- Whether a value is right for a local before a block writes it: the initial one in the entry, the
phi of the block, or what all predecessors of a sealed block agree on. -/
inductive StartsWith (b : Builder) (c : BlockId) (slot : Nat) (v : ValueId) : Prop where
  | initial (entry : c = entryId) (value : b.IsInitial slot (b.representative v))
  | phi {q : ValueId} {type : ValueType} {p : Phi} (own : b.look q = some ⟨type, some c, .phi p⟩)
      (role : p.role = .local slot) (same : b.representative v = b.representative q)
  | passed {k : Block} (present : b.blocks[c]? = some k) (inner : c ≠ entryId)
      (isSealed : k.isSealed = true)
      (each : ∀ pred ∈ k.predecessors, ∃ d, b.definition pred.block slot = some d ∧
        b.representative d = b.representative v)

theorem StartsWith.congr {c : BlockId} {slot : Nat} {v w : ValueId} (starts : b.StartsWith c slot v)
    (same : b.representative w = b.representative v) : b.StartsWith c slot w := by
  cases starts with
  | initial entry value => exact .initial entry (same ▸ value)
  | phi own role toward => exact .phi own role (same.trans toward)
  | passed present inner isSealed each =>
      refine .passed present inner isSealed fun pred member => ?_
      obtain ⟨d, known, toward⟩ := each pred member
      exact ⟨d, known, toward.trans same.symm⟩

theorem Later.isInitial {strict : Bool} (later : b.Later t) (formed : t.Formed strict) {slot : Nat}
    {v : ValueId} (initial : b.IsInitial slot (b.representative v)) :
    t.IsInitial slot (t.representative v) := by
  obtain ⟨type, known, present⟩ := initial
  obtain ⟨w, found, kin⟩ := later.look present
  have same := kin.eq (by intro p; dsimp only; split <;> simp)
  subst same
  have leads : t.representative (b.representative v) = b.representative v := by
    by_contra changed
    obtain ⟨_, _, _, _, shown, _⟩ := formed.replaced changed
    rw [found] at shown
    simp only [Option.some.injEq, Value.mk.injEq] at shown
    obtain ⟨_, _, absurd_⟩ := shown
    split at absurd_ <;> cases absurd_
  rw [later.representative] at leads
  rw [leads]
  exact ⟨type, later.locals ▸ known, by rw [found, later.paramCount]⟩

theorem StartsWith.later {strict : Bool} {c : BlockId} {slot : Nat} {v : ValueId} (later : b.Later t)
    (formed : t.Formed strict) (starts : b.StartsWith c slot v) : t.StartsWith c slot v := by
  cases starts with
  | initial entry value => exact .initial entry (later.isInitial formed value)
  | phi own role same =>
      obtain ⟨w, found, kin⟩ := later.look own
      obtain ⟨q, rfl, role'⟩ := kin.phi
      exact .phi found (role'.trans role) (later.same same)
  | passed present inner isSealed each =>
      obtain ⟨l, found, _, _, closed⟩ := later.block present
      obtain ⟨still, same⟩ := closed isSealed
      refine .passed found inner still fun pred member => ?_
      rw [same] at member
      obtain ⟨d, known, toward⟩ := each pred member
      obtain ⟨d', last, same'⟩ := later.definition known ⟨c, _, present, pred, member, rfl⟩
      exact ⟨d', last, same'.trans (later.same toward)⟩

/-- Nothing is lost but what complete phis stand for, and blocks differ at most in what they know of
locals. -/
structure Keeps (b t : Builder) : Prop where
  locals : t.locals = b.locals
  paramCount : t.paramCount = b.paramCount
  count : t.blocks.size = b.blocks.size
  size : b.values.size ≤ t.values.size
  block : ∀ {c : BlockId} {k : Block}, b.blocks[c]? = some k → ∃ l, t.blocks[c]? = some l ∧
    k.Alike l ∧
    (∃ extra, l.pending = k.pending ++ extra ∧ ∀ e ∈ extra, b.definition c e.1 = none) ∧
    ∀ {s : Nat} {p : ValueId}, l.definitions[s]? = some (.placeholder p) →
      k.definitions[s]? = some (.placeholder p) ∨ (s, p) ∈ l.pending
  look : ∀ {id : ValueId} {v : Value}, b.look id = some v → ∃ w, t.look id = some w ∧ v.Settles w
  representative : ∀ id, t.representative (b.representative id) = t.representative id
  definition : ∀ {c : BlockId} {s : Nat} {d : ValueId}, b.definition c s = some d →
    ∃ d', t.definition c s = some d' ∧ t.representative d' = t.representative d

structure Reads (b t : Builder) : Prop extends Keeps b t where
  added : ∀ {id : ValueId} {w : Value}, b.values.size ≤ id → t.look id = some w → w.IsRead

theorem Keeps.later (reads : b.Keeps t) : b.Later t where
  locals := reads.locals
  paramCount := reads.paramCount
  block present := by
    obtain ⟨l, found, alike, _⟩ := reads.block present
    refine ⟨l, found, alike.kind, ?_, fun isSealed => ⟨by rw [alike.isSealed, isSealed],
      alike.predecessors⟩⟩
    rw [alike.predecessors]
    exact .refl _
  look present := by
    obtain ⟨w, found, settles⟩ := reads.look present
    exact ⟨w, found, settles.kin⟩
  representative := reads.representative
  definition known _ := reads.definition known

theorem Keeps.same (reads : b.Keeps t) {v w : ValueId}
    (same : b.representative v = b.representative w) : t.representative v = t.representative w :=
  reads.later.same same

theorem Keeps.block_back (reads : b.Keeps t) {c : BlockId} {l : Block}
    (present : t.blocks[c]? = some l) : ∃ k, b.blocks[c]? = some k ∧ k.Alike l ∧
      (∃ extra, l.pending = k.pending ++ extra ∧ ∀ e ∈ extra, b.definition c e.1 = none) ∧
      ∀ {s : Nat} {p : ValueId}, l.definitions[s]? = some (.placeholder p) →
        k.definitions[s]? = some (.placeholder p) ∨ (s, p) ∈ l.pending := by
  obtain ⟨k, before⟩ := block_of_lt (reads.count ▸ lt_of_block present)
  obtain ⟨l', found, rest⟩ := reads.block before
  rw [present] at found
  cases found
  exact ⟨k, before, rest⟩

theorem Reads.refl {strict : Bool} (formed : b.Formed strict) : b.Reads b where
  locals := rfl
  paramCount := rfl
  count := rfl
  size := Nat.le_refl _
  block present := ⟨_, present, .refl _, ⟨#[], by simp, by simp⟩, .inl⟩
  look present := ⟨_, present, .refl _⟩
  added out present := absurd (lt_of_look present) (Nat.not_lt.mpr out)
  representative := formed.representative_idem
  definition known := ⟨_, known, rfl⟩

theorem Reads.trans (first : b.Reads t) (second : t.Reads u) : b.Reads u where
  locals := second.locals.trans first.locals
  paramCount := second.paramCount.trans first.paramCount
  count := second.count.trans first.count
  size := Nat.le_trans first.size second.size
  block {c k} present := by
    obtain ⟨l, found, alike, ⟨extra, pending, fresh⟩, placeholder⟩ := first.block present
    obtain ⟨m, last, alike', ⟨extra', pending', fresh'⟩, placeholder'⟩ := second.block found
    refine ⟨m, last, alike.trans alike', ⟨extra ++ extra', ?_, ?_⟩, ?_⟩
    · rw [pending', pending, Array.append_assoc]
    · intro e member
      rcases Array.mem_append.mp member with old | new
      · exact fresh e old
      · have none_ := fresh' e new
        by_contra known
        obtain ⟨d, known⟩ := Option.ne_none_iff_exists'.mp known
        obtain ⟨_, still, _⟩ := first.definition known
        rw [none_] at still
        cases still
    · intro s p known
      rcases placeholder' known with before | new
      · rcases placeholder before with older | newer
        · exact .inl older
        · rw [pending']
          exact .inr (Array.mem_append_left _ newer)
      · exact .inr new
  look present := by
    obtain ⟨v, found, before⟩ := first.look present
    obtain ⟨w, last, behind⟩ := second.look found
    exact ⟨w, last, before.trans behind⟩
  added {id w} out present := by
    by_cases old : id < t.values.size
    · obtain ⟨v, found⟩ := look_of_lt old
      have make := first.added out found
      obtain ⟨_, later, settles⟩ := second.look found
      rw [later] at present
      cases present
      rcases settles with rfl | ⟨_, _, _, _, rfl, _, rfl⟩
      · exact make
      · cases make with
        | phi _ _ role => exact .phi _ _ role
    · exact second.added (Nat.le_of_not_lt old) present
  representative id := by
    rw [← second.representative, first.representative, second.representative]
  definition known := by
    obtain ⟨d, found, same⟩ := first.definition known
    obtain ⟨e, last, same'⟩ := second.definition found
    exact ⟨e, last, same'.trans (second.same same)⟩

theorem Collapses.reads (collapses : b.Collapses t) : b.Reads t where
  locals := collapses.locals
  paramCount := collapses.paramCount
  count := by rw [collapses.blocks]
  size := collapses.size
  block present := by
    rw [collapses.blocks]
    exact ⟨_, present, .refl _, ⟨#[], by simp, by simp⟩, .inl⟩
  look := collapses.look
  added out present := by
    obtain ⟨type, rfl⟩ := collapses.added out present
    exact .undef type
  representative := collapses.representative
  definition known := by
    refine ⟨_, ?_, rfl⟩
    rw [Builder.definition, collapses.blocks]
    exact known

end Builder

end WasmFunclets.Ssa
