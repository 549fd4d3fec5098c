import WasmFunclets.Proofs.Ssa.Endures
import WasmFunclets.Proofs.Ssa.Rereads

/-! What a read of a local adds to a function: a phi for a block at most, and only where the local was not
known. Blocks of which the local is known do not begin to wait for another phi. -/

namespace WasmFunclets.Ssa.Builder

open Attempt

variable {b t u : Builder} {slot s : Nat} {c e home : BlockId} {phi id : ValueId} {type : ValueType}
variable {change : Phi → Phi}

def siteAt (b : Builder) (id : ValueId) : Option (PhiRole × Option BlockId) :=
  b.values[id]?.bind fun v => v.phi?.map fun p => (p.role, v.block)

theorem siteAt_onPhi (kept : ∀ p, (change p).role = p.role) :
    (b.onPhi phi change).siteAt = b.siteAt := by
  funext i
  rw [siteAt, value_onPhi, siteAt]
  split
  · cases b.values[i]? with
    | none => rfl
    | some v => simp [phi?_updatePhi, kept, Function.comp_def]
  · rfl

theorem siteAt_fed (phi operand : ValueId) : (b.fed phi operand).siteAt = b.siteAt := by
  have first : (b.onPhi phi (Phi.feed (b.representative operand))).siteAt = b.siteAt :=
    siteAt_onPhi fun _ => rfl
  obtain same | same := b.fed_cases phi operand
  · rw [same, first]
  · rw [same, ← first]
    exact siteAt_onPhi fun _ => rfl

theorem siteAt_replacedBy (phi same : ValueId) (p : Phi) :
    (b.replacedBy phi same p).siteAt = b.siteAt := by
  calc
    (b.replacedBy phi same p).siteAt = (b.onPhi phi (Phi.retire same)).siteAt := siteAt_onPhi fun _ => rfl
    _ = b.siteAt := siteAt_onPhi fun _ => rfl

theorem siteAt_withValue (v : Value) (i : ValueId) : (b.withValue v).siteAt i =
    if i = b.values.size then v.phi?.map fun p => (p.role, v.block) else b.siteAt i := by
  rw [siteAt, value_withValue, siteAt]
  split <;> rfl

theorem siteAt_of_le (out : b.values.size ≤ id) : b.siteAt id = none := by
  rw [siteAt, Array.getElem?_eq_none out, Option.bind_none]

theorem isPhi_iff_siteAt : b.isPhi id = true ↔ b.siteAt id ≠ none := by
  rw [isPhi, siteAt]
  cases b.values[id]? with
  | none => simp
  | some v => cases found : v.phi? <;> simp [found]

structure SameSites (b t : Builder) : Prop where
  aliased : t.Aliased
  size : b.values.size ≤ t.values.size
  site : t.siteAt = b.siteAt
  blocks : t.blocks = b.blocks

theorem SameSites.refl (aliased : b.Aliased) : b.SameSites b := ⟨aliased, Nat.le_refl _, rfl, rfl⟩

theorem SameSites.trans (first : b.SameSites t) (second : t.SameSites u) : b.SameSites u where
  aliased := second.aliased
  size := Nat.le_trans first.size second.size
  site := second.site.trans first.site
  blocks := second.blocks.trans first.blocks

theorem SameSites.definition (sites : b.SameSites t) : t.definition = b.definition := by
  funext c s
  rw [Builder.definition, sites.blocks, Builder.definition]

theorem SameSites.withValue (aliased : b.Aliased) {v : Value} (noPhi : v.phi? = none) :
    b.SameSites (b.withValue v) where
  aliased := aliased.withValue fun p isPhi => by cases noPhi.symm.trans isPhi
  size := by simp
  site := by
    funext i
    rw [siteAt_withValue]
    split
    · rename_i new
      rw [noPhi, siteAt_of_le (Nat.le_of_eq new.symm), Option.map_none]
    · rfl
  blocks := rfl

theorem SameSites.picks {trivial : Trivial} {same : ValueId} (aliased : b.Aliased)
    (picks : b.Picks trivial same t) : b.SameSites t := by
  cases picks with
  | merged => exact .refl aliased
  | nothing => exact .withValue aliased rfl

theorem SameSites.replacedBy {same : ValueId} {p : Phi} (aliased : b.Aliased)
    (cedes : b.Cedes phi same p) : b.SameSites (b.replacedBy phi same p) where
  aliased := cedes.keeps_aliased aliased
  size := Nat.le_of_eq (size_replacedBy _ _ _).symm
  site := siteAt_replacedBy _ _ _
  blocks := rfl

abbrev KeepsSites {α : Type} (m : Attempt Builder α) : Prop :=
  Along (fun b t => b.Aliased → b.SameSites t) (fun _ b t => b.Aliased → b.SameSites t) m

instance : Composes (fun b t : Builder => b.Aliased → b.SameSites t) fun _ b t => b.Aliased → b.SameSites t where
  refl _ aliased := .refl aliased
  trans first second aliased := (first aliased).trans (second (first aliased).aliased)
  fails first second aliased := (first aliased).trans (second (first aliased).aliased)

theorem addValue_keepsSites (home : Option BlockId) {content : Content} (noPhi : ∀ p, content ≠ .phi p) :
    KeepsSites (addValue type home content) := by
  refine along_of_ends fun b aliased => ?_
  refine (addValue_alone b).mono ?_ ?_
  · rintro _ _ ⟨rfl, rfl⟩
    refine .withValue aliased ?_
    cases content with
    | phi p => exact absurd rfl (noPhi p)
    | _ => rfl
  · rintro _ _ ⟨_, rfl⟩
    exact .refl aliased

theorem feed_keepsSites (phi operand : ValueId) : KeepsSites (feed phi operand) := by
  refine along_of_ends fun b aliased => ?_
  by_cases inside : b.representative operand < b.values.size
  · refine (feed_ends phi inside).mono ?_ fun _ _ => False.elim
    rintro _ _ rfl
    exact ⟨aliased.fed phi inside, Nat.le_of_eq (size_fed _ _).symm, siteAt_fed _ _, blocks_fed _ _⟩
  · simp only [feed, ends_bind, ends_get, ends_maintain]
    exact ⟨fun bound => absurd bound inside, fun _ => .refl aliased⟩

theorem finish_keepsSites (phi : ValueId) :
    KeepsSites (modifyPhi phi fun p => { p with complete := true }) :=
  along_modify fun b aliased => ⟨aliased.finish phi,
    Nat.le_of_eq (size_onPhi phi Phi.finish (b := b)).symm, siteAt_onPhi (b := b) fun _ => rfl, rfl⟩

theorem replaceTrivial_keepsSites (steps : Nat) (work : List ValueId) :
    KeepsSites (replaceTrivial steps work) := by
  refine along_of_ends fun b aliased => ?_
  refine replaceTrivial_rule (I := fun _ _ t => b.SameSites t) (·.aliased) (fun now => now)
    (fun now _ => now) (fun now _ => now) ?_ _ _ (.refl aliased)
  intro _ _ t trivial same c p now _ picks cedes
  have between := now.trans (.picks now.aliased picks)
  exact between.trans (.replacedBy between.aliased cedes)

theorem removeTrivial_keepsSites (phi : ValueId) : KeepsSites (removeTrivial phi) := by
  refine along_of_ends fun b aliased => ?_
  rw [removeTrivial, ends_bind, ends_get, ends_bind]
  exact (replaceTrivial_keepsSites _ _).ends aliased

theorem complete_keepsSites (phi : ValueId) : KeepsSites (do
    modifyPhi phi fun p => { p with complete := true }
    removeTrivial phi) :=
  along_bind (finish_keepsSites phi) fun _ => removeTrivial_keepsSites phi

theorem completeAll_keepsSites (phis : List ValueId) : KeepsSites (do
    phis.forM fun phi => modifyPhi phi fun p => { p with complete := true }
    phis.forM fun phi => do let _ ← removeTrivial phi) := by
  refine along_bind (along_forM fun phi _ => finish_keepsSites phi) fun _ => along_forM fun phi _ => ?_
  exact along_bind (removeTrivial_keepsSites phi) fun _ => along_pure _

/-- A block that knows what it knew, and that has not begun to wait for a local that it knew. -/
structure Abides (slot : Nat) (k l : Block) : Prop where
  predecessors : l.predecessors = k.predecessors
  pending : k.definitions[slot]? ≠ none → l.pending = k.pending
  kept : ∀ s : Nat, k.definitions[s]? ≠ none → l.definitions[s]? ≠ none

theorem Abides.refl (k : Block) : Abides slot k k := ⟨rfl, fun _ => rfl, fun _ => id⟩

theorem Abides.trans {k l m : Block} (first : Abides slot k l) (second : Abides slot l m) :
    Abides slot k m where
  predecessors := second.predecessors.trans first.predecessors
  pending known := (second.pending (first.kept slot known)).trans (first.pending known)
  kept s known := second.kept s (first.kept s known)

theorem define_ne_none {k : Block} {d : Definition} (known : k.definitions[s]? ≠ none) :
    (k.define slot d).definitions[s]? ≠ none := by
  rw [Block.define, getElem?_insert]
  split
  · exact Option.some_ne_none d
  · exact known

theorem define_known (k : Block) (d : Definition) :
    (k.define slot d).definitions[slot]? ≠ none := by
  rw [Block.define, getElem?_insert, if_pos rfl]
  exact Option.some_ne_none d

theorem abides_define (k : Block) (d : Definition) : Abides slot k (k.define slot d) :=
  ⟨rfl, fun _ => rfl, fun _ => define_ne_none⟩

theorem abides_wait {k : Block} (new : k.definitions[slot]? = none) (phi : ValueId) (d : Definition) :
    Abides slot k (Block.define slot d { k with pending := k.pending.push (slot, phi) }) :=
  ⟨rfl, fun known => absurd new known, fun _ => define_ne_none⟩

theorem abides_onBlock {g : Block → Block}
    (here : ∀ k, b.blocks[c]? = some k → Abides slot k (g k)) {k : Block}
    (present : b.blocks[e]? = some k) :
    ∃ l, (b.onBlock c g).blocks[e]? = some l ∧ Abides slot k l := by
  rw [block_onBlock]
  split
  · rename_i same
    rw [present, Option.map_some]
    exact ⟨g k, rfl, here k (same ▸ present)⟩
  · exact ⟨k, present, .refl k⟩

theorem definition_ne_none : b.definition c s ≠ none ↔
    ∃ k : Block, b.blocks[c]? = some k ∧ k.definitions[s]? ≠ none := by
  rw [definition]
  cases b.blocks[c]? <;> simp

theorem known_of_abides (block : ∀ {c : BlockId} {k : Block}, b.blocks[c]? = some k →
      ∃ l, t.blocks[c]? = some l ∧ Abides slot k l) (known : b.definition c s ≠ none) :
    t.definition c s ≠ none := by
  obtain ⟨k, present, defined⟩ := definition_ne_none.mp known
  obtain ⟨l, found, abides⟩ := block present
  exact definition_ne_none.mpr ⟨l, found, abides.kept s defined⟩

/-- What is left of a function while a local is read: each new phi is the first definition that its block
has got. -/
structure Adds (b : Builder) (slot : Nat) (t : Builder) : Prop where
  aliased : t.Aliased
  size : b.values.size ≤ t.values.size
  count : t.blocks.size = b.blocks.size
  block : ∀ {c : BlockId} {k : Block}, b.blocks[c]? = some k →
    ∃ l, t.blocks[c]? = some l ∧ Abides slot k l
  site : ∀ {id : ValueId} {role : PhiRole} {home : Option BlockId}, b.values.size ≤ id →
    t.siteAt id = some (role, home) → role = .local slot ∧ ∃ c, home = some c ∧
      b.definition c slot = none ∧ t.definition c slot ≠ none
  apart : ∀ {i j : ValueId}, b.values.size ≤ i → b.values.size ≤ j → t.siteAt i ≠ none →
    t.siteAt i = t.siteAt j → i = j

theorem Adds.refl (aliased : b.Aliased) : b.Adds slot b where
  aliased := aliased
  size := Nat.le_refl _
  count := rfl
  block present := ⟨_, present, .refl _⟩
  site out shown := by
    rw [siteAt_of_le out] at shown
    cases shown
  apart out _ shown := absurd (siteAt_of_le out) shown

theorem Adds.sameSites (adds : b.Adds slot t) (sites : t.SameSites u) : b.Adds slot u where
  aliased := sites.aliased
  size := Nat.le_trans adds.size sites.size
  count := by rw [sites.blocks, adds.count]
  block := by
    rw [sites.blocks]
    exact adds.block
  site := by
    rw [sites.site, sites.definition]
    exact adds.site
  apart := by
    rw [sites.site]
    exact adds.apart

theorem Adds.define (adds : b.Adds slot t) (c : BlockId) (d : Definition) :
    b.Adds slot (t.onBlock c (Block.define slot d)) where
  aliased := adds.aliased.congr rfl rfl
  size := adds.size
  count := (size_onBlock _ _).trans adds.count
  block present := by
    obtain ⟨l, found, abides⟩ := adds.block present
    obtain ⟨m, later, abides'⟩ := abides_onBlock (c := c) (fun k _ => abides_define k d) found
    exact ⟨m, later, abides.trans abides'⟩
  site out shown := by
    obtain ⟨role, c', home, new, known⟩ := adds.site out shown
    exact ⟨role, c', home, new,
      known_of_abides (abides_onBlock fun k _ => abides_define k d) known⟩
  apart := adds.apart

/-- A block that knew nothing of the local gets a phi for it. -/
theorem Adds.plant (adds : b.Adds slot t) {k : Block} (present : t.blocks[c]? = some k)
    (new : k.definitions[slot]? = none) (type : ValueType) {g : Block → Block}
    (learns : (g k).definitions[slot]? ≠ none)
    (abides : ∀ k, k.definitions[slot]? = none → Abides slot k (g k)) :
    b.Adds slot ((t.withValue ⟨type, some c, .phi (.fresh (.local slot))⟩).onBlock c g) := by
  have here : ∀ l, (t.withValue ⟨type, some c, .phi (.fresh (.local slot))⟩).blocks[c]? = some l →
      Abides slot l (g l) := by
    intro l found
    cases present.symm.trans found
    exact abides k new
  have nothing : t.definition c slot = none := (definition_eq_none present).mpr new
  have before : b.definition c slot = none := by
    refine Decidable.not_not.mp fun known => ?_
    exact known_of_abides adds.block known nothing
  have known : ((t.withValue ⟨type, some c, .phi (.fresh (.local slot))⟩).onBlock c g).definition c slot
      ≠ none := by
    refine definition_ne_none.mpr ⟨g k, ?_, learns⟩
    rw [block_onBlock, if_pos rfl, blocks_withValue, present, Option.map_some]
  have site (i : ValueId) : ((t.withValue ⟨type, some c, .phi (.fresh (.local slot))⟩).onBlock c g).siteAt i =
      if i = t.values.size then some (.local slot, some c) else t.siteAt i :=
    siteAt_withValue _ _
  constructor
  case aliased =>
    refine (adds.aliased.withValue fun p isPhi => ?_).congr rfl rfl
    cases isPhi
    exact ⟨rfl, rfl⟩
  case size =>
    exact Nat.le_trans adds.size (by simp)
  case count =>
    exact (size_onBlock _ _).trans adds.count
  case block =>
    intro e k' present'
    obtain ⟨l, found, abides⟩ := adds.block present'
    obtain ⟨m, later, abides'⟩ := abides_onBlock (b := t.withValue _) here found
    exact ⟨m, later, abides.trans abides'⟩
  case site =>
    intro id role home out shown
    rw [site] at shown
    split at shown
    · cases shown
      exact ⟨rfl, c, rfl, before, known⟩
    · obtain ⟨role, c', home, new, known⟩ := adds.site out shown
      have stays {e : BlockId} {k : Block} (present : t.blocks[e]? = some k) :
          ∃ l, ((t.withValue ⟨type, some c, .phi (.fresh (.local slot))⟩).onBlock c g).blocks[e]? = some l ∧
            Abides slot k l := abides_onBlock (b := t.withValue _) here present
      exact ⟨role, c', home, new, known_of_abides stays known⟩
  case apart =>
    -- an older phi has a block that knows the local
    have old {i : ValueId} (out : b.values.size ≤ i) : t.siteAt i ≠ some (.local slot, some c) := by
      intro shown
      obtain ⟨_, c', home, _, known⟩ := adds.site out shown
      cases home
      exact known nothing
    intro i j first second shown same
    rw [site] at shown
    rw [site, site] at same
    split at same
    · split at same
      · exact ‹i = _›.trans (Eq.symm ‹j = _›)
      · exact absurd same.symm (old second)
    · rename_i other
      rw [if_neg other] at shown
      split at same
      · exact absurd same (old first)
      · exact adds.apart first second shown same

theorem adds_of_keepsSites {α : Type} {m : Attempt Builder α} (keeps : KeepsSites m) :
    Saves (fun _ t => b.Adds slot t) (fun t => b.Adds slot t) m :=
  along_of_ends fun _ adds => (keeps.ends adds.aliased).mono (fun _ _ => adds.sameSites)
    fun _ _ => adds.sameSites

theorem readable_adds (b : Builder) (slot : Nat) :
    Readable (fun _ t => b.Adds slot t) (fun _ => True) slot (fun t => b.Adds slot t) where
  mishaps _ _ _ _ before := before
  stuck before := before
  locals _ _ _ := trivial
  define c d adds := adds.define c d
  wait {t type c k} _ present new adds := by
    refine (addValue_alone t).mono ?_ ?_
    · rintro phi _ ⟨_, rfl⟩
      rw [onBlock_onBlock]
      exact adds.plant present new type (define_known _ _) fun k new => abides_wait new phi _
    · rintro _ _ ⟨_, rfl⟩
      exact adds
  join {t type c k} _ present new adds := by
    refine (addValue_alone t).mono ?_ ?_
    · rintro phi _ ⟨_, rfl⟩
      exact adds.plant present new type (define_known _ _) fun k _ => abides_define k _
    · rintro _ _ ⟨_, rfl⟩
      exact adds
  addValue home _ noPhi := adds_of_keepsSites (addValue_keepsSites home noPhi)
  feed phi operand := adds_of_keepsSites (feed_keepsSites phi operand)
  finish phi := adds_of_keepsSites (complete_keepsSites phi)

theorem getLocal_adds (aliased : b.Aliased) (c : BlockId) (slot : Nat) :
    Ends (getLocal c slot) b (fun _ t => b.Adds slot t) fun _ t => b.Adds slot t :=
  ((readable_adds b slot).getLocal c).ends (.refl aliased)

theorem Adds.site_new (adds : b.Adds slot t) (out : b.values.size ≤ id) (isPhi : t.isPhi id = true) :
    ∃ home, t.siteAt id = some (.local slot, some home) ∧ home < b.blocks.size ∧
      b.definition home slot = none := by
  obtain ⟨⟨role, place⟩, shown⟩ := Option.ne_none_iff_exists'.mp (isPhi_iff_siteAt.mp isPhi)
  obtain ⟨rfl, home, rfl, new, known⟩ := adds.site out shown
  obtain ⟨k, present, _⟩ := definition_ne_none.mp known
  exact ⟨home, shown, adds.count ▸ lt_of_block present, new⟩

def PendingDefined (b : Builder) : Prop := ∀ (c : BlockId) (k : Block), b.blocks[c]? = some k →
  ∀ entry ∈ k.pending, k.definitions[entry.1]? ≠ none

theorem PendingDefined.onBlock (noted : b.PendingDefined) {g : Block → Block}
    (here : ∀ k : Block, (∀ entry ∈ k.pending, k.definitions[entry.1]? ≠ none) →
      ∀ entry ∈ (g k).pending, (g k).definitions[entry.1]? ≠ none) : (b.onBlock c g).PendingDefined := by
  intro e l present
  rw [block_onBlock] at present
  split at present
  · obtain ⟨k, before, rfl⟩ := Option.map_eq_some_iff.mp present
    exact here k (noted e k before)
  · exact noted e l present

theorem PendingDefined.define (noted : b.PendingDefined) (c : BlockId) (slot : Nat) (d : Definition) :
    (b.onBlock c (Block.define slot d)).PendingDefined :=
  noted.onBlock fun _ before entry member => define_ne_none (before entry member)

theorem PendingDefined.wait (noted : b.PendingDefined) (c : BlockId) (slot : Nat) (phi : ValueId) (d : Definition) :
    (b.onBlock c fun k =>
      Block.define slot d { k with pending := k.pending.push (slot, phi) }).PendingDefined := by
  refine noted.onBlock fun k before entry member => ?_
  rcases Array.mem_push.mp member with old | rfl
  · exact define_ne_none (before entry old)
  · exact define_known _ d

theorem PendingDefined.sameSites (noted : b.PendingDefined) (sites : b.SameSites t) : t.PendingDefined := by
  intro c k present
  rw [sites.blocks] at present
  exact noted c k present

/-- Edges come from blocks that there are, and what a block waits for is in order. -/
structure BlocksInOrder (b : Builder) : Prop extends b.EdgesInside where
  noted : b.PendingDefined

theorem BlocksInOrder.sameSites (inOrder : b.BlocksInOrder) (sites : b.SameSites t) : t.BlocksInOrder where
  toAliased := sites.aliased
  pred_lt := by
    rw [sites.blocks]
    exact inOrder.pred_lt
  noted := inOrder.noted.sameSites sites

theorem BlocksInOrder.define (inOrder : b.BlocksInOrder) (c : BlockId) (slot : Nat) (d : Definition) :
    (b.onBlock c (Block.define slot d)).BlocksInOrder :=
  ⟨inOrder.toEdgesInside.write c slot d, inOrder.noted.define c slot d⟩

theorem inOrder_of_keepsSites {α : Type} {m : Attempt Builder α} (keeps : KeepsSites m) :
    Saves (fun _ t => t.BlocksInOrder) BlocksInOrder m :=
  along_of_ends fun _ inOrder => (keeps.ends inOrder.toAliased).mono (fun _ _ => inOrder.sameSites)
    fun _ _ => inOrder.sameSites

theorem addPhi_inOrder (role : PhiRole) :
    Saves (fun _ t => t.BlocksInOrder) BlocksInOrder (addPhi c type role) := by
  refine along_of_ends fun b inOrder => (addValue_alone b).mono ?_ ?_
  · rintro phi _ ⟨_, rfl⟩
    have aliased := inOrder.toAliased.withValue (v := ⟨type, some c, .phi (.fresh role)⟩)
      fun p isPhi => by cases isPhi; exact ⟨rfl, rfl⟩
    exact ⟨⟨aliased, inOrder.pred_lt⟩, inOrder.noted⟩
  · rintro _ _ ⟨_, rfl⟩
    exact inOrder

theorem BlocksInOrder.wait (inOrder : b.BlocksInOrder) (c : BlockId) (slot : Nat) (phi : ValueId) :
    ((b.onBlock c fun k => { k with pending := k.pending.push (slot, phi) }).onBlock c
      (Block.define slot (.placeholder phi))).BlocksInOrder := by
  rw [onBlock_onBlock]
  exact ⟨inOrder.toEdgesInside.onBlock c fun _ => inOrder.pred_lt, inOrder.noted.wait c slot phi _⟩

theorem readable_inOrder (slot : Nat) :
    Readable (fun _ t => t.BlocksInOrder) (fun _ => True) slot BlocksInOrder where
  mishaps _ _ _ _ before := before
  stuck before := before
  locals _ _ _ := trivial
  define c d before := before.define c slot d
  wait {_ _ c _} _ _ _ before := by
    refine ((addPhi_inOrder _).ends before).imp fun phi t after => ?_
    exact after.wait c slot phi
  join {_ _ c _} _ _ _ before := by
    refine ((addPhi_inOrder _).ends before).imp fun phi t after => ?_
    exact after.define c slot (.final phi)
  addValue home _ noPhi := inOrder_of_keepsSites (addValue_keepsSites home noPhi)
  feed phi operand := inOrder_of_keepsSites (feed_keepsSites phi operand)
  finish phi := inOrder_of_keepsSites (complete_keepsSites phi)

theorem BlocksInOrder.addBlock (inOrder : b.BlocksInOrder) (kind : BlockKind) :
    ({ b with blocks := b.blocks.push (.fresh kind) } : Builder).BlocksInOrder where
  toEdgesInside := (Recalls.addBlock inOrder.toEdgesInside kind).toEdgesInside
  noted c k present := by
    rw [Array.getElem?_push] at present
    split at present
    · cases present
      simp [Block.fresh]
    · exact inOrder.noted c k present

theorem BlocksInOrder.onBlock (inOrder : b.BlocksInOrder) (c : BlockId) {g : Block → Block}
    (calm : ∀ k : Block, k.NoNewPending (g k)) : (b.onBlock c g).BlocksInOrder where
  toEdgesInside := (Recalls.onBlock inOrder.toEdgesInside c fun k => (calm k).toTied).toEdgesInside
  noted := by
    refine inOrder.noted.onBlock fun k noted entry member => ?_
    rw [(calm k).definitions]
    exact noted entry ((calm k).pending entry member)

theorem BlocksInOrder.addEdge (inOrder : b.BlocksInOrder) (c : BlockId) {edge : Predecessor}
    (inside : edge.block < b.blocks.size) :
    (b.onBlock c fun k => { k with predecessors := k.predecessors.push edge }).BlocksInOrder where
  toEdgesInside := (Recalls.addEdge inOrder.toEdgesInside c inside).toEdgesInside
  noted := inOrder.noted.onBlock fun _ noted => noted

theorem addBlock_inOrder (kind : BlockKind) :
    Saves (fun _ t => t.BlocksInOrder) BlocksInOrder (addBlock kind) := by
  refine saves_get_bind fun _ _ => ?_
  have pushes : Saves (fun _ t => t.BlocksInOrder) BlocksInOrder
      (modify fun b : Builder => { b with blocks := b.blocks.push (.fresh kind) }) :=
    along_modify fun _ before => before.addBlock kind
  exact along_bind pushes fun _ => along_pure _

theorem confirm_inOrder (c : BlockId) (slot : Nat) (phi : ValueId) :
    Saves (fun _ t => t.BlocksInOrder) BlocksInOrder (confirm c slot phi) := by
  refine along_bind (blockAt_saves (fun _ _ _ _ before => before) c) fun block => ?_
  refine along_ite (saves_get_bind fun _ _ => ?_) (along_pure _)
  exact along_modify fun _ before => before.define c slot _

theorem durable_inOrder : Durable (fun _ t => t.BlocksInOrder) (fun _ => True) BlocksInOrder where
  mishaps _ _ _ _ before := before
  addBlock := addBlock_inOrder
  onBlock c _ calm before := before.onBlock c calm
  addEdge c _ inside before := before.addEdge c inside
  addPhi _ role _ := addPhi_inOrder role
  addValue home _ noPhi := inOrder_of_keepsSites (addValue_keepsSites home noPhi)
  feed phi operand := inOrder_of_keepsSites (feed_keepsSites phi operand)
  finish phi := inOrder_of_keepsSites (complete_keepsSites phi)
  finishAll phis := inOrder_of_keepsSites (completeAll_keepsSites phis)
  getLocal c slot := (readable_inOrder slot).getLocal c
  confirm := confirm_inOrder

theorem setLocal_inOrder (c : BlockId) (slot : Nat) (v : ValueId) :
    Saves (fun _ t => t.BlocksInOrder) BlocksInOrder (setLocal c slot v) := by
  refine along_of_ends fun b before => (setLocal_writes b c slot v).mono ?_ ?_
  · rintro _ _ ⟨_, rfl⟩
    exact before.define c slot _
  · rintro _ _ rfl
    exact before

theorem attempt_inOrder (request : Request) :
    Saves (fun _ t => t.BlocksInOrder) BlocksInOrder request.attempt :=
  request.attempt_saves durable_inOrder fun c slot v _ => setLocal_inOrder c slot v

theorem inOrder_ofLocals (locals : Array ValueType) (paramCount : Nat) :
    (ofLocals locals paramCount).BlocksInOrder where
  toEdgesInside := edgesInside_ofLocals locals paramCount
  noted _ _ present entry member := by
    obtain ⟨_, rfl⟩ := block_ofLocals present
    simp [Block.entry, Block.fresh] at member

end WasmFunclets.Ssa.Builder
