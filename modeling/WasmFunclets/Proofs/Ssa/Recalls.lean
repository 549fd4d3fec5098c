import WasmFunclets.Proofs.Ssa.Trivial
import WasmFunclets.Proofs.Ssa.Ledger
import WasmFunclets.Proofs.Ssa.Stable

/-! What is known of locals stays known: a later definition at the end of a block stands for the same
value as the one that it takes the place of. A lookup leaves a definition for the block it started at,
however far up it had to go and also where it is one of many that fail. -/

namespace WasmFunclets.Ssa.Builder

open Attempt

variable {b t u : Builder} {slot : Nat} {type : ValueType} {start goal c next : BlockId}
variable {chain : List BlockId} {v : ValueId} {m : Merge}

/-- What holds of a function under construction at any time, also after a failure. -/
structure EdgesInside (b : Builder) : Prop extends b.Aliased where
  pred_lt : ∀ {c : BlockId} {k : Block}, b.blocks[c]? = some k →
    ∀ pred ∈ k.predecessors, pred.block < b.blocks.size

/-- All definitions of locals are still known, and stand for what they stood for. -/
structure Recalls (b t : Builder) : Prop extends t.EdgesInside where
  locals : t.locals = b.locals
  count : b.blocks.size ≤ t.blocks.size
  representative : ∀ id, t.representative (b.representative id) = t.representative id
  definition : ∀ {c : BlockId} {s : Nat} {d : ValueId}, b.definition c s = some d →
    ∃ d', t.definition c s = some d' ∧ t.representative d' = t.representative d

/-- The same, where blocks differ at most in what they know of locals. -/
structure Seeks (b t : Builder) : Prop extends b.Recalls t where
  outline : t.outline = b.outline

def StandsFor (b : Builder) (c : BlockId) (slot : Nat) (v : ValueId) : Prop :=
  ∃ d, b.definition c slot = some d ∧ b.representative d = b.representative v

theorem Recalls.refl (steady : b.EdgesInside) : b.Recalls b where
  toEdgesInside := steady
  locals := rfl
  count := Nat.le_refl _
  representative := steady.representative_idem
  definition known := ⟨_, known, rfl⟩

theorem Recalls.same (recalls : b.Recalls t) {v w : ValueId}
    (same : b.representative v = b.representative w) : t.representative v = t.representative w := by
  rw [← recalls.representative v, same, recalls.representative]

theorem Recalls.trans (first : b.Recalls t) (second : t.Recalls u) : b.Recalls u where
  toEdgesInside := second.toEdgesInside
  locals := second.locals.trans first.locals
  count := Nat.le_trans first.count second.count
  representative id := by
    rw [← second.representative, first.representative, second.representative]
  definition known := by
    obtain ⟨d, found, same⟩ := first.definition known
    obtain ⟨e, last, same'⟩ := second.definition found
    exact ⟨e, last, same'.trans (second.same same)⟩

theorem Recalls.standsFor (recalls : b.Recalls t) (settled : b.StandsFor c slot v) :
    t.StandsFor c slot v := by
  obtain ⟨d, known, same⟩ := settled
  obtain ⟨d', known', same'⟩ := recalls.definition known
  exact ⟨d', known', same'.trans (recalls.same same)⟩

theorem Seeks.refl (steady : b.EdgesInside) : b.Seeks b := ⟨.refl steady, rfl⟩

theorem Seeks.trans (first : b.Seeks t) (second : t.Seeks u) : b.Seeks u :=
  ⟨first.toRecalls.trans second.toRecalls, second.outline.trans first.outline⟩

theorem size_of_outline (outline : t.outline = b.outline) : t.blocks.size = b.blocks.size := by
  refine Nat.le_antisymm ?_ ?_
  · refine Nat.le_of_not_lt fun more => ?_
    obtain ⟨o, present⟩ := outline_of_lt more
    exact Nat.lt_irrefl _ (lt_of_outline (outline ▸ present))
  · refine Nat.le_of_not_lt fun less => ?_
    obtain ⟨o, present⟩ := outline_of_lt less
    exact Nat.lt_irrefl _ (lt_of_outline (outline ▸ present))

theorem Seeks.size (seeks : b.Seeks t) : t.blocks.size = b.blocks.size :=
  size_of_outline seeks.outline

theorem follows_iff_outline : b.Follows c next ↔ ∃ o, b.outline c = some o ∧ o.isSealed = true ∧
    o.kind ≠ .entry ∧ o.predecessors.toList.map Predecessor.block = [next] := by
  constructor
  · rintro ⟨k, present, rest⟩
    exact ⟨_, outline_of_block present, rest⟩
  · rintro ⟨o, present, rest⟩
    obtain ⟨k, found, rfl⟩ := block_of_outline present
    exact ⟨k, found, rest⟩

theorem Seeks.follows (seeks : b.Seeks t) : t.Follows c next ↔ b.Follows c next := by
  rw [follows_iff_outline, follows_iff_outline, seeks.outline]

theorem Seeks.trail (seeks : b.Seeks t) (trail : b.Trail start chain goal) :
    t.Trail start chain goal := trail.imp fun _ _ => seeks.follows.mpr

theorem Shifts.seeks (shifts : b.Shifts t) (steady : b.EdgesInside) : b.Seeks t where
  toAliased := shifts.aliased
  pred_lt := by
    rw [shifts.blocks]
    exact steady.pred_lt
  locals := shifts.locals
  count := Nat.le_of_eq (by rw [shifts.blocks])
  representative := shifts.representative
  definition known := by
    refine ⟨_, ?_, rfl⟩
    rw [Builder.definition, shifts.blocks]
    exact known
  outline := by
    funext c
    rw [Builder.outline, shifts.blocks, Builder.outline]

theorem Shifts.definition (shifts : b.Shifts t) : t.definition = b.definition := by
  funext c s
  rw [Builder.definition, shifts.blocks, Builder.definition]

theorem EdgesInside.onBlock (steady : b.EdgesInside) (c : BlockId) {change : Block → Block}
    (inside : ∀ k, b.blocks[c]? = some k →
      ∀ pred ∈ (change k).predecessors, pred.block < b.blocks.size) : (b.onBlock c change).EdgesInside where
  toAliased := steady.toAliased.congr rfl rfl
  pred_lt {e l} present pred member := by
    rw [size_onBlock]
    rw [block_onBlock] at present
    split at present
    · rename_i same
      obtain ⟨k, before, rfl⟩ := Option.map_eq_some_iff.mp present
      exact inside k (same ▸ before) pred member
    · exact steady.pred_lt present pred member

theorem Recalls.onBlock (steady : b.EdgesInside) (c : BlockId) {change : Block → Block}
    (tied : ∀ k : Block, k.Tied (change k)) : b.Recalls (b.onBlock c change) where
  toEdgesInside := by
    refine steady.onBlock c fun k before pred member => ?_
    have listed : pred.block ∈ (change k).predecessors.map Predecessor.block :=
      Array.mem_map_of_mem member
    rw [(tied k).sources] at listed
    obtain ⟨old, member', same⟩ := Array.mem_map.mp listed
    exact same ▸ steady.pred_lt before old member'
  locals := rfl
  count := Nat.le_of_eq (size_onBlock c change).symm
  representative := steady.representative_idem
  definition known := ⟨_, by rw [definition_onBlock c fun k => (tied k).definitions]; exact known, rfl⟩

theorem Seeks.onBlock (steady : b.EdgesInside) (c : BlockId) {change : Block → Block}
    (tied : ∀ k : Block, k.Tied (change k)) (outline : ∀ k, (change k).outline = k.outline) :
    b.Seeks (b.onBlock c change) where
  toRecalls := .onBlock steady c tied
  outline := by
    funext e
    rw [Builder.outline, block_onBlock]
    split
    · cases present : b.blocks[e]? with
      | none => rw [Builder.outline, present]; rfl
      | some k => rw [outline_of_block present, Option.map_some, Option.map_some, outline]
    · rfl

/-- Definitions for blocks without one, or that say nothing new. -/
theorem Seeks.defining (steady : b.EdgesInside) {blocks : List BlockId} {d : Definition}
    (inside : ∀ c ∈ blocks, c < b.blocks.size)
    (agrees : ∀ c ∈ blocks, ∀ d', b.definition c slot = some d' →
      b.representative d' = b.representative d.value) : b.Seeks (b.defining blocks slot d) where
  toAliased := steady.toAliased.congr (values_defining ..) (substitution_defining ..)
  pred_lt {c k} present pred member := by
    rw [count_defining]
    obtain ⟨l, before⟩ := block_of_lt (count_defining blocks slot d (b := b) ▸ lt_of_block present)
    obtain ⟨k', found, alike, _⟩ := block_defining blocks slot d before
    rw [present] at found
    cases found
    exact steady.pred_lt before pred (alike.predecessors ▸ member)
  locals := locals_defining ..
  count := Nat.le_of_eq (count_defining ..).symm
  representative id := by
    rw [representative_defining]
    exact steady.representative_idem id
  definition {c s d'} known := by
    rw [definition_defining blocks slot d inside, representative_defining]
    split
    · rename_i here
      exact ⟨_, rfl, (agrees c here.1 d' (here.2 ▸ known)).symm⟩
    · exact ⟨d', known, rfl⟩
  outline := by
    funext c
    cases present : b.blocks[c]? with
    | none =>
        have missing : (b.defining blocks slot d).blocks[c]? = none := by
          rw [Array.getElem?_eq_none_iff, count_defining]
          exact Array.getElem?_eq_none_iff.mp present
        rw [Builder.outline, Builder.outline, missing, present]
    | some k =>
        obtain ⟨l, found, alike, _⟩ := block_defining blocks slot d present
        rw [outline_of_block found, outline_of_block present, alike.outline]

/-- A join that collects operands is not passed by any walk. What it stands for is also the definition
of all blocks on the trail to it that have one. -/
structure Collects (b : Builder) (slot : Nat) (m : Merge) (start : BlockId) : Prop where
  stuck : ∀ next, ¬ b.Follows m.block next
  defined : b.StandsFor m.block slot m.phi
  trail : b.Trail start m.chain m.block
  calm : ∀ c ∈ m.chain, ∀ d, b.definition c slot = some d →
    b.representative d = b.representative m.phi
  waits : ∀ c ∈ m.waiting, c < b.blocks.size

def Leans (b : Builder) (slot : Nat) (t : Builder) : Prop :=
  ∀ m start, b.Collects slot m start → t.Collects slot m start

theorem Leans.trans (first : b.Leans slot t) (second : t.Leans slot u) : b.Leans slot u :=
  fun m start collects => second m start (first m start collects)

theorem Collects.closed (collects : b.Collects slot m start) (c next : BlockId)
    (inside : c = m.block ∨ c ∈ m.chain) (follows : b.Follows c next) :
    next = m.block ∨ next ∈ m.chain := by
  rcases inside with rfl | member
  · exact absurd follows (collects.stuck next)
  · exact collects.trail.next_mem member follows

theorem Collects.agrees (collects : b.Collects slot m start) {d : ValueId}
    (inside : c = m.block ∨ c ∈ m.chain) (known : b.definition c slot = some d) :
    b.representative d = b.representative m.phi := by
  rcases inside with rfl | member
  · obtain ⟨d', defined, same⟩ := collects.defined
    rw [known] at defined
    cases defined
    exact same
  · exact collects.calm c member d known

theorem Collects.seeks (collects : b.Collects slot m start) (seeks : b.Seeks t)
    (calm : ∀ c ∈ m.chain, ∀ d, b.definition c slot = none → t.definition c slot = some d →
      t.representative d = t.representative m.phi) : t.Collects slot m start where
  stuck next follows := collects.stuck next (seeks.follows.mp follows)
  defined := seeks.standsFor collects.defined
  trail := seeks.trail collects.trail
  calm c member d known := by
    cases before : b.definition c slot with
    | none => exact calm c member d before known
    | some d₀ =>
        obtain ⟨d', known', same'⟩ := seeks.definition before
        rw [known] at known'
        cases known'
        exact same'.trans (seeks.same (collects.calm c member d₀ before))
  waits c member := by
    rw [seeks.size]
    exact collects.waits c member

theorem Seeks.leans (seeks : b.Seeks t) (same : t.definition = b.definition) : b.Leans slot t :=
  fun _ _ collects => collects.seeks seeks fun c _ d before after => by
    rw [same, before] at after
    cases after

theorem Shifts.leans (shifts : b.Shifts t) (steady : b.EdgesInside) : b.Leans slot t :=
  (shifts.seeks steady).leans shifts.definition

/-- A value is handed back along a trail, from a block that has it or round a cycle. -/
theorem EdgesInside.handBack (steady : b.EdgesInside) (trail : b.Trail start chain goal)
    (agrees : ∀ c ∈ chain, ∀ d, b.definition c slot = some d →
      b.representative d = b.representative v)
    (ending : b.StandsFor goal slot v ∨ goal ∈ chain) :
    b.Seeks (b.defining chain slot (.final v)) ∧
      (b.defining chain slot (.final v)).StandsFor start slot v ∧
      b.Leans slot (b.defining chain slot (.final v)) := by
  have inside : ∀ c ∈ chain, c < b.blocks.size := fun c => trail.lt
  have seeks : b.Seeks (b.defining chain slot (.final v)) := .defining steady inside agrees
  have shown := definition_defining chain slot (.final v) inside
  have reps := representative_defining (b := b) chain slot (.final v)
  refine ⟨seeks, ?_, fun m s collects => collects.seeks seeks fun c member d before after => ?_⟩
  · by_cases passed : chain = []
    · subst passed
      cases trail
      exact seeks.standsFor (ending.resolve_right List.not_mem_nil)
    · exact ⟨v, by rw [shown, if_pos ⟨trail.start_mem passed, rfl⟩]; rfl, rfl⟩
  · rw [shown] at after
    split at after
    · rename_i here
      cases after
      rw [reps]
      have meets := trail.closed collects.closed here.1 (.inr member)
      rcases ending with ⟨d, defined, same⟩ | round
      · exact same.symm.trans (collects.agrees meets defined)
      · -- the trail stays on its cycle, and so does the one to the join
        have closed : ∀ c next, c ∈ chain → b.Follows c next → next ∈ chain :=
          fun c next passed follows => (trail.next_mem passed follows).elim (fun same => same ▸ round) id
        have stuck : m.block ∈ chain := collects.trail.closed closed member here.1
        obtain ⟨next, follows, _⟩ := trail.follows stuck
        exact absurd follows (collects.stuck next)
    · rw [before] at after
      cases after

theorem EdgesInside.pin (steady : b.EdgesInside) (inside : c < b.blocks.size)
    (halt : ∀ next, ¬ b.Follows c next) {d : Definition}
    (agrees : ∀ d', b.definition c slot = some d' → b.representative d' = b.representative d.value) :
    b.Seeks (b.defining [c] slot d) ∧ (b.defining [c] slot d).StandsFor c slot d.value ∧
      b.Leans slot (b.defining [c] slot d) := by
  have single : ∀ e ∈ [c], e < b.blocks.size := by simpa using inside
  have shown := definition_defining [c] slot d single
  have seeks : b.Seeks (b.defining [c] slot d) := .defining steady single fun e member => by
    rwa [List.mem_singleton.mp member]
  refine ⟨seeks, ⟨d.value, by rw [shown, if_pos ⟨List.mem_singleton_self c, rfl⟩], rfl⟩,
    fun m s collects => collects.seeks seeks fun e member d' before after => ?_⟩
  rw [shown] at after
  split at after
  · rename_i here
    obtain ⟨next, follows, _⟩ := collects.trail.follows member
    exact absurd (List.mem_singleton.mp here.1 ▸ follows) (halt next)
  · rw [before] at after
    cases after

theorem EdgesInside.define (steady : b.EdgesInside) (trail : b.Trail start chain c) (inside : c < b.blocks.size)
    (halt : ∀ next, ¬ b.Follows c next) {d : Definition}
    (agrees : ∀ e, e = c ∨ e ∈ chain → ∀ d', b.definition e slot = some d' →
      b.representative d' = b.representative d.value) :
    b.Seeks ((b.defining [c] slot d).defining chain slot (.final d.value)) ∧
      ((b.defining [c] slot d).defining chain slot (.final d.value)).StandsFor start slot d.value ∧
      b.Leans slot ((b.defining [c] slot d).defining chain slot (.final d.value)) := by
  obtain ⟨seeks, settled, leans⟩ := steady.pin inside halt (agrees c (.inl rfl))
  have shown := definition_defining (b := b) [c] slot d (by simpa using inside)
  obtain ⟨seeks', settled', leans'⟩ := seeks.toEdgesInside.handBack (seeks.trail trail)
    (fun e member d' after => by
      rw [shown] at after
      rw [representative_defining]
      split at after
      · cases after
        rfl
      · exact agrees e (.inr member) d' after) (.inl settled)
  exact ⟨seeks.trans seeks', settled', leans.trans leans'⟩

/-- A lookup that fails has not run out of steps, and nothing is forgotten. -/
def Stumbles (b : Builder) (e : Fault) (t : Builder) : Prop :=
  e ≠ .broken .stepsExhausted ∧ b.Seeks t

theorem Stumbles.behind {e : Fault} (seeks : b.Seeks t) (stumbles : t.Stumbles e u) :
    b.Stumbles e u := ⟨stumbles.1, seeks.trans stumbles.2⟩

theorem addValue_seeks (steady : b.EdgesInside) {home : Option BlockId} {content : Content}
    (idle : ∀ p, content = .phi p → p.operands = #[] ∧ p.replacement = none) :
    Ends (addValue type home content) b
      (fun id t => b.Shifts t ∧ id = b.values.size ∧ t = b.withValue ⟨type, home, content⟩)
      b.Stumbles := by
  refine (addValue_alone b).mono ?_ ?_
  · rintro _ _ ⟨rfl, rfl⟩
    refine ⟨.withValue steady.toAliased fun p isPhi => idle p ?_, rfl, rfl⟩
    cases content with
    | phi q =>
        cases isPhi
        rfl
    | _ => cases isPhi
  · rintro _ _ ⟨⟨rfl, _⟩, rfl⟩
    exact ⟨by simp, .refl steady⟩

theorem feed_seeks (steady : b.EdgesInside) (phi operand : ValueId) :
    Ends (feed phi operand) b (fun _ t => b.Shifts t) b.Stumbles := by
  by_cases inside : b.representative operand < b.values.size
  · refine (feed_ends phi inside).mono ?_ fun _ _ => False.elim
    rintro _ _ rfl
    exact .fed steady.toAliased phi inside
  · simp only [feed, ends_bind, ends_get, ends_maintain]
    exact ⟨fun bound => absurd bound inside, fun _ => ⟨by simp, .refl steady⟩⟩

def Found.Answered (b : Builder) (slot : Nat) (start : BlockId) (t : Builder) : Found → Prop
  | .value v => t.StandsFor start slot v
  | .merge m => t.Collects slot m start ∧ b.definition m.block slot = none

theorem Seeks.found (seeks : b.Seeks t) (same : t.definition = b.definition)
    (trail : b.Trail start chain c) (inside : c < b.blocks.size)
    (halt : ∀ next, ¬ b.Follows c next) (new : b.definition c slot = none)
    (undefined : ∀ e ∈ chain, b.definition e slot = none) (d : Definition) :
    b.Seeks ((t.defining [c] slot d).defining chain slot (.final d.value)) ∧
      b.Leans slot ((t.defining [c] slot d).defining chain slot (.final d.value)) ∧
      (Found.value d.value).Answered b slot start
        ((t.defining [c] slot d).defining chain slot (.final d.value)) := by
  have agrees : ∀ e, e = c ∨ e ∈ chain → ∀ d', t.definition e slot = some d' →
      t.representative d' = t.representative d.value := by
    intro e place d' known
    rw [same] at known
    rcases place with rfl | member
    · rw [new] at known
      cases known
    · rw [undefined e member] at known
      cases known
  obtain ⟨seeks', settled, leans⟩ := seeks.toEdgesInside.define (seeks.trail trail) (seeks.size ▸ inside)
    (fun next follows => halt next (seeks.follows.mp follows)) agrees
  exact ⟨seeks.trans seeks', (seeks.leans same).trans leans, settled⟩

/-- A search ends at a join: its phi is the definition of the block, and nothing is known before it. -/
theorem Seeks.opened (seeks : b.Seeks t) (same : t.definition = b.definition)
    (trail : b.Trail start chain c) {k : Block} (present : b.blocks[c]? = some k)
    (halt : ∀ next, ¬ b.Follows c next)
    (known : ∀ pred ∈ k.predecessors, pred.block < b.blocks.size)
    (new : b.definition c slot = none) (undefined : ∀ e ∈ chain, b.definition e slot = none)
    (phi : ValueId) :
    b.Seeks (t.defining [c] slot (.final phi)) ∧ b.Leans slot (t.defining [c] slot (.final phi)) ∧
      (Found.merge ⟨c, phi, k.predecessors.toList.map Predecessor.block, chain⟩).Answered b slot start
        (t.defining [c] slot (.final phi)) := by
  have inside : c < t.blocks.size := seeks.size ▸ lt_of_block present
  have agrees : ∀ d, t.definition c slot = some d →
      t.representative d = t.representative (Definition.final phi).value := by
    intro d known
    rw [same, new] at known
    cases known
  obtain ⟨pinned, settled, leans⟩ := seeks.toEdgesInside.pin inside
    (fun next follows => halt next (seeks.follows.mp follows)) agrees
  have all := seeks.trans pinned
  refine ⟨all, (seeks.leans same).trans leans,
    ⟨fun next follows => halt next (all.follows.mp follows), settled, all.trail trail, ?_, ?_⟩, new⟩
  · intro e member d after
    obtain ⟨next, follows, _⟩ := trail.follows member
    rw [definition_defining [c] slot _ (by simpa using inside), if_neg, same, undefined e member] at after
    · cases after
    · exact fun here => halt next (List.mem_singleton.mp here.1 ▸ follows)
  · intro e member
    obtain ⟨pred, listed, rfl⟩ := List.mem_map.mp member
    rw [all.size]
    exact known pred (Array.mem_toList_iff.mp listed)

theorem find_seeks (steady : b.EdgesInside) (inside : start < b.blocks.size) :
    Ends (find slot type start) b
      (fun found t => b.Seeks t ∧ b.Leans slot t ∧ found.Answered b slot start t) b.Stumbles := by
  obtain ⟨halts, undefined⟩ : b.Halts slot start (b.walk slot b.blocks.size start []) ∧
      ∀ e ∈ (b.walk slot b.blocks.size start []).chain, b.definition e slot = none :=
    walk_spec steady.pred_lt inside .nil (by simp) (by simp)
  rw [find, ends_bind, ends_get]
  generalize b.walk slot b.blocks.size start [] = w at halts undefined ⊢
  obtain ⟨halt, chain⟩ := w
  dsimp only at undefined ⊢
  have none_agrees {v : ValueId} : ∀ e ∈ chain, ∀ d, b.definition e slot = some d →
      b.representative d = b.representative v := agrees_of_undefined undefined
  cases halt with
  | defined v =>
      obtain ⟨goal, d, trail, defined, rfl⟩ := halts
      rw [ends_bind, ends_defineAll, ends_pure]
      obtain ⟨seeks, settled, leans⟩ := steady.handBack trail none_agrees
        (.inl ⟨d, defined, (steady.representative_idem d).symm⟩)
      exact ⟨seeks, leans, settled⟩
  | unsealed c =>
      obtain ⟨trail, new, k, present, isOpen⟩ := halts
      rw [ends_bind, addPhi]
      refine (addValue_seeks steady (by rintro _ ⟨⟩; exact ⟨rfl, rfl⟩)).imp ?_
      rintro phi t ⟨shifts, _, _⟩
      rw [ends_bind, ends_modifyBlock, ends_bind, ends_define, ends_bind, ends_defineAll, ends_pure]
      have waits : t.Seeks (t.onBlock c fun k => { k with pending := k.pending.push (slot, phi) }) :=
        .onBlock (shifts.seeks steady).toEdgesInside c (fun _ => ⟨rfl, rfl⟩) fun _ => rfl
      refine ((shifts.seeks steady).trans waits).found (Eq.trans ?_ shifts.definition) trail
        (lt_of_block present) (not_follows_of present (.inl isOpen)) new undefined (.placeholder phi)
      exact definition_onBlock c fun _ => rfl
  | entry c =>
      obtain ⟨trail, new, k, present, isEntry⟩ := halts
      rw [ends_bind, initialValue, ends_bind, ends_get]
      refine (addValue_seeks steady (by intro p; split <;> simp)).imp ?_
      rintro id t ⟨shifts, _, _⟩
      rw [ends_bind, ends_define, ends_bind, ends_defineAll, ends_pure]
      exact (shifts.seeks steady).found shifts.definition trail (lt_of_block present)
        (not_follows_of present (.inr (.inl isEntry))) new undefined (.final id)
  | orphan c =>
      obtain ⟨trail, new, k, present, isSealed, kind, none_⟩ := halts
      rw [ends_bind]
      refine (addValue_seeks steady (by simp)).imp ?_
      rintro id t ⟨shifts, _, _⟩
      rw [ends_bind, ends_define, ends_bind, ends_defineAll, ends_pure]
      exact (shifts.seeks steady).found shifts.definition trail (lt_of_block present)
        (not_follows_of present (.inr (.inr (by simp [none_])))) new undefined (.final id)
  | cycle =>
      obtain ⟨goal, trail, round⟩ := halts
      rw [ends_bind]
      refine (addValue_seeks steady (by simp)).imp ?_
      rintro id t ⟨shifts, _, _⟩
      rw [ends_bind, ends_defineAll, ends_pure]
      have seeks := shifts.seeks steady
      obtain ⟨seeks', settled, leans⟩ := seeks.toEdgesInside.handBack (seeks.trail trail)
        (agrees_of_undefined (b := t) (by rwa [shifts.definition])) (.inr round)
      exact ⟨seeks.trans seeks', (shifts.leans steady).trans leans, settled⟩
  | join c preds =>
      obtain ⟨trail, new, k, present, isSealed, kind, rfl, several⟩ := halts
      rw [ends_bind, addPhi]
      refine (addValue_seeks steady (by rintro _ ⟨⟩; exact ⟨rfl, rfl⟩)).imp ?_
      rintro phi t ⟨shifts, _, _⟩
      rw [ends_bind, ends_define, ends_pure]
      exact (shifts.seeks steady).opened shifts.definition trail present
        (not_follows_of present (.inr (.inr (by simpa using several)))) (steady.pred_lt present) new
        undefined phi

theorem Seeks.gaps_le (seeks : b.Seeks t) : t.gaps slot ≤ b.gaps slot :=
  Builder.gaps_le seeks.size fun c d known => by
    obtain ⟨d', known', _⟩ := seeks.definition known
    rw [known']
    rfl

theorem Seeks.gaps_lt (seeks : b.Seeks t) (new : b.definition c slot = none)
    (settled : t.StandsFor c slot v) : t.gaps slot < b.gaps slot := by
  obtain ⟨d, known, _⟩ := settled
  exact Builder.gaps_lt seeks.size (fun e d before => by
    obtain ⟨d', after, _⟩ := seeks.definition before
    rw [after]
    rfl) new known

theorem gather_seeks (waiting : List BlockId) (steady : b.EdgesInside) (phi : ValueId)
    (waits : ∀ c ∈ waiting, c < b.blocks.size) :
    Ends (gather slot type phi waiting) b (fun result t => b.Seeks t ∧ b.Leans slot t ∧
      ∀ inner rest, result = some (inner, rest) → (∃ s, t.Collects slot inner s) ∧
        (∀ c ∈ rest, c < t.blocks.size) ∧ t.gaps slot < b.gaps slot) b.Stumbles := by
  induction waiting generalizing b with
  | nil => exact ⟨.refl steady, fun _ _ collects => collects, by simp⟩
  | cons next waiting ih =>
      have later : ∀ c ∈ waiting, c < b.blocks.size :=
        fun c member => waits c (List.mem_cons_of_mem _ member)
      rw [gather, ends_bind]
      refine (find_seeks steady (waits next List.mem_cons_self)).imp ?_
      rintro (value | inner) t ⟨seeks, leans, holds⟩
      · dsimp only
        rw [ends_bind]
        refine (feed_seeks seeks.toEdgesInside phi value).mono (fun _ u shifts => ?_)
          fun _ _ stumbles => stumbles.behind seeks
        have seeks' := seeks.trans (shifts.seeks seeks.toEdgesInside)
        have leans' := leans.trans (shifts.leans seeks.toEdgesInside)
        refine (ih seeks'.toEdgesInside fun c member => ?_).mono ?_ fun _ _ stumbles => stumbles.behind seeks'
        · rw [seeks'.size]
          exact later c member
        · rintro result w ⟨more, leans'', holds'⟩
          refine ⟨seeks'.trans more, leans'.trans leans'', fun inner rest found => ?_⟩
          obtain ⟨collects, inside, fewer⟩ := holds' inner rest found
          exact ⟨collects, inside, Nat.lt_of_lt_of_le fewer seeks'.gaps_le⟩
      · obtain ⟨collects, new⟩ := holds
        refine ⟨seeks, leans, ?_⟩
        rintro _ _ ⟨⟩
        exact ⟨⟨next, collects⟩, fun c member => seeks.size ▸ later c member,
          seeks.gaps_lt new collects.defined⟩

/-- What stands for a completed phi is handed back along the trail that led to its block. -/
theorem complete_seeks (steady : b.EdgesInside) (collects : b.Collects slot m start) :
    Ends (complete slot m) b
      (fun v t => b.Seeks t ∧ b.Leans slot t ∧ t.StandsFor start slot v) b.Stumbles := by
  have finished : b.Shifts (b.onPhi m.phi Phi.finish) := .finish steady.toAliased m.phi
  have first := finished.seeks steady
  rw [complete, ends_bind, ends_modifyPhi, ends_bind]
  refine (removeTrivial_shifts finished.aliased m.phi).mono ?_ ?_
  · rintro same t ⟨shifts, rfl⟩
    have seeks := first.trans (shifts.seeks first.toEdgesInside)
    have leans : b.Leans slot t := (finished.leans steady).trans (shifts.leans first.toEdgesInside)
    have collects' := leans m start collects
    have inside : m.block < t.blocks.size := by
      obtain ⟨d, known, _⟩ := collects'.defined
      obtain ⟨k, _, present, _⟩ := definition_eq_some.mp known
      exact lt_of_block present
    have agrees : ∀ c, c = m.block ∨ c ∈ m.chain → ∀ d, t.definition c slot = some d →
        t.representative d =
          t.representative (Definition.final (t.representative m.phi)).value := by
      intro c place d known
      rw [Definition.value, seeks.representative_idem]
      exact collects'.agrees place known
    obtain ⟨seeks', settled, leans'⟩ :=
      seeks.toEdgesInside.define collects'.trail inside collects'.stuck agrees
    rw [ends_bind, ends_defineAll, ends_pure]
    exact ⟨seeks.trans seeks', leans.trans leans', settled⟩
  · rintro e t ⟨rfl, shifts⟩
    exact ⟨by simp, first.trans (shifts.seeks first.toEdgesInside)⟩

/-- The merge at work and those that wait for it; the outermost one began at the given block. -/
def MergesNested (b : Builder) (slot : Nat) (start : BlockId) : Merge → List Merge → Prop
  | m, [] => b.Collects slot m start
  | m, next :: outer => (∃ s, b.Collects slot m s) ∧ b.MergesNested slot start next outer

theorem MergesNested.leans {outer : List Merge} (nested : b.MergesNested slot start m outer)
    (leans : b.Leans slot t) : t.MergesNested slot start m outer := by
  induction outer generalizing m with
  | nil => exact leans m start nested
  | cons next outer ih =>
      obtain ⟨⟨s, collects⟩, below⟩ := nested
      exact ⟨⟨s, leans m s collects⟩, ih below⟩

theorem MergesNested.collects {outer : List Merge} (nested : b.MergesNested slot start m outer) :
    ∃ s, b.Collects slot m s ∧ (outer = [] → s = start) := by
  cases outer with
  | nil => exact ⟨start, nested, fun _ => rfl⟩
  | cons next outer =>
      obtain ⟨⟨s, collects⟩, _⟩ := nested
      exact ⟨s, collects, by simp⟩

theorem MergesNested.waiting {outer : List Merge} (nested : b.MergesNested slot start m outer)
    {waiting : List BlockId} (inside : ∀ c ∈ waiting, c < b.blocks.size) :
    b.MergesNested slot start { m with waiting } outer := by
  cases outer with
  | nil => exact { nested with waits := inside }
  | cons next outer =>
      obtain ⟨⟨s, collects⟩, below⟩ := nested
      exact ⟨⟨s, { collects with waits := inside }⟩, below⟩

theorem settle_seeks {fuel : Nat} {outer : List Merge} (steady : b.EdgesInside)
    (nested : b.MergesNested slot start m outer) (enough : 2 * b.gaps slot + outer.length + 1 ≤ fuel) :
    Ends (settle slot type fuel m outer) b (fun v t => b.Seeks t ∧ t.StandsFor start slot v)
      b.Stumbles := by
  -- The fuel is spent as in `settle_ends`: a further join fills a gap, and a merge that is done is left.
  induction fuel generalizing b m outer with
  | zero => omega
  | succ fuel ih =>
      obtain ⟨s, collects, outermost⟩ := nested.collects
      rw [settle, ends_bind]
      refine (gather_seeks m.waiting steady m.phi collects.waits).imp ?_
      rintro (_ | ⟨inner, rest⟩) t ⟨seeks, leans, found⟩
      · have fewer : t.gaps slot ≤ b.gaps slot := seeks.gaps_le
        dsimp only
        rw [ends_bind]
        refine (complete_seeks seeks.toEdgesInside (leans m s collects)).mono ?_
          fun _ _ stumbles => stumbles.behind seeks
        rintro v u ⟨more, leans', settled⟩
        have seeks' := seeks.trans more
        cases outer with
        | nil => exact ⟨seeks', outermost rfl ▸ settled⟩
        | cons next outer =>
            dsimp only
            rw [ends_bind]
            refine (feed_seeks seeks'.toEdgesInside next.phi v).mono (fun _ w shifts => ?_)
              fun _ _ stumbles => stumbles.behind seeks'
            have fed := shifts.seeks seeks'.toEdgesInside
            have seeks'' := seeks'.trans fed
            refine (ih seeks''.toEdgesInside ?_ ?_).mono
              (fun _ _ => And.imp_left seeks''.trans)
              fun _ _ stumbles => stumbles.behind seeks''
            · exact nested.2.leans ((leans.trans leans').trans (shifts.leans seeks'.toEdgesInside))
            · have fewer' : w.gaps slot ≤ b.gaps slot := seeks''.gaps_le
              rw [List.length_cons] at enough
              omega
      · obtain ⟨inner_, inside, fewer⟩ := found inner rest rfl
        have nested : t.MergesNested slot start inner ({ m with waiting := rest } :: outer) :=
          ⟨inner_, (nested.leans leans).waiting inside⟩
        dsimp only
        refine (ih seeks.toEdgesInside nested ?_).mono
          (fun _ _ => And.imp_left seeks.trans)
          fun _ _ stumbles => stumbles.behind seeks
        rw [List.length_cons]
        omega

theorem lookup_seeks (steady : b.EdgesInside) (inside : start < b.blocks.size) :
    Ends (lookup slot type start) b (fun v t => b.Seeks t ∧ t.StandsFor start slot v)
      b.Stumbles := by
  rw [lookup, ends_bind]
  refine (find_seeks steady inside).imp ?_
  rintro (v | m) t ⟨seeks, _, holds⟩
  · exact ⟨seeks, holds⟩
  · obtain ⟨collects, new⟩ := holds
    have fewer := seeks.gaps_lt new collects.defined
    have most := b.gaps_le_size slot
    have same := seeks.size
    dsimp only
    rw [ends_bind, ends_get]
    have nested : t.MergesNested slot start m [] := collects
    refine (settle_seeks seeks.toEdgesInside nested ?_).mono
      (fun _ _ => And.imp_left seeks.trans)
      fun _ _ stumbles => stumbles.behind seeks
    rw [List.length_nil, same]
    omega

/-- A read leaves a definition that stands for its result, and forgets nothing where it fails. -/
theorem getLocal_seeks (steady : b.EdgesInside) (c : BlockId) (slot : Nat) :
    Ends (getLocal c slot) b
      (fun v t => b.Seeks t ∧ slot < b.locals.size ∧
        ∃ d, t.definition c slot = some d ∧ t.representative d = v) b.Stumbles := by
  have idle {e : Fault} (other : e ≠ .broken .stepsExhausted) : b.Stumbles e b :=
    ⟨other, .refl steady⟩
  rw [getLocal, ends_bind]
  cases present : b.blocks[c]? with
  | none =>
      rw [blockAt, ends_bind, ends_get, present]
      exact idle (by simp)
  | some k =>
      rw [ends_blockAt present, ends_bind, ends_get]
      cases known : b.locals[slot]? with
      | none => exact idle (by simp)
      | some type =>
          have allocated : slot < b.locals.size := (Array.getElem?_eq_some_iff.mp known).1
          dsimp only
          cases defined : k.definitions[slot]? with
          | some d =>
              dsimp only
              rw [ends_bind, ends_get, ends_pure]
              refine ⟨.refl steady, allocated, d.value, ?_, rfl⟩
              rw [definition_of_block present, defined, Option.map_some]
          | none =>
              dsimp only
              rw [ends_bind]
              refine (lookup_seeks steady (lt_of_block present)).imp ?_
              rintro v t ⟨seeks, settled⟩
              rw [ends_bind, ends_get, ends_pure]
              exact ⟨seeks, allocated, settled⟩

end WasmFunclets.Ssa.Builder
