import WasmFunclets.Proofs.Ssa.Define

/-! Lookups of locals. While the operands of a phi are collected, the phi is the definition of its
block, and the blocks that wait for it are not known otherwise. A lookup ends with a definition for
the block it started at. -/

namespace WasmFunclets.Ssa.Builder

open Attempt

variable {strict : Bool} {written : BlockId → Nat → Prop} {filling : ValueId → Prop}
variable {closing : Option BlockId} {b t : Builder}
variable {slot : Nat} {type : ValueType} {start goal c : BlockId} {chain lacks : List BlockId}

theorem Formed.stays (formed : b.Formed strict) {id : ValueId} {home : Option BlockId} {p : Phi}
    (present : b.look id = some ⟨type, home, .phi p⟩) (incomplete : p.complete = false) :
    b.representative id = id := by
  by_contra changed
  obtain ⟨_, _, _, _, found, full, _⟩ := formed.replaced changed
  rw [present] at found
  cases found
  rw [incomplete] at full
  cases full

theorem Reads.incomplete (reads : b.Reads t) {id : ValueId} {home : Option BlockId} {p : Phi}
    (present : b.look id = some ⟨type, home, .phi p⟩) (incomplete : p.complete = false) :
    t.look id = some ⟨type, home, .phi p⟩ := by
  obtain ⟨w, found, rfl | ⟨_, _, _, _, same, full, _⟩⟩ := reads.look present
  · exact found
  · cases same
    rw [incomplete] at full
    cases full

/-- A join whose phi collects operands: of those at the ends of its predecessors, some are lacking.
What it stands for is also the definition of all blocks on a trail to it, if they have one. -/
structure Merging (b : Builder) (slot : Nat) (type : ValueType) (m : Merge) (lacks : List BlockId)
    (start : BlockId) : Prop where
  join : ∃ p k, b.LocalPhi m.phi type m.block slot p ∧ p.complete = false ∧
    b.blocks[m.block]? = some k ∧ k.isSealed = true ∧ k.kind ≠ .entry ∧
    k.predecessors.size ≠ 1 ∧ p.operands.size ≤ k.predecessors.size ∧
    (k.predecessors.toList.map Predecessor.block).drop p.operands.size = lacks
  defined : ∃ d, b.definition m.block slot = some d ∧ b.representative d = m.phi
  trail : b.Trail start m.chain m.block
  calm : ∀ c ∈ m.chain, ∀ d, b.definition c slot = some d → b.representative d = m.phi

section Merging

variable {m : Merge}

theorem Merging.not_follows (merging : b.Merging slot type m lacks start) (next : BlockId) :
    ¬ b.Follows m.block next := by
  rintro ⟨k, present, _, _, single⟩
  obtain ⟨_, _, _, _, found, _, _, several, _⟩ := merging.join
  rw [present] at found
  cases found
  have := congrArg List.length single
  simp only [List.length_map, Array.length_toList, List.length_singleton] at this
  exact several this

theorem Merging.closed (merging : b.Merging slot type m lacks start) (c next : BlockId)
    (inside : c = m.block ∨ c ∈ m.chain) (follows : b.Follows c next) :
    next = m.block ∨ next ∈ m.chain := by
  rcases inside with rfl | member
  · exact absurd follows (merging.not_follows next)
  · exact merging.trail.next_mem member follows

theorem Merging.stays (merging : b.Merging slot type m lacks start) (formed : b.Formed strict) :
    b.representative m.phi = m.phi := by
  obtain ⟨_, _, phi, incomplete, _⟩ := merging.join
  exact formed.stays phi.1 incomplete

theorem Merging.agrees (merging : b.Merging slot type m lacks start) {d : ValueId}
    (inside : c = m.block ∨ c ∈ m.chain) (known : b.definition c slot = some d) :
    b.representative d = m.phi := by
  rcases inside with rfl | member
  · obtain ⟨d', defined, same⟩ := merging.defined
    rw [known] at defined
    cases defined
    exact same
  · exact merging.calm c member d known

theorem Merging.reads (merging : b.Merging slot type m lacks start) (formed : t.Formed strict)
    (reads : b.Reads t)
    (calm : ∀ c ∈ m.chain, ∀ d, b.definition c slot = none → t.definition c slot = some d →
      t.representative d = m.phi) : t.Merging slot type m lacks start := by
  obtain ⟨p, k, phi, incomplete, present, isSealed, kind, several, bound, rest⟩ := merging.join
  have still := reads.incomplete phi.1 incomplete
  have stays := formed.stays still incomplete
  obtain ⟨l, found, alike, _⟩ := reads.block present
  refine ⟨⟨p, l, ⟨still, phi.2⟩, incomplete, found, by rw [alike.isSealed, isSealed],
    by rwa [alike.kind], by rwa [alike.predecessors], by rwa [alike.predecessors],
    by rwa [alike.predecessors]⟩, ?_, merging.trail.reads reads, ?_⟩
  · obtain ⟨d, known, same⟩ := merging.defined
    obtain ⟨d', known', same'⟩ := reads.definition known
    exact ⟨d', known', by rw [same', ← reads.representative, same, stays]⟩
  · intro c member d known
    cases before : b.definition c slot with
    | none => exact calm c member d before known
    | some d₀ =>
        obtain ⟨d', known', same'⟩ := reads.definition before
        rw [known] at known'
        cases known'
        rw [same', ← reads.representative, merging.calm c member d₀ before, stays]

theorem Merging.reads_halt (merging : b.Merging slot type m lacks start) (formed : t.Formed strict)
    (reads : b.Reads t) (halt : ∀ next, ¬ b.Follows c next)
    (others : ∀ e, e ≠ c → t.definition e slot = b.definition e slot) :
    t.Merging slot type m lacks start := by
  refine merging.reads formed reads fun e member d before after => ?_
  obtain ⟨next, follows, _⟩ := merging.trail.follows member
  have other : e ≠ c := fun same => halt next (same ▸ follows)
  rw [others e other, before] at after
  cases after

end Merging

theorem Flow.inner (flow : b.Flow strict written filling closing) {next : BlockId}
    (follows : b.Follows c next) : c ≠ entryId := by
  obtain ⟨k, present, _, kind, _⟩ := follows
  exact fun same => kind ((flow.entry_kind present).mpr same)

theorem Trail.startsWith (trail : b.Trail start chain goal) {v : ValueId}
    (inner : ∀ next, b.Follows c next → c ≠ entryId)
    (all : ∀ e, e = goal ∨ e ∈ chain → ∃ d, b.definition e slot = some d ∧
      b.representative d = b.representative v) (member : c ∈ chain) : b.StartsWith c slot v := by
  obtain ⟨next, follows, place⟩ := trail.follows member
  have inner := inner next follows
  obtain ⟨k, present, isSealed, _, single⟩ := follows
  refine .passed present inner isSealed fun pred listed => ?_
  have here : pred.block ∈ k.predecessors.toList.map Predecessor.block :=
    List.mem_map_of_mem (Array.mem_toList_iff.mpr listed)
  rw [single, List.mem_singleton] at here
  rw [here]
  exact all next place

/-- What an answer to a question for a local at the end of a block leaves. -/
structure LooksUp (strict : Bool) (written : BlockId → Nat → Prop) (filling : ValueId → Prop)
    (closing : Option BlockId) (b : Builder) (slot : Nat) (start : BlockId) (v : ValueId)
    (t : Builder) : Prop where
  formed : t.Formed strict
  flow : t.Flow strict written filling closing
  reads : b.Reads t
  others : ∀ (c : BlockId) (s : Nat), s ≠ slot → t.definition c s = b.definition c s
  known : ∃ d, t.definition start slot = some d ∧ t.representative d = t.representative v
  bound : v < t.values.size

theorem LooksUp.trans {v : ValueId} (first : b.Reads t)
    (others : ∀ (c : BlockId) (s : Nat), s ≠ slot → t.definition c s = b.definition c s) {u : Builder}
    (answers : t.LooksUp strict written filling closing slot start v u) :
    b.LooksUp strict written filling closing slot start v u :=
  { answers with
    reads := first.trans answers.reads
    others := fun c s other => (answers.others c s other).trans (others c s other) }

theorem agrees_of_undefined {v : ValueId} (undefined : ∀ c ∈ chain, b.definition c slot = none) :
    ∀ c ∈ chain, ∀ d, b.definition c slot = some d → b.representative d = b.representative v := by
  intro c member d before
  rw [undefined c member] at before
  cases before

/-- The definitions at the end of a walk are handed back along its trail. -/
theorem Flow.finish (flow : b.Flow strict written filling closing) (formed : b.Formed strict)
    {v : ValueId} (known : b.locals[slot]? = some type) (bound : v < b.values.size)
    (typed : strict = true → ∀ w, b.look (b.representative v) = some w →
      w.type.admits type = true)
    (trail : b.Trail start chain goal)
    (agrees : ∀ c ∈ chain, ∀ d, b.definition c slot = some d →
      b.representative d = b.representative v)
    (ending : (∃ d, b.definition goal slot = some d ∧ b.representative d = b.representative v) ∨
      goal ∈ chain) :
    b.LooksUp strict written filling closing slot start v (b.defining chain slot (.final v)) ∧
      ∀ m lacks s, b.Merging slot type m lacks s →
        (b.defining chain slot (.final v)).Merging slot type m lacks s := by
  have inside : ∀ c ∈ chain, c < b.blocks.size := fun c => trail.lt
  have reads := Reads.defining formed inside agrees
  have formed' : (b.defining chain slot (.final v)).Formed strict :=
    formed.congr (values_defining ..) (substitution_defining ..)
  have shown := definition_defining chain slot (.final v) inside
  have reps := representative_defining (b := b) chain slot (.final v)
  have all : ∀ e, e = goal ∨ e ∈ chain → ∃ d,
      (b.defining chain slot (.final v)).definition e slot = some d ∧
        (b.defining chain slot (.final v)).representative d =
          (b.defining chain slot (.final v)).representative v := by
    intro e place
    rw [shown, reps]
    by_cases member : e ∈ chain
    · exact ⟨v, by rw [if_pos ⟨member, rfl⟩]; rfl, rfl⟩
    · obtain rfl := place.resolve_right member
      rw [if_neg fun both => member both.1]
      exact ending.resolve_right member
  have flow' : (b.defining chain slot (.final v)).Flow strict written filling closing :=
    flow.defining formed inside agrees bound known
      (fun c => (trail.reads reads).startsWith (fun _ after => flow.inner (reads.follows.mp after)) all)
      typed
  refine ⟨⟨formed', flow', reads, fun c s other => ?_, ?_, by rwa [values_defining]⟩,
    fun m lacks s merging => ?_⟩
  · rw [shown, if_neg fun both => other both.2]
  · refine all start ?_
    by_cases passed : chain = []
    · subst passed
      cases trail
      exact .inl rfl
    · exact .inr (trail.start_mem passed)
  · refine merging.reads formed' reads fun c member d before after => ?_
    rw [shown] at after
    split at after
    · rename_i here
      cases after
      rw [reps]
      have meets := trail.closed merging.closed here.1 (.inr member)
      rcases ending with ⟨d, defined, same⟩ | round
      · rw [Definition.value, ← same]
        exact merging.agrees meets defined
      · -- the trail stays on its cycle, and so does the one to the join
        have closed : ∀ c next, c ∈ chain → b.Follows c next → next ∈ chain :=
          fun c next passed follows => (trail.next_mem passed follows).elim (fun same => same ▸ round) id
        have stuck : m.block ∈ chain := merging.trail.closed closed member here.1
        obtain ⟨next, follows, _⟩ := trail.follows stuck
        exact absurd follows (merging.not_follows next)
    · rw [before] at after
      cases after

theorem onBlock_onBlock (c : BlockId) (f g : Block → Block) :
    (b.onBlock c f).onBlock c g = b.onBlock c fun k => g (f k) := by
  have same : (b.blocks.modify c f).modify c g = b.blocks.modify c fun k => g (f k) := by
    refine Array.ext_getElem? fun e => ?_
    simp only [Array.getElem?_modify]
    split
    · rw [Option.map_map]
      rfl
    · rfl
  rw [onBlock, onBlock, onBlock, same]

def KeepsMerges (b : Builder) (slot : Nat) (type : ValueType) (t : Builder) : Prop :=
  ∀ m lacks s, b.Merging slot type m lacks s → t.Merging slot type m lacks s

theorem KeepsMerges.trans {u : Builder} (first : b.KeepsMerges slot type t) (second : t.KeepsMerges slot type u) :
    b.KeepsMerges slot type u := fun m lacks s merging => second m lacks s (first m lacks s merging)

/-- What the search of a definition leaves: an answer, or a new merge whose operands all lack. -/
def Finds (strict : Bool) (written : BlockId → Nat → Prop) (filling : ValueId → Prop)
    (closing : Option BlockId) (b : Builder) (slot : Nat) (type : ValueType) (start : BlockId) :
    Found → Builder → Prop
  | .value v, t => b.LooksUp strict written filling closing slot start v t
  | .merge m, t => t.Formed strict ∧ t.Flow strict written (fun id => filling id ∨ id = m.phi) closing ∧
      b.Reads t ∧ (∀ (c : BlockId) (s : Nat), s ≠ slot → t.definition c s = b.definition c s) ∧
      t.Merging slot type m m.waiting start ∧ m.phi = b.values.size ∧
      b.definition m.block slot = none

/-- A block that is no place to go on from is given a value of its own. -/
theorem Flow.found (flow : b.Flow strict written filling closing) (formed : b.Formed strict)
    {v : ValueId} (known : b.locals[slot]? = some type) (bound : v < b.values.size)
    (typed : strict = true → ∀ w, b.look (b.representative v) = some w →
      w.type.admits type = true)
    (trail : b.Trail start chain c) (undefined : ∀ c ∈ chain, b.definition c slot = none)
    (inside : c < b.blocks.size) (new : b.definition c slot = none)
    (halt : ∀ next, ¬ b.Follows c next)
    (starts : (b.defining [c] slot (.final v)).StartsWith c slot v) :
    b.LooksUp strict written filling closing slot start v (b.defining (c :: chain) slot (.final v)) ∧
      b.KeepsMerges slot type (b.defining (c :: chain) slot (.final v)) := by
  have single : ∀ e ∈ [c], e < b.blocks.size := by simpa using inside
  have agrees : ∀ e ∈ [c], ∀ d, b.definition e slot = some d →
      b.representative d = b.representative v := by
    intro e member d before
    obtain rfl := List.mem_singleton.mp member
    rw [new] at before
    cases before
  have reads := Reads.defining formed single agrees
  have shown := definition_defining [c] slot (.final v) single
  have formed' : (b.defining [c] slot (.final v)).Formed strict :=
    formed.congr (values_defining ..) (substitution_defining ..)
  have flow' := flow.defining formed single agrees bound known (by simpa using starts) typed
  have still : ∀ e ∈ chain, (b.defining [c] slot (.final v)).definition e slot = none := by
    intro e member
    rw [shown, if_neg, undefined e member]
    rintro ⟨same, _⟩
    obtain ⟨next, follows, _⟩ := trail.follows member
    exact halt next (List.mem_singleton.mp same ▸ follows)
  obtain ⟨answers, calm⟩ := flow'.finish (v := v) formed' (by rwa [locals_defining])
    (by rwa [values_defining]) (by rwa [look_defining, representative_defining])
    (trail.reads reads) (agrees_of_undefined still)
    (.inl ⟨v, (shown c slot).trans (if_pos ⟨List.mem_singleton_self c, rfl⟩), rfl⟩)
  have elsewhere (e : BlockId) (s : Nat) (other : s ≠ slot) :
      (b.defining [c] slot (.final v)).definition e s = b.definition e s :=
    (shown e s).trans (if_neg fun both => other both.2)
  refine ⟨.trans reads elsewhere answers, fun m lacks s merging => calm m lacks s ?_⟩
  refine merging.reads_halt (c := c) formed' reads halt fun e other => ?_
  rw [shown, if_neg fun both => other (List.mem_singleton.mp both.1)]

theorem initialValue_ends (b : Builder) (slot : Nat) (type : ValueType) :
    Ends (initialValue slot type) b (fun id t => id = b.values.size ∧
      t = b.withValue ⟨type, some entryId, if slot < b.paramCount then .param slot else .zero⟩)
      Exhausted := by
  rw [initialValue, ends_bind, ends_get]
  exact addValue_ends b

theorem not_follows_of {k : Block} (present : b.blocks[c]? = some k)
    (stuck : k.isSealed = false ∨ k.kind = .entry ∨ k.predecessors.size ≠ 1) (next : BlockId) :
    ¬ b.Follows c next := by
  rintro ⟨l, found, isSealed, kind, single⟩
  rw [present] at found
  cases found
  have := congrArg List.length single
  simp only [List.length_map, Array.length_toList, List.length_singleton] at this
  simp_all

/-- A value of the local's own type, new and without operands, is what a walk ends with. -/
theorem Flow.foundNew (flow : b.Flow strict written filling closing) (formed : b.Formed strict)
    {w : Value} (make : w.IsRead) (noPhi : ∀ p, w.content ≠ .phi p) (type_ : w.type = type)
    (known : b.locals[slot]? = some type) : (b.withValue w).Formed strict ∧
      (b.withValue w).Flow strict written filling closing ∧ b.Reads (b.withValue w) ∧
      b.KeepsMerges slot type (b.withValue w) ∧ (b.withValue w).locals[slot]? = some type ∧
      (strict = true → ∀ u, (b.withValue w).look ((b.withValue w).representative b.values.size) =
        some u → u.type.admits type = true) := by
  have formed' : (b.withValue w).Formed strict := by
    refine formed.withValue (w.plain_of_ne noPhi) ?_ (fun _ o member => ?_) fun type' home' p same => ?_
    · cases make <;> simp at noPhi ⊢
    · cases make <;> simp [Value.operands] at noPhi member
    · exact absurd (congrArg Value.content same) (noPhi p)
  have reads := Reads.withValue formed make noPhi
  refine ⟨formed', flow.withValue formed (fun p _ same => absurd same (noPhi p)) formed', reads,
    fun m lacks s merging => ?_,
    known, fun _ u shown => ?_⟩
  · refine merging.reads formed' reads fun e _ d before after => ?_
    rw [definition_withValue, before] at after
    cases after
  · rw [representative_withValue formed.coherent, formed.representative_of_le (Nat.le_refl _),
      look_withValue, if_pos rfl, w.plain_of_ne noPhi] at shown
    cases shown
    rw [type_]
    exact ValueType.admits_refl _

/-- A block that may get further predecessors gets a phi that waits for them. -/
theorem Flow.foundWaiting (flow : b.Flow strict written filling closing) (formed : b.Formed strict)
    (known : b.locals[slot]? = some type) (trail : b.Trail start chain c)
    (undefined : ∀ c ∈ chain, b.definition c slot = none) (new : b.definition c slot = none)
    {k : Block} (present : b.blocks[c]? = some k) (isOpen : k.isSealed = false) :
    (b.LooksUp strict written filling closing slot start b.values.size
      ((b.opened type c slot true).defining chain slot (.final b.values.size))) ∧
      b.KeepsMerges slot type ((b.opened type c slot true).defining chain slot (.final b.values.size)) := by
  have inner : c ≠ entryId := by
    rintro rfl
    obtain ⟨k', present', isSealed, _⟩ := flow.entry
    rw [present] at present'
    cases present'
    rw [isOpen] at isSealed
    cases isSealed
  have reads : b.Reads (b.opened type c slot true) := .opened formed (lt_of_block present) new
  have shown := @definition_opened b type c slot true (lt_of_block present)
  have halt := not_follows_of present (.inl isOpen)
  have calm : b.KeepsMerges slot type (b.opened type c slot true) := fun m lacks s merging =>
    merging.reads_halt formed.opened reads halt fun e other => by
      rw [shown, if_neg fun both => other both.1]
  have flow' : (b.opened type c slot true).Flow strict written filling closing :=
    flow.opened formed present inner new known (fun _ => id) isOpen
  have still : ∀ e ∈ chain, (b.opened type c slot true).definition e slot = none := by
    intro e member
    rw [shown, if_neg, undefined e member]
    rintro ⟨rfl, _⟩
    obtain ⟨next, follows, _⟩ := trail.follows member
    exact halt next follows
  have typed : strict = true → ∀ w, (b.opened type c slot true).look
      ((b.opened type c slot true).representative b.values.size) = some w →
        w.type.admits type = true := by
    intro _ w found
    rw [representative_opened formed, formed.representative_of_le (Nat.le_refl _), look_opened,
      if_pos rfl] at found
    cases found
    exact ValueType.admits_refl _
  have bound : b.values.size < (b.opened type c slot true).values.size := by
    simp [Builder.opened]
  obtain ⟨answers, calm'⟩ := flow'.finish formed.opened known bound typed
    (trail.reads reads) (agrees_of_undefined still) (.inl ⟨_, (shown c slot).trans (if_pos ⟨rfl, rfl⟩), rfl⟩)
  exact ⟨.trans reads (fun e s other => (shown e s).trans (if_neg fun both => other both.2)) answers,
    calm.trans calm'⟩

theorem Flow.foundJoin (flow : b.Flow strict written filling closing) (formed : b.Formed strict)
    (known : b.locals[slot]? = some type) (trail : b.Trail start chain c)
    (undefined : ∀ c ∈ chain, b.definition c slot = none) (new : b.definition c slot = none)
    {k : Block} (present : b.blocks[c]? = some k) (isSealed : k.isSealed = true)
    (kind : k.kind ≠ .entry) (several : k.predecessors.size ≠ 1) :
    b.Finds strict written filling closing slot type start (.merge ⟨c, b.values.size,
      k.predecessors.toList.map Predecessor.block, chain⟩) (b.opened type c slot false) ∧
      b.KeepsMerges slot type (b.opened type c slot false) := by
  have reads : b.Reads (b.opened type c slot false) := .opened formed (lt_of_block present) new
  have shown := @definition_opened b type c slot false (lt_of_block present)
  have halt := not_follows_of present (.inr (.inr several))
  have flow' : (b.opened type c slot false).Flow strict written
      (fun id => filling id ∨ id = b.values.size) closing :=
    flow.opened formed present (fun same => kind ((flow.entry_kind present).mpr same)) new known
      (fun _ => .inl) (.inr rfl)
  obtain ⟨l, found, alike, _⟩ := reads.block present
  refine ⟨⟨formed.opened, flow', reads,
    fun e s other => (shown e s).trans (if_neg fun both => other both.2), ?_, rfl, new⟩,
    fun m lacks s merging =>
    merging.reads_halt formed.opened reads halt fun e other => by
      rw [shown, if_neg fun both => other both.1]⟩
  refine ⟨⟨freshPhi (.local slot), l, ⟨by rw [look_opened, if_pos rfl], rfl⟩, rfl, found,
    by rw [alike.isSealed, isSealed], by rwa [alike.kind], by rwa [alike.predecessors],
    by simp [freshPhi], by rw [alike.predecessors]; rfl⟩, ⟨b.values.size, by
      rw [shown, if_pos ⟨rfl, rfl⟩], ?_⟩, trail.reads reads, fun e member d after => ?_⟩
  · rw [representative_opened formed, formed.representative_of_le (Nat.le_refl _)]
  · rw [shown, if_neg, undefined e member] at after
    · cases after
    · rintro ⟨rfl, _⟩
      obtain ⟨next, follows, _⟩ := trail.follows member
      exact halt next follows

theorem find_ends (flow : b.Flow strict written filling closing) (formed : b.Formed strict)
    (known : b.locals[slot]? = some type) (inside : start < b.blocks.size) :
    Ends (find slot type start) b (fun found t =>
      b.Finds strict written filling closing slot type start found t ∧ b.KeepsMerges slot type t)
      Exhausted := by
  obtain ⟨halts, undefined⟩ : b.Halts slot start (b.walk slot b.blocks.size start []) ∧
      ∀ e ∈ (b.walk slot b.blocks.size start []).chain, b.definition e slot = none :=
    walk_spec flow.pred_lt inside .nil (by simp) (by simp)
  rw [find, ends_bind, ends_get]
  generalize b.walk slot b.blocks.size start [] = w at halts undefined ⊢
  obtain ⟨halt, chain⟩ := w
  dsimp only at undefined ⊢
  -- The walk halts for one of six reasons, each of which gives a value for the whole trail or a new merge.
  cases halt with
  | defined v =>
      obtain ⟨goal, d, trail, defined, rfl⟩ := halts
      rw [ends_bind, ends_defineAll, ends_pure]
      refine flow.finish formed known (formed.representative_lt (flow.definition_lt defined).1)
        (fun checked w shown => ?_) trail (agrees_of_undefined undefined)
        (.inl ⟨d, defined, (formed.representative_idem d).symm⟩)
      rw [formed.representative_idem] at shown
      exact flow.typed checked defined type w known shown
  | unsealed c =>
      obtain ⟨trail, new, k, present, isOpen⟩ := halts
      rw [ends_bind, addPhi]
      refine (addValue_ends b).imp ?_
      rintro _ _ ⟨rfl, rfl⟩
      rw [ends_bind, ends_modifyBlock, ends_bind, ends_define, onBlock_onBlock, ends_bind,
        ends_defineAll, ends_pure]
      exact flow.foundWaiting formed known trail undefined new present isOpen
  | entry c =>
      obtain ⟨trail, new, k, present, isEntry⟩ := halts
      obtain rfl := (flow.entry_kind present).mp isEntry
      rw [ends_bind]
      refine (initialValue_ends b slot type).imp ?_
      rintro _ _ ⟨rfl, rfl⟩
      obtain ⟨formed', flow', reads, calm, known', typed⟩ := flow.foundNew formed
        (w := ⟨type, some entryId, if slot < b.paramCount then .param slot else .zero⟩)
        (by split <;> constructor) (by dsimp only; split <;> simp) rfl known
      rw [ends_bind, ends_define, ends_bind, ends_defineAll, ends_pure]
      obtain ⟨answers, calm'⟩ := flow'.found formed' known' (v := b.values.size) (by simp) typed
        (trail.reads reads) undefined (lt_of_block present) new
        (not_follows_of present (.inr (.inl isEntry))) (.initial rfl ⟨type, by simpa using known, by
          rw [representative_defining, representative_withValue formed.coherent,
            formed.representative_of_le (Nat.le_refl _), look_defining, look_withValue, if_pos rfl]
          simp only [paramCount_defining, paramCount_withValue]
          split <;> rfl⟩)
      exact ⟨.trans reads (fun _ _ _ => rfl) answers, calm.trans calm'⟩
  | orphan c =>
      obtain ⟨trail, new, k, present, isSealed, kind, none_⟩ := halts
      rw [ends_bind]
      refine (undef_ends b type).imp ?_
      rintro _ _ ⟨rfl, rfl⟩
      obtain ⟨formed', flow', reads, calm, known', typed⟩ := flow.foundNew formed
        (w := ⟨type, none, .undef⟩) (.undef type) (by simp) rfl known
      rw [ends_bind, ends_define, ends_bind, ends_defineAll, ends_pure]
      obtain ⟨l, found, alike, _⟩ := block_defining [c] slot (.final b.values.size)
        (b := b.withValue ⟨type, none, .undef⟩) present
      obtain ⟨answers, calm'⟩ := flow'.found formed' known' (v := b.values.size) (by simp) typed
        (trail.reads reads) undefined (lt_of_block present) new
        (not_follows_of present (.inr (.inr (by simp [none_]))))
        (.passed found (fun same => kind ((flow.entry_kind present).mpr same))
          (by rw [alike.isSealed, isSealed]) (by simp [alike.predecessors, none_]))
      exact ⟨.trans reads (fun _ _ _ => rfl) answers, calm.trans calm'⟩
  | cycle =>
      obtain ⟨goal, trail, round⟩ := halts
      rw [ends_bind]
      refine (undef_ends b type).imp ?_
      rintro _ _ ⟨rfl, rfl⟩
      obtain ⟨formed', flow', reads, calm, known', typed⟩ := flow.foundNew formed
        (w := ⟨type, none, .undef⟩) (.undef type) (by simp) rfl known
      rw [ends_bind, ends_defineAll, ends_pure]
      obtain ⟨answers, calm'⟩ := flow'.finish formed' known' (v := b.values.size) (by simp) typed
        (trail.reads reads) (agrees_of_undefined undefined) (.inr round)
      exact ⟨.trans reads (fun _ _ _ => rfl) answers, calm.trans calm'⟩
  | join c preds =>
      obtain ⟨trail, new, k, present, isSealed, kind, rfl, several⟩ := halts
      rw [ends_bind, addPhi]
      refine (addValue_ends b).imp ?_
      rintro _ _ ⟨rfl, rfl⟩
      rw [ends_bind, ends_define, ends_pure]
      exact flow.foundJoin formed known trail undefined new present isSealed kind (by simpa using several)

end WasmFunclets.Ssa.Builder
