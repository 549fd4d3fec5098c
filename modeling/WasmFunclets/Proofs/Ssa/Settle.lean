import WasmFunclets.Proofs.Ssa.Lookup

/-! Merges are worked off, each after those that its operands need. A read of a local ends with what
the definition of its block stands for. -/

namespace WasmFunclets.Ssa.Builder

open Attempt

variable {strict : Bool} {written : BlockId → Nat → Prop} {filling later_ : ValueId → Prop}
variable {closing : Option BlockId} {a b t : Builder}
variable {slot : Nat} {type : ValueType} {start : BlockId} {lacks : List BlockId}

theorem Flow.mono (flow : b.Flow strict written filling closing)
    (grows : ∀ id, filling id → later_ id) : b.Flow strict written later_ closing :=
  { flow with waits := fun phi present incomplete =>
      (flow.waits phi present incomplete).imp_left (grows _) }

theorem Flow.collapses (flow : b.Flow strict written filling closing) (formed : b.Formed strict)
    (collapses : b.Collapses t) (formed' : t.Formed strict) :
    t.Flow strict written filling closing := by
  have same : t.definition = b.definition := by
    funext c s
    rw [definition, collapses.blocks, definition]
  refine flow.keeps formed collapses.reads.toKeeps formed' (fun _ => id) ?_ ?_ ?_ ?_
  · intro id type home p s out shown
    obtain ⟨_, absurd_⟩ := collapses.added out shown
    cases absurd_
  · intro c s d before after
    rw [same, before] at after
    cases after
  · intro c s d known
    exact Nat.lt_of_lt_of_le (flow.definition_lt (same ▸ known)).1 collapses.size
  · intro c k l before after
    rw [collapses.blocks, before] at after
    cases after
    exact .inl rfl

section Retouch

variable {id : ValueId} {home : Option BlockId} {p q : Phi}

/-- A new phi may change while its operands are collected. -/
theorem Reads.retouch (reads : a.Reads b)
    (touch : b.Retouches id type home p q t) (new : a.values.size ≤ id) : a.Reads t where
  locals := touch.locals.trans reads.locals
  paramCount := touch.paramCount.trans reads.paramCount
  count := by rw [touch.blocks, reads.count]
  size := touch.size ▸ reads.size
  block present := by
    rw [touch.blocks]
    exact reads.block present
  look {i v} present := by
    rw [touch.others (Nat.ne_of_lt (Nat.lt_of_lt_of_le (lt_of_look present) new))]
    exact reads.look present
  added {i w} out shown := by
    obtain ⟨u, before, _, _, rfl | ⟨rfl, rfl, rfl⟩⟩ := touch.back shown
    · exact reads.added out before
    · cases reads.added out before with
      | phi _ _ role => exact .phi _ _ (touch.role.trans role)
  representative i := by
    rw [touch.representative]
    exact reads.representative i
  definition known := by
    rw [touch.definition, touch.representative]
    exact reads.definition known

theorem Merging.retouch {m : Merge} (merging : b.Merging slot type m lacks start)
    {type' : ValueType} (touch : b.Retouches id type' home p q t) (other : m.phi ≠ id) :
    t.Merging slot type m lacks start := by
  obtain ⟨r, k, phi, incomplete, present, rest⟩ := merging.join
  refine ⟨⟨r, k, ⟨by rw [touch.others other, phi.1], phi.2⟩, incomplete, ?_, rest⟩, ?_, ?_, ?_⟩
  · rw [touch.blocks, present]
  · rw [touch.definition, touch.representative]
    exact merging.defined
  · refine merging.trail.imp fun c next follows => ?_
    obtain ⟨k, found, rest⟩ := follows
    exact ⟨k, by rw [touch.blocks, found], rest⟩
  · intro c member d known
    rw [touch.representative]
    exact merging.calm c member d (touch.definition ▸ known)

end Retouch

/-- How far a lookup has got: reads apart, nothing has changed since its start but the phis that
collect operands. -/
structure Searches (strict : Bool) (written : BlockId → Nat → Prop) (filling : ValueId → Prop)
    (closing : Option BlockId) (a : Builder) (slot : Nat) (phis : List ValueId) (b : Builder) : Prop where
  formed : b.Formed strict
  flow : b.Flow strict written (fun id => filling id ∨ id ∈ phis) closing
  reads : a.Reads b
  others : ∀ (c : BlockId) (s : Nat), s ≠ slot → b.definition c s = a.definition c s
  nodup : phis.Nodup
  bounds : ∀ id ∈ phis, a.values.size ≤ id ∧ id < b.values.size

def gaps (b : Builder) (slot : Nat) : Nat :=
  (List.range b.blocks.size).countP fun c => (b.definition c slot).isNone

theorem gaps_le (count : t.blocks.size = b.blocks.size)
    (known : ∀ c d, b.definition c slot = some d → (t.definition c slot).isSome) :
    t.gaps slot ≤ b.gaps slot := by
  rw [gaps, gaps, count]
  refine List.countP_mono_left fun c _ none_ => ?_
  rw [Option.isNone_iff_eq_none] at none_ ⊢
  cases before : b.definition c slot with
  | none => rfl
  | some d =>
      have := known c d before
      rw [none_] at this
      cases this

theorem gaps_lt (count : t.blocks.size = b.blocks.size)
    (known : ∀ c d, b.definition c slot = some d → (t.definition c slot).isSome) {c : BlockId}
    {d : ValueId} (new : b.definition c slot = none) (after : t.definition c slot = some d) :
    t.gaps slot < b.gaps slot := by
  have inside : c < b.blocks.size := by
    obtain ⟨k, _, present, _⟩ := definition_eq_some.mp after
    exact count ▸ lt_of_block present
  rw [gaps, gaps, count]
  refine countP_lt (fun e _ none_ => ?_) (List.mem_range.mpr inside) (by simp [after]) (by simp [new])
  rw [Option.isNone_iff_eq_none] at none_ ⊢
  cases before : b.definition e slot with
  | none => rfl
  | some d =>
      have := known e d before
      rw [none_] at this
      cases this

theorem Reads.still (reads : b.Reads t) (c : BlockId) (d : ValueId)
    (known : b.definition c slot = some d) : (t.definition c slot).isSome := by
  obtain ⟨d', known', _⟩ := reads.definition known
  rw [known']
  rfl

theorem Reads.gaps_le (reads : b.Reads t) : t.gaps slot ≤ b.gaps slot :=
  Builder.gaps_le reads.count reads.still

theorem Reads.gaps_lt (reads : b.Reads t) {c : BlockId} {d : ValueId}
    (new : b.definition c slot = none) (known : t.definition c slot = some d) :
    t.gaps slot < b.gaps slot := Builder.gaps_lt reads.count reads.still new known

theorem gaps_le_size (b : Builder) (slot : Nat) : b.gaps slot ≤ b.blocks.size := by
  have := List.countP_le_length (p := fun c => (b.definition c slot).isNone)
    (l := List.range b.blocks.size)
  rwa [List.length_range] at this

section Steps

variable {m : Merge} {phis : List ValueId}

/-- A merge takes what is known at the end of the next of its predecessors. -/
theorem Searches.fed (searches : a.Searches strict written filling closing slot phis b)
    {next : BlockId} {v d : ValueId} (merging : b.Merging slot type m (next :: lacks) start)
    (open_ : m.phi ∈ phis) (known : b.locals[slot]? = some type) (bound : v < b.values.size)
    (defined : b.definition next slot = some d) (same : b.representative d = b.representative v) :
    a.Searches strict written filling closing slot phis (b.fed m.phi v) ∧
      (b.fed m.phi v).Merging slot type m lacks start ∧
      ∀ m' lacks' s', m'.phi ≠ m.phi → b.Merging slot type m' lacks' s' →
        (b.fed m.phi v).Merging slot type m' lacks' s' := by
  obtain ⟨formed, flow, reads, others, nodup, bounds⟩ := searches
  obtain ⟨p, k, phi, incomplete, present, isSealed, kind, several, size_le, rest⟩ := merging.join
  have stays := merging.stays formed
  have touch := retouches_fed phi.1 stays v
  have typed (checked : strict = true) (w : Value)
      (shown : b.look (b.representative (b.representative v)) = some w) :
      w.type.admits type = true := by
    rw [formed.representative_idem, ← same] at shown
    exact flow.typed checked defined type w known shown
  have formed' : (b.fed m.phi v).Formed strict := by
    refine touch.formed formed fun o member => ?_
    rcases Array.mem_push.mp member with old | rfl
    · exact .inl old
    · exact .inr ⟨formed.representative_lt bound, typed⟩
  -- The predecessors that are left are those behind the operands, and `next` is the first of them.
  have size_lt : p.operands.size < k.predecessors.size := by
    by_contra full
    rw [List.drop_eq_nil_of_le (by simpa using full)] at rest
    cases rest
  have split := List.drop_eq_getElem_cons (l := k.predecessors.toList.map Predecessor.block)
    (by simpa using size_lt)
  rw [rest] at split
  obtain ⟨head, tail⟩ := List.cons.inj split
  have flow' : (b.fed m.phi v).Flow strict written (fun id => filling id ∨ id ∈ phis) closing := by
    refine touch.flow formed formed' flow (fun i fills _ => fills)
      (fun {c s l} home role found i o operand => ?_) (fun {c s l} home role found full => ?_)
      (fun _ _ _ _ => .inl (.inr open_))
    · cases home
      cases phi.2.symm.trans role
      rw [present] at found
      cases found
      rw [Phi.feed, Array.getElem?_push] at operand
      split at operand
      · rename_i last
        cases operand
        refine ⟨k.predecessors[i], d, by simp [last, size_lt], ?_, by rw [same, formed.representative_idem]⟩
        have : next = k.predecessors[i].block := by simpa [last] using head
        rw [← this, defined]
      · exact flow.operands phi present operand
    · rw [Phi.feed, incomplete] at full
      cases full
  refine ⟨⟨formed', flow', reads.retouch touch (bounds _ open_).1, by rwa [touch.definition], nodup,
    fun id member => ?_⟩,
    ⟨⟨p.feed (b.representative v), k, ⟨touch.own, phi.2⟩, incomplete, by rwa [touch.blocks],
      isSealed, kind, several, ?_, ?_⟩, ?_, merging.trail.imp fun c next follows => ?_, ?_⟩,
    fun m' lacks' s' other merging' => merging'.retouch touch other⟩
  · rw [touch.size]
    exact bounds id member
  · rw [Phi.feed, Array.size_push]
    exact size_lt
  · rw [Phi.feed, Array.size_push]
    exact tail.symm
  · rw [touch.definition, touch.representative]
    exact merging.defined
  · obtain ⟨l, found, rest⟩ := follows
    exact ⟨l, by rw [touch.blocks, found], rest⟩
  · intro c member e known'
    rw [touch.representative]
    exact merging.calm c member e (touch.definition ▸ known')

/-- What stands for a completed phi is handed back along the trail that led to it. -/
theorem Flow.handBack (flow : b.Flow strict written filling closing) (formed : b.Formed strict)
    (known : b.locals[slot]? = some type) {phi : ValueId} {p : Phi} {goal : BlockId}
    {chain : List BlockId} (local_ : b.LocalPhi phi type goal slot p)
    (trail : b.Trail start chain goal) (inside : goal < b.blocks.size)
    (agrees : ∀ c, c = goal ∨ c ∈ chain → ∀ d, b.definition c slot = some d →
      b.representative d = b.representative phi)
    (defined : (b.definition goal slot).isSome) :
    b.LooksUp strict written filling closing slot start (b.representative phi)
      (b.defining (goal :: chain) slot (.final (b.representative phi))) ∧
      b.KeepsMerges slot type (b.defining (goal :: chain) slot (.final (b.representative phi))) := by
  have single : ∀ c ∈ [goal], c < b.blocks.size := by simpa using inside
  have bound := formed.representative_lt (lt_of_look local_.1)
  have idem := formed.representative_idem phi
  have agrees' : ∀ c ∈ [goal], ∀ d, b.definition c slot = some d →
      b.representative d = b.representative (b.representative phi) := by
    intro c member d before
    rw [idem]
    exact agrees c (.inl (List.mem_singleton.mp member)) d before
  have typed : strict = true → ∀ w, b.look (b.representative (b.representative phi)) = some w →
      w.type.admits type = true := by
    intro checked w leader
    rw [idem] at leader
    exact formed.leader_typed checked local_.1 leader
  have reads := Reads.defining formed single agrees'
  have shown := definition_defining [goal] slot (.final (b.representative phi)) single
  have formed' : (b.defining [goal] slot (.final (b.representative phi))).Formed strict :=
    formed.congr (values_defining ..) (substitution_defining ..)
  have here : (b.defining [goal] slot (.final (b.representative phi))).definition goal slot =
      some (b.representative phi) := (shown goal slot).trans (if_pos ⟨List.mem_singleton_self _, rfl⟩)
  have flow' := flow.defining formed single agrees' bound known (fun c member => ?_) typed
  · obtain ⟨answers, calm⟩ := flow'.finish (v := b.representative phi) formed'
      (by rwa [locals_defining]) (by rwa [values_defining])
      (by rwa [look_defining, representative_defining]) (trail.reads reads) (fun c member d after => by
        rw [shown] at after
        rw [representative_defining, idem]
        split at after
        · cases after
          exact idem
        · exact agrees c (.inr member) d after)
      (.inl ⟨_, here, rfl⟩)
    refine ⟨.trans reads (fun e s other => (shown e s).trans (if_neg fun both => other both.2)) answers,
      fun m lacks s merging => calm m lacks s ?_⟩
    refine merging.reads formed' reads fun c member d before after => ?_
    rw [shown] at after
    split at after
    · rename_i both
      rw [List.mem_singleton.mp both.1] at before
      rw [before] at defined
      cases defined
    · rw [before] at after
      cases after
  · cases List.mem_singleton.mp member
    exact StartsWith.phi (by rw [look_defining]; exact local_.1) local_.2
      (by rw [representative_defining, idem])

theorem complete_ends (searches : a.Searches strict written filling closing slot (m.phi :: phis) b)
    (merging : b.Merging slot type m [] start) (known : b.locals[slot]? = some type) :
    Ends (complete slot m) b (fun v t => a.Searches strict written filling closing slot phis t ∧
      (∃ d, t.definition start slot = some d ∧ t.representative d = t.representative v) ∧
      v < t.values.size ∧ t.gaps slot ≤ b.gaps slot ∧
      ∀ m' lacks' s', m'.phi ≠ m.phi → b.Merging slot type m' lacks' s' →
        t.Merging slot type m' lacks' s') Exhausted := by
  obtain ⟨formed, flow, reads, others, nodup, bounds⟩ := searches
  obtain ⟨p, k, phi, incomplete, present, isSealed, kind, several, size_le, rest⟩ := merging.join
  have stays := merging.stays formed
  -- The phi is completed, then replaced if it is trivial, and handed back along the chain of its merge.
  have touch := retouches_finish phi.1 stays
  have formed₁ : (b.onPhi m.phi Phi.finish).Formed strict := touch.formed formed fun o => .inl
  have flow₁ : (b.onPhi m.phi Phi.finish).Flow strict written
      (fun id => filling id ∨ id ∈ phis) closing := by
    refine touch.flow formed formed₁ flow (fun i fills other => ?_)
      (fun {c s l} home role found i o operand => ?_) (fun {c s l} home role found full => ?_)
      (fun _ _ _ absurd_ => nomatch absurd_)
    · simpa [other] using fills
    · cases home
      exact flow.operands ⟨phi.1, role⟩ found operand
    · cases home
      rw [present] at found
      cases found
      have all := List.drop_eq_nil_iff.mp rest
      rw [List.length_map, Array.length_toList] at all
      exact ⟨Nat.le_antisymm size_le all, .inl isSealed⟩
  have complete₁ : (b.onPhi m.phi Phi.finish).isCompletePhi m.phi = true :=
    isCompletePhi_iff.mpr ⟨_, _, _, touch.own, rfl⟩
  rw [complete, ends_bind, ends_modifyPhi, ends_bind]
  refine (removeTrivial_ends formed₁ complete₁).imp ?_
  rintro _ u ⟨formed₂, collapses, rfl⟩
  rw [ends_bind, ends_defineAll, ends_pure]
  have flow₂ := flow₁.collapses formed₁ collapses formed₂
  have reads₁ : a.Reads (b.onPhi m.phi Phi.finish) :=
    reads.retouch touch (bounds _ List.mem_cons_self).1
  have reads₂ := reads₁.trans collapses.reads
  have same : u.definition = b.definition := by
    funext c s
    rw [definition, collapses.blocks]
    rfl
  have toward {d : ValueId} (stands : b.representative d = m.phi) :
      u.representative d = u.representative m.phi := by
    have := collapses.representative d
    rw [touch.representative, stands] at this
    exact this.symm
  have trail : u.Trail start m.chain m.block := merging.trail.imp fun c next follows => by
    obtain ⟨l, found, rest⟩ := follows
    exact ⟨l, by rw [collapses.blocks]; exact found, rest⟩
  obtain ⟨w, settled, settles⟩ := collapses.look touch.own
  obtain ⟨r, rfl⟩ := settles.phi
  obtain ⟨d, defined, stands⟩ := merging.defined
  obtain ⟨answers, calm⟩ := flow₂.handBack formed₂ (by rw [collapses.locals]; exact known)
    ⟨settled, phi.2⟩ trail (by rw [collapses.blocks]; exact lt_of_block present)
    (fun c here d defined => toward (merging.agrees here (same ▸ defined))) (by rw [same, defined]; rfl)
  have elsewhere (c : BlockId) (s : Nat) (other : s ≠ slot) : u.definition c s = a.definition c s := by
    rw [same]
    exact others c s other
  refine ⟨⟨answers.formed, answers.flow, reads₂.trans answers.reads,
    fun c s other => (answers.others c s other).trans (elsewhere c s other), nodup.of_cons,
    fun id member => ?_⟩, answers.known, answers.bound, ?_, fun m' lacks' s' other merging' => ?_⟩
  · obtain ⟨above, below⟩ := bounds id (List.mem_cons_of_mem _ member)
    exact ⟨above, Nat.lt_of_lt_of_le below
      (Nat.le_trans (touch.size ▸ collapses.size) answers.reads.size)⟩
  · refine Nat.le_trans answers.reads.gaps_le (Nat.le_of_eq ?_)
    rw [gaps, gaps, same, collapses.blocks]
    rfl
  · refine calm m' lacks' s' ((merging'.retouch touch other).reads formed₂ collapses.reads
      fun c _ d before after => ?_)
    rw [same] at after
    rw [touch.definition, after] at before
    cases before

/-- A lookup goes on after a search: with what it found, or with one more merge. -/
theorem Searches.find (searches : a.Searches strict written filling closing slot phis b) {found : Found}
    (finds : b.Finds strict written (fun id => filling id ∨ id ∈ phis) closing slot type start found t) :
    match found with
    | .value v => a.Searches strict written filling closing slot phis t ∧
        (∃ d, t.definition start slot = some d ∧ t.representative d = t.representative v) ∧
        v < t.values.size ∧ t.gaps slot ≤ b.gaps slot
    | .merge m => a.Searches strict written filling closing slot (m.phi :: phis) t ∧
        t.Merging slot type m m.waiting start ∧ t.gaps slot < b.gaps slot := by
  obtain ⟨_, _, reads, others, nodup, bounds⟩ := searches
  cases found with
  | value v =>
      obtain ⟨formed', flow', reads', others', known, bound⟩ := finds
      refine ⟨⟨formed', flow', reads.trans reads',
        fun c s other => (others' c s other).trans (others c s other), nodup, fun id member => ?_⟩, known, bound,
        reads'.gaps_le⟩
      obtain ⟨above, below⟩ := bounds id member
      exact ⟨above, Nat.lt_of_lt_of_le below reads'.size⟩
  | merge m =>
      obtain ⟨formed', flow', reads', others', merging, new, undefined⟩ := finds
      obtain ⟨d, defined, _⟩ := merging.defined
      refine ⟨⟨formed', flow'.mono ?_, reads.trans reads',
        fun c s other => (others' c s other).trans (others c s other),
        List.nodup_cons.mpr ⟨?_, nodup⟩, ?_⟩,
        merging, reads'.gaps_lt undefined defined⟩
      · rintro id ((fills | member) | rfl)
        · exact .inl fills
        · exact .inr (List.mem_cons_of_mem _ member)
        · exact .inr List.mem_cons_self
      · intro member
        rw [new] at member
        exact absurd (bounds _ member).2 (Nat.lt_irrefl _)
      · rintro id (_ | ⟨_, member⟩)
        · obtain ⟨_, _, phi, _⟩ := merging.join
          exact ⟨new ▸ reads.size, lt_of_look phi.1⟩
        · obtain ⟨above, below⟩ := bounds id member
          exact ⟨above, Nat.lt_of_lt_of_le below reads'.size⟩

theorem gather_ends (waiting : List BlockId)
    (searches : a.Searches strict written filling closing slot phis b)
    (merging : b.Merging slot type m waiting start) (open_ : m.phi ∈ phis)
    (known : a.locals[slot]? = some type) :
    Ends (gather slot type m.phi waiting) b (fun result t =>
      (∀ m' lacks' s', m'.phi ≠ m.phi → b.Merging slot type m' lacks' s' →
        t.Merging slot type m' lacks' s') ∧
      match result with
      | none => a.Searches strict written filling closing slot phis t ∧ t.Merging slot type m [] start ∧
          t.gaps slot ≤ b.gaps slot
      | some (inner, rest) => a.Searches strict written filling closing slot (inner.phi :: phis) t ∧
          ∃ next, t.Merging slot type inner inner.waiting next ∧
            t.Merging slot type m (next :: rest) start ∧ t.gaps slot < b.gaps slot) Exhausted := by
  -- Each predecessor of the join gives a value, which is fed to the phi, or a further join, which comes first.
  induction waiting generalizing b with
  | nil => exact ⟨fun _ _ _ _ merging' => merging', searches, merging, Nat.le_refl _⟩
  | cons next waiting ih =>
      have known' : b.locals[slot]? = some type := searches.reads.locals ▸ known
      have inside : next < b.blocks.size := by
        obtain ⟨p, k, _, _, present, _, _, _, _, rest⟩ := merging.join
        have member : next ∈ k.predecessors.toList.map Predecessor.block :=
          List.mem_of_mem_drop (rest ▸ List.mem_cons_self)
        obtain ⟨pred, listed, rfl⟩ := List.mem_map.mp member
        exact searches.flow.pred_lt present pred (Array.mem_toList_iff.mp listed)
      rw [gather, ends_bind]
      refine (find_ends searches.flow searches.formed known' inside).imp ?_
      rintro found t ⟨finds, calm⟩
      have goes := searches.find finds
      cases found with
      | value v =>
          obtain ⟨searches', ⟨d, defined, same⟩, bound, fewer⟩ := goes
          have merging' := calm _ _ _ merging
          obtain ⟨searches'', merging'', others⟩ := searches'.fed merging' open_
            (searches'.reads.locals ▸ known) bound defined same
          dsimp only
          rw [ends_bind]
          refine (feed_ends m.phi (searches'.formed.representative_lt bound)).mono ?_
            fun _ _ => False.elim
          rintro _ _ rfl
          have step : (t.fed m.phi v).gaps slot ≤ b.gaps slot := by
            refine Nat.le_trans (Nat.le_of_eq ?_) fewer
            rw [gaps, gaps, blocks_fed, definition_fed]
          refine (ih searches'' merging'').imp ?_
          rintro (_ | ⟨inner, rest⟩) u ⟨others', outcome⟩
          · obtain ⟨searches₃, merging₃, fewer'⟩ := outcome
            exact ⟨fun m' l' s' other before => others' m' l' s' other
              (others m' l' s' other (calm m' l' s' before)), searches₃, merging₃,
              Nat.le_trans fewer' step⟩
          · obtain ⟨searches₃, next', inner_, outer_, fewer'⟩ := outcome
            exact ⟨fun m' l' s' other before => others' m' l' s' other
              (others m' l' s' other (calm m' l' s' before)), searches₃, next', inner_, outer_,
              Nat.lt_of_lt_of_le fewer' step⟩
      | merge inner =>
          obtain ⟨searches', inner_, fewer⟩ := goes
          exact ⟨fun m' l' s' _ before => calm m' l' s' before, searches', next, inner_,
            calm _ _ _ merging, fewer⟩

/-- The merges that wait for a definition at the end of a block, the innermost first. -/
def Tower (b : Builder) (slot : Nat) (type : ValueType) (start : BlockId) :
    BlockId → List Merge → Prop
  | next, [] => next = start
  | next, m :: outer => ∃ s, b.Merging slot type m (next :: m.waiting) s ∧
      b.Tower slot type start s outer

theorem Tower.imp {next : BlockId} {outer : List Merge} (tower : b.Tower slot type start next outer)
    (each : ∀ m ∈ outer, ∀ lacks s, b.Merging slot type m lacks s → t.Merging slot type m lacks s) :
    t.Tower slot type start next outer := by
  induction outer generalizing next with
  | nil => exact tower
  | cons m outer ih =>
      obtain ⟨s, merging, below⟩ := tower
      exact ⟨s, each m List.mem_cons_self _ _ merging,
        ih below fun m' member => each m' (List.mem_cons_of_mem _ member)⟩

theorem settle_ends {fuel : Nat} {outer : List Merge} {s : BlockId}
    (searches : a.Searches strict written filling closing slot (m.phi :: outer.map Merge.phi) b)
    (merging : b.Merging slot type m m.waiting s) (tower : b.Tower slot type start s outer)
    (known : a.locals[slot]? = some type) (enough : 2 * b.gaps slot + outer.length + 1 ≤ fuel) :
    Ends (settle slot type fuel m outer) b
      (fun v t => a.LooksUp strict written filling closing slot start v t) Exhausted := by
  -- A further join fills a gap, which pays for two rounds; a merge that is done leaves the tower.
  induction fuel generalizing b m outer s with
  | zero => omega
  | succ fuel ih =>
      have apart : ∀ m' ∈ outer, m'.phi ≠ m.phi := fun m' member same =>
        (List.nodup_cons.mp searches.nodup).1 (same ▸ List.mem_map_of_mem member)
      rw [settle, ends_bind]
      refine (gather_ends m.waiting searches merging List.mem_cons_self known).imp ?_
      rintro (_ | ⟨inner, rest⟩) t ⟨others, outcome⟩
      · obtain ⟨searches', merging', fewer⟩ := outcome
        have tower' := tower.imp fun m' member l' s' => others m' l' s' (apart m' member)
        dsimp only
        rw [ends_bind]
        refine (complete_ends searches' merging' (searches'.reads.locals ▸ known)).imp ?_
        rintro v u ⟨searches'', known', bound, fewer', others'⟩
        have tower'' := tower'.imp fun m' member l' s' => others' m' l' s' (apart m' member)
        cases outer with
        | nil =>
            cases tower''
            exact ⟨searches''.formed, searches''.flow.mono (by simp), searches''.reads, searches''.others,
              known', bound⟩
        | cons next outer =>
            obtain ⟨s', merging'', below⟩ := tower''
            obtain ⟨d, defined, same⟩ := known'
            obtain ⟨searches₃, merging₃, others₃⟩ := searches''.fed merging'' List.mem_cons_self
              (searches''.reads.locals ▸ known) bound defined same
            dsimp only
            rw [ends_bind]
            refine (feed_ends next.phi (searches''.formed.representative_lt bound)).mono ?_
              fun _ _ => False.elim
            rintro _ _ rfl
            refine ih searches₃ merging₃ (below.imp fun m' member l' s' => others₃ m' l' s' ?_) ?_
            · intro same
              have nodup := (List.nodup_cons.mp searches.nodup).2
              exact (List.nodup_cons.mp nodup).1 (same ▸ List.mem_map_of_mem member)
            · have step : (u.fed next.phi v).gaps slot = u.gaps slot := by
                rw [gaps, gaps, blocks_fed, definition_fed]
              rw [List.length_cons] at enough
              omega
      · obtain ⟨searches', next, inner_, outer_, fewer⟩ := outcome
        refine ih ?_ inner_ ⟨s, ⟨outer_.join, outer_.defined, outer_.trail, outer_.calm⟩,
            tower.imp fun m' member l' s' => others m' l' s' (apart m' member)⟩ ?_
        · exact searches'
        · rw [List.length_cons]
          omega

end Steps

theorem lookup_ends (flow : b.Flow strict written filling closing) (formed : b.Formed strict)
    (known : b.locals[slot]? = some type) (inside : start < b.blocks.size) :
    Ends (lookup slot type start) b
      (fun v t => b.LooksUp strict written filling closing slot start v t) Exhausted := by
  rw [lookup, ends_bind]
  refine (find_ends flow formed known inside).imp ?_
  rintro (v | m) t ⟨finds, _⟩
  · exact finds
  · have begins : b.Searches strict written filling closing slot [] b :=
      ⟨formed, flow.mono fun _ => .inl, .refl formed, fun _ _ _ => rfl, List.nodup_nil, by simp⟩
    have finds' : b.Finds strict written (fun id => filling id ∨ id ∈ []) closing slot type start
        (.merge m) t := by
      refine ⟨finds.1, finds.2.1.mono ?_, finds.2.2⟩
      rintro id (fills | same)
      · exact .inl (.inl fills)
      · exact .inr same
    obtain ⟨searches, merging, fewer⟩ := begins.find finds'
    dsimp only
    rw [ends_bind, ends_get]
    refine settle_ends searches merging rfl known ?_
    have count := searches.reads.count
    rw [List.length_nil, count]
    change t.gaps slot < b.gaps slot at fewer
    have := b.gaps_le_size slot
    omega

/-- A read ends with what the local stands for at the end of the block, unless no id is left for a
phi or for an undefined value. -/
theorem getLocal_ends (flow : b.Flow strict written filling closing) (formed : b.Formed strict)
    (known : b.locals[slot]? = some type) (inside : start < b.blocks.size) :
    Ends (getLocal start slot) b (fun v t =>
      b.LooksUp strict written filling closing slot start v t ∧ t.representative v = v) Exhausted := by
  obtain ⟨k, present⟩ := block_of_lt inside
  rw [getLocal, ends_bind, ends_blockAt present, ends_bind, ends_get, known]
  dsimp only
  cases defined : k.definitions[slot]? with
  | some d =>
      have here : b.definition start slot = some d.value := by
        rw [definition_of_block present, defined]
        rfl
      have bound := (flow.definition_lt here).1
      rw [ends_bind, ends_get, ends_pure]
      exact ⟨⟨formed, flow, .refl formed, fun _ _ _ => rfl, ⟨_, here, (formed.representative_idem _).symm⟩,
        formed.representative_lt bound⟩, formed.representative_idem _⟩
  | none =>
      dsimp only
      rw [ends_bind]
      refine (lookup_ends flow formed known inside).imp ?_
      rintro v t ⟨formed', flow', reads, others, ⟨d, here, same⟩, bound⟩
      rw [ends_bind, ends_get, ends_pure]
      exact ⟨⟨formed', flow', reads, others, ⟨d, here, by rw [same, formed'.representative_idem]⟩,
        formed'.representative_lt bound⟩, formed'.representative_idem _⟩

end WasmFunclets.Ssa.Builder
