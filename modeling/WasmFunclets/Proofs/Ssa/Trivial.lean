import WasmFunclets.Proofs.Ssa.Aliased

/-! Values stand in for phis that merge nothing else. The removal of trivial phis ends, and changes
nothing but what stands for complete phis. -/

namespace WasmFunclets

theorem ValueType.admits_refl (t : ValueType) : t.admits t = true := by
  simp [ValueType.admits]

theorem ValueType.admits_trans {r s t : ValueType} (first : r.admits s = true)
    (second : s.admits t = true) : r.admits t = true := by
  simp only [ValueType.admits, Bool.or_eq_true, beq_iff_eq] at *
  grind

namespace Ssa

def Value.Settles (v w : Value) : Prop :=
  w = v ∨ ∃ type home p r, v = ⟨type, home, .phi p⟩ ∧ p.complete = true ∧
    w = ⟨type, home, .phi { p with replacement := some r }⟩

theorem Value.Settles.refl (v : Value) : v.Settles v := .inl rfl

theorem Value.Settles.trans {u v w : Value} (first : u.Settles v) (second : v.Settles w) :
    u.Settles w := by
  rcases first with rfl | ⟨type, home, p, r, rfl, complete, rfl⟩
  · exact second
  · rcases second with rfl | ⟨_, _, _, r', same, _, rfl⟩
    · exact .inr ⟨_, _, _, _, rfl, complete, rfl⟩
    · cases same
      exact .inr ⟨_, _, _, r', rfl, complete, rfl⟩

theorem Value.Settles.type_eq {v w : Value} (settles : v.Settles w) : w.type = v.type := by
  rcases settles with rfl | ⟨_, _, _, _, rfl, _, rfl⟩ <;> rfl

theorem Value.Settles.block_eq {v w : Value} (settles : v.Settles w) : w.block = v.block := by
  rcases settles with rfl | ⟨_, _, _, _, rfl, _, rfl⟩ <;> rfl

theorem Value.Settles.phi {type : ValueType} {home : Option BlockId} {p : Phi} {w : Value}
    (settles : Value.Settles ⟨type, home, .phi p⟩ w) :
    ∃ r, w = ⟨type, home, .phi { p with replacement := r }⟩ := by
  rcases settles with rfl | ⟨_, _, _, r, same, _, rfl⟩
  · exact ⟨_, rfl⟩
  · cases same
    exact ⟨_, rfl⟩

theorem Value.Settles.of_phi {type : ValueType} {home : Option BlockId} {p : Phi} {v : Value}
    (settles : v.Settles ⟨type, home, .phi p⟩) :
    ∃ r, v = ⟨type, home, .phi { p with replacement := r }⟩ := by
  rcases settles with rfl | ⟨_, _, _, r, rfl, _, same⟩
  · exact ⟨_, rfl⟩
  · cases same
    exact ⟨_, rfl⟩

def Content.isProjection : Content → Bool
  | .project .. => true
  | _ => false

namespace Builder

open Attempt

/-- What holds of the values alone. The tuple of a projection need not be a value. Only complete phis are
replaced, by what all their operands stand for; a strict function has operands of the types of their
phis. -/
structure Formed (strict : Bool) (b : Builder) : Prop where
  coherent : b.substitution.Coherent b.values.size
  operand_lt : ∀ {id : ValueId} {v : Value}, b.look id = some v → v.content.isProjection = false →
    ∀ o ∈ v.operands, o < b.values.size
  home : ∀ {id : ValueId} {v : Value}, b.look id = some v → (v.block = none ↔ v.content = .undef)
  replaced : ∀ {id : ValueId}, b.representative id ≠ id → ∃ type home p w,
    b.look id = some ⟨type, home, .phi p⟩ ∧ p.complete = true ∧ p.replacement = some w ∧
      b.representative w = b.representative id ∧
      ∀ o ∈ p.operands, b.representative o = b.representative id
  live : ∀ {id : ValueId} {type : ValueType} {home : Option BlockId} {p : Phi},
    b.look id = some ⟨type, home, .phi p⟩ → b.representative id = id → p.replacement = none
  typed : strict = true → ∀ {id : ValueId} {type : ValueType} {home : Option BlockId} {p : Phi},
    b.look id = some ⟨type, home, .phi p⟩ → ∀ o ∈ p.operands, ∀ w,
      b.look (b.representative o) = some w → w.type.admits type = true
  leader_typed : strict = true → ∀ {id : ValueId} {v w : Value}, b.look id = some v →
    b.look (b.representative id) = some w → w.type.admits v.type = true

variable {strict : Bool} {b t : Builder}

theorem Formed.representative_lt (formed : b.Formed strict) {id : ValueId}
    (inside : id < b.values.size) : b.representative id < b.values.size :=
  formed.coherent.apply_lt inside

@[simp] theorem Formed.representative_idem (formed : b.Formed strict) (id : ValueId) :
    b.representative (b.representative id) = b.representative id :=
  formed.coherent.apply_apply id

theorem Formed.representative_of_le (formed : b.Formed strict) {id : ValueId}
    (out : b.values.size ≤ id) : b.representative id = id := formed.coherent.apply_of_le out

theorem Formed.aliased (formed : b.Formed strict) : b.Aliased where
  coherent := formed.coherent
  operand_lt {id p} present o member := by
    obtain ⟨type, home, q, shown, operands, _⟩ := look_of_phiAt present
    exact formed.operand_lt shown rfl o (Array.mem_toList_iff.mpr (operands ▸ member))
  replaced id := by
    constructor
    · intro moved
      obtain ⟨_, _, q, w, shown, _, replacement, _⟩ := formed.replaced moved
      obtain ⟨p, present, _, same⟩ := phiAt_of_look shown
      exact ⟨p, present, by rw [same, replacement]; exact Option.some_ne_none w⟩
    · rintro ⟨p, present, gone⟩ stays
      obtain ⟨_, _, q, shown, _, replacement⟩ := look_of_phiAt present
      exact gone (replacement ▸ formed.live shown stays)

structure Collapses (b t : Builder) : Prop where
  locals : t.locals = b.locals
  paramCount : t.paramCount = b.paramCount
  blocks : t.blocks = b.blocks
  size : b.values.size ≤ t.values.size
  look : ∀ {id : ValueId} {v : Value}, b.look id = some v → ∃ w, t.look id = some w ∧ v.Settles w
  added : ∀ {id : ValueId} {w : Value}, b.values.size ≤ id → t.look id = some w →
    ∃ type, w = ⟨type, none, .undef⟩
  representative : ∀ id, t.representative (b.representative id) = t.representative id

theorem Collapses.refl (formed : b.Formed strict) : b.Collapses b where
  locals := rfl
  paramCount := rfl
  blocks := rfl
  size := Nat.le_refl _
  look present := ⟨_, present, .refl _⟩
  added out present := absurd (lt_of_look present) (Nat.not_lt.mpr out)
  representative := formed.representative_idem

theorem Collapses.trans {u : Builder} (first : b.Collapses t) (second : t.Collapses u) :
    b.Collapses u where
  locals := second.locals.trans first.locals
  paramCount := second.paramCount.trans first.paramCount
  blocks := second.blocks.trans first.blocks
  size := Nat.le_trans first.size second.size
  look present := by
    obtain ⟨v, found, before⟩ := first.look present
    obtain ⟨w, later, behind⟩ := second.look found
    exact ⟨w, later, before.trans behind⟩
  added {id w} out present := by
    by_cases old : id < t.values.size
    · obtain ⟨v, found⟩ := look_of_lt old
      obtain ⟨type, rfl⟩ := first.added out found
      obtain ⟨_, later, settles⟩ := second.look found
      rw [later] at present
      cases present
      rcases settles with rfl | ⟨_, _, _, _, same, _⟩
      · exact ⟨type, rfl⟩
      · cases same
    · exact second.added (Nat.le_of_not_lt old) present
  representative id := by
    rw [← second.representative, first.representative, second.representative]

theorem Formed.withValue (formed : b.Formed strict) {v : Value} (plain : v.plain = v)
    (home : v.block = none ↔ v.content = .undef)
    (operands : v.content.isProjection = false → ∀ o ∈ v.operands, o < b.values.size)
    (idle : ∀ type home p, v = ⟨type, home, .phi p⟩ → p.operands = #[] ∧ p.replacement = none) :
    (b.withValue v).Formed strict := by
  have same := representative_withValue formed.coherent v
  have look := look_withValue (b := b) v
  rw [plain] at look
  have stays : b.representative b.values.size = b.values.size :=
    formed.representative_of_le (Nat.le_refl _)
  constructor
  case coherent =>
    rw [size_withValue]
    exact formed.coherent.extend
  case operand_lt =>
    intro id u present whole o member
    rw [size_withValue]
    rw [look] at present
    split at present
    · cases present
      exact Nat.lt_succ_of_lt (operands whole o member)
    · exact Nat.lt_succ_of_lt (formed.operand_lt present whole o member)
  case home =>
    intro id u present
    rw [look] at present
    split at present
    · cases present
      exact home
    · exact formed.home present
  case replaced =>
    intro id changed
    rw [same] at changed ⊢
    have old : id ≠ b.values.size := fun new => changed (new ▸ stays)
    rw [look, if_neg old]
    exact formed.replaced changed
  case live =>
    intro id type home p present kept
    rw [look] at present
    split at present
    · cases present
      exact (idle _ _ _ rfl).2
    · exact formed.live present (by rwa [same] at kept)
  case typed =>
    intro checked id type home p present o member w found
    rw [same] at found
    rw [look] at present found
    split at present
    · cases present
      rw [(idle _ _ _ rfl).1] at member
      simp at member
    · have bound := formed.representative_lt (formed.operand_lt present rfl o (by simpa [Value.operands] using member))
      rw [if_neg (Nat.ne_of_lt bound)] at found
      exact formed.typed checked present o member w found
  case leader_typed =>
    intro checked id u w present found
    rw [same, look] at found
    rw [look] at present
    by_cases new : id = b.values.size
    · subst new
      rw [if_pos rfl] at present
      rw [if_pos stays] at found
      cases present
      cases found
      exact ValueType.admits_refl _
    · rw [if_neg new] at present
      rw [if_neg (Nat.ne_of_lt (formed.representative_lt (lt_of_look present)))] at found
      exact formed.leader_typed checked present found

theorem Formed.undef (formed : b.Formed strict) (type : ValueType) :
    (b.withValue ⟨type, none, .undef⟩).Formed strict ∧
      b.Collapses (b.withValue ⟨type, none, .undef⟩) := by
  have look := look_withValue (b := b) ⟨type, none, .undef⟩
  refine ⟨formed.withValue rfl (by simp) (by simp [Value.operands]) (by simp),
    rfl, rfl, rfl, by simp, ?_, ?_, ?_⟩
  · intro id v present
    refine ⟨v, ?_, .refl v⟩
    rw [look, if_neg (Nat.ne_of_lt (lt_of_look present)), present]
  · intro id w out present
    rw [look] at present
    split at present
    · cases present
      exact ⟨type, rfl⟩
    · exact absurd (lt_of_look present) (Nat.not_lt.mpr out)
  · rw [representative_withValue formed.coherent]
    exact formed.representative_idem

theorem undef_ends (b : Builder) (type : ValueType) :
    Ends (undef type) b
      (fun id t => id = b.values.size ∧ t = b.withValue ⟨type, none, .undef⟩) Exhausted :=
  addValue_ends b

structure Replaced (b : Builder) (phi same : ValueId) (t : Builder) : Prop where
  locals : t.locals = b.locals
  paramCount : t.paramCount = b.paramCount
  blocks : t.blocks = b.blocks
  size : t.values.size = b.values.size
  look : ∀ id, t.look id =
    if id = phi then (b.look id).map (Value.updatePhi fun p => { p with replacement := some same })
    else b.look id
  substitution : t.substitution = b.substitution.replace phi same

theorem look_retire (b : Builder) (phi same id : ValueId) :
    (b.onPhi phi (Phi.retire same)).look id =
      if id = phi then (b.look id).map (Value.updatePhi fun p => { p with replacement := some same })
      else b.look id := by
  simp only [look, value_onPhi]
  split
  · cases b.values[id]? with
    | none => rfl
    | some v =>
        simp only [Option.map_some, Value.plain, Value.updatePhi_updatePhi]
        rfl
  · rfl

theorem replaced_replacedBy (b : Builder) (phi same : ValueId) (p : Phi) :
    b.Replaced phi same (b.replacedBy phi same p) := by
  refine ⟨rfl, rfl, rfl, by simp, fun id => ?_, rfl⟩
  change (onPhi _ same (Phi.adopt _ _)).look id = _
  rw [look_onPhi_uses _ (Phi.adopt _ _) fun _ => rfl]
  exact b.look_retire phi same id

section Step

variable {id same : ValueId} {type : ValueType} {found : Option ValueId}

/-- All that a step of the removal needs to know: the one value that the phi merges, or a new undefined
one for a phi that merges nothing. -/
structure Trades (b : Builder) (id same : ValueId) (type : ValueType) : Prop where
  leads : b.representative id = id
  follows : b.representative same = same
  distinct : same ≠ id
  inside : same < b.values.size
  phi : ∃ home p, b.look id = some ⟨type, home, .phi p⟩ ∧ p.complete = true ∧
    ∀ o ∈ p.operands, b.representative o = id ∨ b.representative o = same

theorem Replaced.representative (formed : b.Formed strict) (trades : b.Trades id same type)
    (replaced : b.Replaced id same t) (i : ValueId) :
    t.representative i = if b.representative i = id then same else b.representative i := by
  obtain ⟨home, p, present, _⟩ := trades.phi
  rw [Builder.representative, replaced.substitution]
  exact formed.coherent.apply_replace (lt_of_look present) trades.inside trades.leads trades.follows
    trades.distinct.symm i

theorem Replaced.collapses (formed : b.Formed strict) (trades : b.Trades id same type)
    (replaced : b.Replaced id same t) : b.Collapses t where
  locals := replaced.locals
  paramCount := replaced.paramCount
  blocks := replaced.blocks
  size := Nat.le_of_eq replaced.size.symm
  look {i v} present := by
    rw [replaced.look]
    split
    · rename_i same_
      obtain ⟨home, p, shown, complete, _⟩ := trades.phi
      rw [same_, shown] at present
      cases present
      rw [same_, shown]
      exact ⟨_, rfl, .inr ⟨_, _, _, _, rfl, complete, rfl⟩⟩
    · exact ⟨v, present, .refl v⟩
  added out present := by
    have inside := lt_of_look present
    rw [replaced.size] at inside
    exact absurd inside (Nat.not_lt.mpr out)
  representative i := by
    rw [replaced.representative formed trades, replaced.representative formed trades,
      formed.representative_idem]

theorem Replaced.formed (formed : b.Formed strict) (trades : b.Trades id same type)
    (typed : strict = true → ∀ w, b.look same = some w → w.type.admits type = true)
    (replaced : b.Replaced id same t) : t.Formed strict := by
  have rep := replaced.representative formed trades
  have collapses := replaced.collapses formed trades
  obtain ⟨home, p, present, complete, merged⟩ := trades.phi
  obtain ⟨leads, follows, distinct, inside, _⟩ := trades
  have phi_shown : t.look id = some ⟨type, home, .phi { p with replacement := some same }⟩ := by
    rw [replaced.look, if_pos rfl, present]
    rfl
  have others {i : ValueId} (other : i ≠ id) : t.look i = b.look i := by
    rw [replaced.look, if_neg other]
  -- The phi now leads to `same` and every other value is as it was: each field asks which one it is about.
  constructor
  case coherent =>
    rw [replaced.substitution, replaced.size]
    refine formed.coherent.replace (lt_of_look present) inside ?_
    change b.representative id ≠ b.representative same
    rw [leads, follows]
    exact distinct.symm
  case operand_lt =>
    intro i v shown whole o member
    rw [replaced.size]
    by_cases isPhi : i = id
    · subst isPhi
      rw [phi_shown] at shown
      cases shown
      exact formed.operand_lt present rfl o member
    · rw [others isPhi] at shown
      exact formed.operand_lt shown whole o member
  case home =>
    intro i v shown
    by_cases isPhi : i = id
    · subst isPhi
      rw [phi_shown] at shown
      cases shown
      simpa using formed.home present
    · rw [others isPhi] at shown
      exact formed.home shown
  case replaced =>
    intro i changed
    by_cases isPhi : i = id
    · subst isPhi
      refine ⟨_, _, _, same, phi_shown, complete, rfl, ?_, fun o member => ?_⟩
      · rw [rep, rep, leads, follows]
        simp
      · rw [rep, rep, leads, if_pos rfl]
        have := merged o member
        grind
    · rw [others isPhi]
      have before : b.representative i ≠ i := by
        have := rep i
        grind
      obtain ⟨type', home', q, w, shown, complete', replacement, toward, each⟩ :=
        formed.replaced before
      refine ⟨_, _, q, w, shown, complete', replacement, ?_, fun o member => ?_⟩
      · rw [rep, rep, toward]
      · rw [rep, rep, each o member]
  case live =>
    intro i type' home' q shown kept
    have other : i ≠ id := by
      rintro rfl
      rw [rep, leads, if_pos rfl] at kept
      exact distinct kept
    rw [others other] at shown
    refine formed.live shown ?_
    have := rep i
    grind
  case typed =>
    intro checked i type' home' q shown o member w found
    have old : ∃ r, b.look i = some ⟨type', home', .phi { q with replacement := r }⟩ := by
      by_cases isPhi : i = id
      · subst isPhi
        rw [phi_shown] at shown
        cases shown
        exact ⟨_, present⟩
      · rw [others isPhi] at shown
        exact ⟨_, shown⟩
    obtain ⟨r, old⟩ := old
    have rule := formed.typed checked old o member
    rw [rep] at found
    split at found
    · rename_i isPhi
      rw [others distinct] at found
      rw [isPhi] at rule
      exact ValueType.admits_trans (typed checked w found) (rule _ present)
    · rename_i isOther
      rw [others isOther] at found
      exact rule w found
  case leader_typed =>
    intro checked i v w shown found
    obtain ⟨u, before, type_eq⟩ : ∃ u, b.look i = some u ∧ v.type = u.type := by
      by_cases isPhi : i = id
      · subst isPhi
        rw [phi_shown] at shown
        cases shown
        exact ⟨_, present, rfl⟩
      · rw [others isPhi] at shown
        exact ⟨v, shown, rfl⟩
    rw [type_eq]
    rw [rep] at found
    split at found
    · rename_i isPhi
      have rule := formed.leader_typed checked before (isPhi ▸ present)
      rw [others distinct] at found
      exact ValueType.admits_trans (typed checked w found) rule
    · rename_i isOther
      rw [others isOther] at found
      exact formed.leader_typed checked before found

end Step

theorem isPhi_iff {id : ValueId} :
    b.isPhi id = true ↔ ∃ type home p, b.look id = some ⟨type, home, .phi p⟩ := by
  rw [isPhi, look]
  cases b.values[id]? with
  | none => simp
  | some v =>
      obtain ⟨type, home, content⟩ := v
      cases content <;> simp [Value.phi?, Value.plain, Value.updatePhi]

theorem isPhi_of_look {id : ValueId} {type : ValueType} {home : Option BlockId} {p : Phi}
    (present : b.look id = some ⟨type, home, .phi p⟩) : b.isPhi id = true :=
  isPhi_iff.mpr ⟨_, _, _, present⟩

theorem Collapses.isPhi (collapses : b.Collapses t) {id : ValueId} (isPhi : t.isPhi id = true) :
    b.isPhi id = true := by
  obtain ⟨type, home, p, later⟩ := isPhi_iff.mp isPhi
  by_cases old : id < b.values.size
  · obtain ⟨v, present⟩ := look_of_lt old
    obtain ⟨w, found, settles⟩ := collapses.look present
    rw [later] at found
    cases found
    obtain ⟨r, rfl⟩ := settles.of_phi
    exact isPhi_of_look present
  · obtain ⟨_, same⟩ := collapses.added (Nat.le_of_not_lt old) later
    cases same

theorem isCompletePhi_iff {id : ValueId} :
    b.isCompletePhi id = true ↔
      ∃ type home p, b.look id = some ⟨type, home, .phi p⟩ ∧ p.complete = true := by
  rw [isCompletePhi, look]
  cases b.values[id]? with
  | none => simp
  | some v =>
      obtain ⟨type, home, content⟩ := v
      cases content with
      | phi p =>
          simp only [Value.isCompletePhi, Value.plain, Value.updatePhi, Option.any_some,
            Option.map_some, Option.some.injEq]
          constructor
          · exact fun full => ⟨type, home, _, rfl, full⟩
          · rintro ⟨_, _, _, same, full⟩
            cases same
            exact full
      | _ => simp [Value.isCompletePhi, Value.plain, Value.updatePhi]

theorem Collapses.isCompletePhi (collapses : b.Collapses t) {id : ValueId}
    (complete : b.isCompletePhi id = true) : t.isCompletePhi id = true := by
  obtain ⟨type, home, p, present, full⟩ := isCompletePhi_iff.mp complete
  obtain ⟨w, later, settles⟩ := collapses.look present
  obtain ⟨r, rfl⟩ := settles.phi
  exact isCompletePhi_iff.mpr ⟨_, _, _, later, full⟩

theorem mem_revisit {users : Array ValueId} {worklist : List ValueId} {id : ValueId}
    (member : id ∈ b.revisit users worklist) : id ∈ worklist ∨ b.isCompletePhi id = true := by
  rw [revisit, ← Array.foldl_toList] at member
  generalize users.toList = users at member
  induction users generalizing worklist with
  | nil => exact .inl member
  | cons user users ih =>
      rw [List.foldl_cons] at member
      rcases ih member with inside | complete
      · split at inside
        · rcases List.mem_cons.mp inside with rfl | below
          · exact .inr ‹_›
          · exact .inl below
        · exact .inl inside
      · exact .inr complete

theorem Picks.formed {trivial : Trivial} {same : ValueId} (picks : b.Picks trivial same t)
    (formed : b.Formed strict) : t.Formed strict ∧ b.Collapses t := by
  cases picks with
  | merged => exact ⟨formed, .refl formed⟩
  | nothing => exact formed.undef trivial.type

theorem Picks.trades {worklist : List ValueId} {trivial : Trivial} {same : ValueId} {p : Phi}
    (formed : b.Formed strict) (found : b.nextTrivial worklist = some trivial)
    (complete : b.isCompletePhi trivial.phi = true) (picks : b.Picks trivial same t)
    (cedes : t.Cedes trivial.phi same p) : t.Trades trivial.phi same trivial.type ∧
      (strict = true → ∀ w, t.look same = some w → w.type.admits trivial.type = true) := by
  obtain ⟨home, q, present, _, merged, from_⟩ := (nextTrivial_spec found).1.phi
  obtain ⟨_, _, q', shown, full⟩ := isCompletePhi_iff.mp complete
  cases present.symm.trans shown
  have leads := (picks.formed formed).1.aliased.leads cedes.present cedes.live
  have reps := picks.representative formed.aliased
  cases picks with
  | merged merges =>
      refine ⟨⟨leads, cedes.follows, cedes.distinct, cedes.inside, home, q, present, full,
        fun o member => ?_⟩, fun checked w follower => ?_⟩
      · exact (merged o member).imp_right fun value => Option.some.inj (value.symm.trans merges)
      · obtain ⟨_, o, operand, rep⟩ := from_ same merges
        exact formed.typed checked present o operand w (rep ▸ follower)
  | nothing merges =>
      have look := look_withValue (b := b) ⟨trivial.type, none, .undef⟩
      refine ⟨⟨leads, cedes.follows, cedes.distinct, cedes.inside, home, q, ?_, full,
        fun o member => ?_⟩, fun _ w follower => ?_⟩
      · rw [look, if_neg (Nat.ne_of_lt (lt_of_look present)), present]
      · rw [reps]
        refine (merged o member).imp_right fun value => ?_
        cases merges.symm.trans value
      · rw [look, if_pos rfl] at follower
        cases follower
        exact ValueType.admits_refl _

/-- A phi of the worklist that merges nothing else gives way, and the work goes on with fewer phis. -/
theorem replaceTrivial_ends (n fuel : Nat) (worklist : List ValueId) (formed : b.Formed strict)
    (phis : ∀ id ∈ worklist, b.isCompletePhi id = true)
    (old : ∀ id, b.isPhi id = true → id < n) (enough : b.leaders n < fuel) :
    Ends (replaceTrivial fuel worklist) b (fun _ t => t.Formed strict ∧ b.Collapses t)
      Exhausted := by
  refine replaceTrivial_rule (I := fun steps work t => t.Formed strict ∧ b.Collapses t ∧
    (∀ id ∈ work, t.isCompletePhi id = true) ∧ t.leaders n < steps) (fun now => now.1.aliased)
    ?_ ?_ ?_ ?_ fuel worklist ⟨formed, .refl formed, phis, enough⟩
  · exact fun now => absurd now.2.2.2 (Nat.not_lt_zero _)
  · exact fun _ limit => ⟨rfl, limit⟩
  · exact fun now _ => ⟨now.1, now.2.1⟩
  · intro steps work t trivial same c p now found picks cedes
    obtain ⟨formed, collapses, phis, enough⟩ := now
    obtain ⟨_, member, below⟩ := nextTrivial_spec found
    obtain ⟨formed', added⟩ := picks.formed formed
    obtain ⟨trades, typed⟩ := picks.trades formed found (phis _ member) cedes
    have replaced := c.replaced_replacedBy trivial.phi same p
    have whole := added.trans (replaced.collapses formed' trades)
    have bound : trivial.phi < n :=
      old _ ((collapses.trans added).isPhi (isPhi_of_phiAt cedes.present))
    refine ⟨replaced.formed formed' trades typed, collapses.trans whole, fun id inside => ?_, ?_⟩
    · rcases mem_revisit inside with deep | complete
      · exact whole.isCompletePhi (phis id (below id deep))
      · exact complete
    · have fewer := cedes.leaders_lt formed'.aliased bound
      rw [leaders_congr (picks.representative formed.aliased)] at fewer
      exact Nat.lt_of_lt_of_le fewer (Nat.le_of_lt_succ enough)

theorem removeTrivial_ends (formed : b.Formed strict) {phi : ValueId}
    (complete : b.isCompletePhi phi = true) :
    Ends (removeTrivial phi) b
      (fun same t => t.Formed strict ∧ b.Collapses t ∧ same = t.representative phi) Exhausted := by
  rw [removeTrivial, ends_bind, ends_get, ends_bind]
  have inRange : ∀ id, b.isPhi id = true → id < b.values.size := by
    intro id isPhi
    obtain ⟨_, _, _, present⟩ := isPhi_iff.mp isPhi
    exact lt_of_look present
  refine (replaceTrivial_ends b.values.size _ [phi] formed (by simpa using complete) inRange
    (Nat.lt_succ_of_le (leaders_le b _))).imp ?_
  intro _ t replaced
  exact ⟨replaced.1, replaced.2, rfl⟩

end Builder

end Ssa

end WasmFunclets
