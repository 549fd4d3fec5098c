import WasmFunclets.Proofs.Ssa.Declare

/-! Sealing a block: the phis that waited for its last predecessor get their operands, its arguments
are complete, and what merges nothing is replaced. -/

namespace WasmFunclets.Ssa

theorem Value.Kin.isRead {v w : Value} (kin : v.Kin w) (make : v.IsRead) : w.IsRead := by
  cases make with
  | param type slot => exact kin.eq (by simp) ▸ .param type slot
  | zero type => exact kin.eq (by simp) ▸ .zero type
  | undef type => exact kin.eq (by simp) ▸ .undef type
  | phi type home role =>
      obtain ⟨q, rfl, same⟩ := kin.phi
      exact .phi type home (same.trans role)

namespace Builder

open Attempt

variable {strict : Bool} {written : BlockId → Nat → Prop} {filling : ValueId → Prop}
variable {closing : Option BlockId} {giving : Option (BlockId × Nat)} {a b t u : Builder}
variable {c : BlockId} {o : BlockOutline}

structure Settling (b t : Builder) : Prop where
  grows : b.Grows t
  outline : t.outline = b.outline
  new : ∀ {i : ValueId} {v : Value}, b.values.size ≤ i → t.look i = some v → v.IsRead

theorem Settling.trans (first : b.Settling t) (second : t.Settling u) : b.Settling u where
  grows := first.grows.trans second.grows
  outline := second.outline.trans first.outline
  new {i v} out shown := by
    by_cases old : i < t.values.size
    · obtain ⟨w, before⟩ := look_of_lt old
      obtain ⟨w', found, kin⟩ := second.grows.look before
      rw [shown] at found
      cases found
      exact kin.isRead (first.new out before)
    · exact second.new (Nat.le_of_not_lt old) shown

theorem Reads.settling (reads : b.Reads t) : b.Settling t where
  grows := reads.grows
  outline := reads.outline
  new := reads.added

theorem Settling.refl (formed : b.Formed strict) : b.Settling b := (Reads.refl formed).settling

theorem Retouches.settling {id : ValueId} {type : ValueType} {home : Option BlockId} {p q : Phi}
    (touch : b.Retouches id type home p q t) (formed : b.Formed strict) : b.Settling t where
  grows :=
    { toLater := touch.later formed
      size := Nat.le_of_eq touch.size.symm
      count := Nat.le_of_eq (by rw [touch.blocks])
      knows := fun known => ⟨_, by rwa [touch.definition], by rw [touch.representative]⟩ }
  outline := touch.outline
  new out shown := absurd (touch.size ▸ lt_of_look shown) (Nat.not_lt.mpr out)

theorem Reads.isCompletePhi (reads : b.Reads t) {i : ValueId} (old : i < b.values.size) :
    t.isCompletePhi i = b.isCompletePhi i := by
  rw [Bool.eq_iff_iff, isCompletePhi_iff, isCompletePhi_iff]
  obtain ⟨v, shown⟩ := look_of_lt old
  obtain ⟨w, found, settles⟩ := reads.look shown
  rw [found, shown]
  rcases settles with rfl | ⟨type, home, p, r, rfl, full, rfl⟩
  · exact Iff.rfl
  · exact iff_of_true ⟨_, _, _, rfl, full⟩ ⟨_, _, _, rfl, full⟩

theorem Retouches.isCompletePhi {id : ValueId} {type : ValueType} {home : Option BlockId} {p q : Phi}
    (touch : b.Retouches id type home p q t) {i : ValueId} (keeps : i = id → q.complete = p.complete) :
    t.isCompletePhi i = b.isCompletePhi i := by
  rw [Bool.eq_iff_iff, isCompletePhi_iff, isCompletePhi_iff]
  by_cases own : i = id
  · rw [own, touch.own, touch.before]
    have same := keeps own
    constructor
    · rintro ⟨_, _, _, eq, full⟩
      cases eq
      exact ⟨_, _, _, rfl, same ▸ full⟩
    · rintro ⟨_, _, _, eq, full⟩
      cases eq
      exact ⟨_, _, _, rfl, same.trans full⟩
  · rw [touch.others own]

theorem Flow.close (flow : b.Flow strict written filling none) :
    b.Flow strict written filling closing := by
  refine { flow with complete := fun phi present full => ?_ }
  obtain ⟨size, isSealed | absurd_⟩ := flow.complete phi present full
  · exact ⟨size, .inl isSealed⟩
  · cases absurd_

/-- While a block is being sealed, its waiting phis stay the same. -/
structure Sealing (strict : Bool) (written : BlockId → Nat → Prop) (filling : ValueId → Prop)
    (c : BlockId) (k : Block) (b : Builder) : Prop where
  formed : b.Formed strict
  flow : b.Flow strict written filling (some c)
  ledger : b.Ledger none none
  block : ∃ l, b.blocks[c]? = some l ∧ l.outline = k.outline ∧ l.pending = k.pending
  isOpen : k.isSealed = false

section Waiting

variable {k : Block} {slot : Nat} {phi : ValueId} {type : ValueType}

/-- A read of a local that the block knows makes nothing wait in it. -/
theorem Sealing.looksUp (sealing : b.Sealing strict written filling c k) {start : BlockId}
    {v : ValueId} (known : (b.definition c slot).isSome)
    (answers : b.LooksUp strict written filling (some c) slot start v t) :
    t.Sealing strict written filling c k := by
  obtain ⟨l, present, outline, pending⟩ := sealing.block
  obtain ⟨m, found, alike, ⟨extra, more, fresh⟩, _⟩ := answers.reads.block present
  refine ⟨answers.formed, answers.flow, sealing.ledger.reads answers.reads
    (answers.flow.homes answers.reads), ⟨m, found, alike.outline.trans outline, ?_⟩, sealing.isOpen⟩
  have nothing : extra = #[] := by
    refine Array.eq_empty_iff_forall_not_mem.mpr fun entry member => ?_
    have undefined := fresh entry member
    have listed : (entry.1, entry.2) ∈ m.pending := by
      rw [more]
      exact Array.mem_append_right _ member
    have defined := (answers.flow.pending found listed).2.1
    by_cases same : entry.1 = slot
    · rw [same] at undefined
      rw [undefined] at known
      cases known
    · rw [answers.others c entry.1 same, undefined] at defined
      cases defined
  rw [more, nothing, Array.append_empty, pending]

theorem Sealing.retouch (sealing : b.Sealing strict written filling c k) {later_ : ValueId → Prop}
    {home : Option BlockId} {p q : Phi} (touch : b.Retouches phi type home p q t)
    (formed : t.Formed strict) (flow : t.Flow strict written later_ (some c))
    (ledger : t.Ledger none none) : t.Sealing strict written later_ c k := by
  obtain ⟨l, present, rest⟩ := sealing.block
  exact ⟨formed, flow, ledger, ⟨l, by rw [touch.blocks, present], rest⟩, sealing.isOpen⟩

/-- A placeholder takes the value of its local at the end of a predecessor as its next operand. -/
theorem feedLocal_ends {p : Phi} {pred : Predecessor}
    (sealing : b.Sealing strict written (· = phi) c k) (local_ : b.LocalPhi phi type c slot p)
    (incomplete : p.complete = false) (edge : k.predecessors[p.operands.size]? = some pred)
    (known : (b.definition c slot).isSome) :
    Ends (do feed phi (← getLocal pred.block slot)) b (fun _ t => ∃ v,
      t.Sealing strict written (· = phi) c k ∧ b.Settling t ∧ t.LocalPhi phi type c slot (p.feed v) ∧
      (t.definition c slot).isSome ∧ ∀ i < b.values.size, t.isCompletePhi i = b.isCompletePhi i)
      Exhausted := by
  obtain ⟨l, present, outline, _⟩ := sealing.block
  have edges : l.predecessors = k.predecessors := congrArg BlockOutline.predecessors outline
  have inside := sealing.flow.pred_lt present pred (edges ▸ Array.mem_of_getElem? edge)
  obtain ⟨type_, _⟩ := sealing.flow.slot local_.1 local_.2
  rw [ends_bind]
  refine (getLocal_ends sealing.flow sealing.formed type_ inside).imp ?_
  rintro v b₁ ⟨answers, leads⟩
  have sealing₁ := sealing.looksUp known answers
  have local₁ : b₁.LocalPhi phi type c slot p :=
    ⟨answers.reads.incomplete local_.1 incomplete, local_.2⟩
  obtain ⟨d, defined, same⟩ := answers.known
  have type₁ : b₁.locals[slot]? = some type := answers.reads.locals ▸ type_
  have touch := retouches_fed local₁.1 (answers.formed.stays local₁.1 incomplete) v
  have formed₂ : (b₁.fed phi v).Formed strict := by
    refine touch.formed answers.formed fun operand member => ?_
    rcases Array.mem_push.mp member with old | rfl
    · exact .inl old
    · refine .inr ⟨answers.formed.representative_lt answers.bound, fun checked w leader => ?_⟩
      rw [answers.formed.representative_idem, ← same] at leader
      exact answers.flow.typed checked defined type w type₁ leader
  obtain ⟨l₁, present₁, outline₁, _⟩ := sealing₁.block
  have edges₁ : l₁.predecessors = k.predecessors := congrArg BlockOutline.predecessors outline₁
  have flow₂ : (b₁.fed phi v).Flow strict written (· = phi) (some c) := by
    refine touch.flow answers.formed formed₂ answers.flow (fun _ fills _ => fills)
      (fun {e s m} home role found i operand place => ?_) (fun {e s m} home role found full => ?_)
      fun _ _ _ _ => .inl rfl
    · cases home
      cases local₁.2.symm.trans role
      rw [Phi.feed, Array.getElem?_push] at place
      split at place
      · rename_i last
        cases place
        rw [present₁] at found
        cases found
        refine ⟨pred, d, by rw [edges₁, last, edge], defined, ?_⟩
        rw [same, answers.formed.representative_idem]
      · exact answers.flow.operands local₁ found place
    · rw [Phi.feed, incomplete] at full
      cases full
  have ledger₂ : (b₁.fed phi v).Ledger none none := sealing₁.ledger.retouch touch
    (fun j role => by cases local₁.2.symm.trans role)
    fun j e o' role => by cases local₁.2.symm.trans role
  refine (feed_ends phi (answers.formed.representative_lt answers.bound)).mono ?_
    fun _ _ => False.elim
  rintro _ _ rfl
  refine ⟨b₁.representative v, sealing₁.retouch touch formed₂ flow₂ ledger₂,
    answers.reads.settling.trans (touch.settling answers.formed), ⟨touch.own, local₁.2⟩, ?_,
    fun i old => (touch.isCompletePhi fun _ => rfl).trans (answers.reads.isCompletePhi old)⟩
  rw [touch.definition]
  obtain ⟨d', before⟩ := Option.isSome_iff_exists.mp known
  obtain ⟨d'', after, _⟩ := answers.reads.definition before
  rw [after]
  rfl

/-- A waiting phi takes the definitions at the ends of the next predecessors. -/
theorem feedLocals_ends (rest : List Predecessor) {p : Phi}
    (sealing : b.Sealing strict written (· = phi) c k) (local_ : b.LocalPhi phi type c slot p)
    (incomplete : p.complete = false) (fits : p.operands.size ≤ k.predecessors.size)
    (left : k.predecessors.toList.drop p.operands.size = rest)
    (known : (b.definition c slot).isSome) :
    Ends (rest.forM fun pred => do feed phi (← getLocal pred.block slot)) b (fun _ t =>
      t.Sealing strict written (· = phi) c k ∧ b.Settling t ∧
      (∃ q, t.LocalPhi phi type c slot q ∧ q.complete = false ∧
        q.operands.size = k.predecessors.size) ∧
      ∀ i < b.values.size, t.isCompletePhi i = b.isCompletePhi i) Exhausted := by
  induction rest generalizing b p with
  | nil =>
      have all : k.predecessors.size ≤ p.operands.size := by
        have := List.drop_eq_nil_iff.mp left
        rwa [Array.length_toList] at this
      exact ⟨sealing, .refl sealing.formed, ⟨p, local_, incomplete, Nat.le_antisymm fits all⟩,
        fun _ _ => rfl⟩
  | cons pred rest ih =>
      obtain ⟨below, edge, left⟩ := drop_eq_cons left
      change Ends ((do feed phi (← getLocal pred.block slot)) >>= fun _ =>
        rest.forM fun pred => do feed phi (← getLocal pred.block slot)) b _ _
      rw [ends_bind]
      refine (feedLocal_ends sealing local_ incomplete edge known).imp ?_
      rintro _ b₁ ⟨v, sealing₁, settling₁, local₁, known₁, completes₁⟩
      have size : (p.feed v).operands.size = p.operands.size + 1 := by rw [Phi.feed, Array.size_push]
      refine (ih sealing₁ local₁ incomplete (size ▸ below) (size ▸ left) known₁).imp ?_
      rintro _ t ⟨sealing₂, settling₂, filled, completes₂⟩
      exact ⟨sealing₂, settling₁.trans settling₂, filled, fun i old =>
        (completes₂ i (Nat.lt_of_lt_of_le old settling₁.grows.size)).trans (completes₁ i old)⟩

theorem completeLocal_ends (sealing : b.Sealing strict written (fun _ => False) c k)
    (listed : (slot, phi) ∈ k.pending) (waits : b.isCompletePhi phi = false) :
    Ends (completeLocal slot phi k.predecessors.toList) b (fun _ t =>
      t.Sealing strict written (fun _ => False) c k ∧ b.Settling t ∧ t.isCompletePhi phi = true ∧
      ∀ i < b.values.size, i ≠ phi → t.isCompletePhi i = b.isCompletePhi i) Exhausted := by
  obtain ⟨l, present, outline, pending⟩ := sealing.block
  obtain ⟨_, known, type, p, local_⟩ := sealing.flow.pending present (pending ▸ listed)
  have incomplete : p.complete = false := by
    cases complete : p.complete with
    | false => rfl
    | true =>
        rw [isCompletePhi_iff.mpr ⟨_, _, _, local_.1, complete⟩] at waits
        cases waits
  have nothing : p.operands = #[] := by
    rcases sealing.flow.waits local_ present incomplete with absurd_ | ⟨_, nothing⟩
    · exact absurd_.elim
    · exact nothing
  have sealing' : b.Sealing strict written (· = phi) c k :=
    { sealing with flow := sealing.flow.mono fun _ => False.elim }
  rw [completeLocal, ends_bind]
  refine (feedLocals_ends k.predecessors.toList sealing' local_ incomplete (by simp [nothing])
    (by simp [nothing]) known).imp ?_
  rintro _ b₁ ⟨sealing₁, settling, ⟨q, local₁, incomplete₁, size⟩, completes⟩
  have stays := sealing₁.formed.stays local₁.1 incomplete₁
  have touch := retouches_finish local₁.1 stays
  obtain ⟨l₁, present₁, outline₁, pending₁⟩ := sealing₁.block
  have edges₁ : l₁.predecessors = k.predecessors := congrArg BlockOutline.predecessors outline₁
  have formed₂ : (b₁.onPhi phi Phi.finish).Formed strict := touch.formed sealing₁.formed fun _ => .inl
  have flow₂ : (b₁.onPhi phi Phi.finish).Flow strict written (fun _ => False) (some c) := by
    refine touch.flow sealing₁.formed formed₂ sealing₁.flow (fun i same other => other same)
      (fun {e s m} home role found i operand place => ?_) (fun {e s m} home role found full => ?_)
      (fun _ _ _ absurd_ => nomatch absurd_)
    · cases home
      exact sealing₁.flow.operands ⟨local₁.1, role⟩ found place
    · cases home
      rw [present₁] at found
      cases found
      exact ⟨by rw [edges₁]; exact size, .inr rfl⟩
  have ledger₂ : (b₁.onPhi phi Phi.finish).Ledger none none := sealing₁.ledger.retouch touch
    (fun j role => by cases local₁.2.symm.trans role)
    fun j e o' role => by cases local₁.2.symm.trans role
  rw [ends_bind, ends_modifyPhi, ends_bind]
  have complete₂ : (b₁.onPhi phi Phi.finish).isCompletePhi phi = true :=
    isCompletePhi_iff.mpr ⟨_, _, _, touch.own, rfl⟩
  refine (removeTrivial_ends formed₂ complete₂).imp ?_
  rintro _ t ⟨formed₃, collapses, _⟩
  have flow₃ := flow₂.collapses formed₂ collapses formed₃
  rw [ends_pure]
  refine ⟨⟨formed₃, flow₃, ledger₂.reads collapses.reads (flow₃.homes collapses.reads),
    ⟨l₁, by rw [collapses.blocks]; exact present₁, outline₁, pending₁⟩, sealing.isOpen⟩,
    (settling.trans (touch.settling sealing₁.formed)).trans collapses.reads.settling,
    collapses.isCompletePhi complete₂, fun i old other => ?_⟩
  have old₁ := Nat.lt_of_lt_of_le old settling.grows.size
  rw [collapses.reads.isCompletePhi (touch.size ▸ old₁), touch.isCompletePhi fun same => absurd same other,
    completes i old]

theorem completeAll_ends (entries : List (Nat × ValueId))
    (sealing : b.Sealing strict written (fun _ => False) c k)
    (listed : ∀ entry ∈ entries, entry ∈ k.pending) (nodup : (entries.map Prod.snd).Nodup)
    (waits : ∀ entry ∈ entries, b.isCompletePhi entry.2 = false) :
    Ends (entries.forM fun (slot, phi) => completeLocal slot phi k.predecessors.toList) b
      (fun _ t => t.Sealing strict written (fun _ => False) c k ∧ b.Settling t ∧
        (∀ entry ∈ entries, t.isCompletePhi entry.2 = true) ∧
        ∀ i < b.values.size, i ∉ entries.map Prod.snd → t.isCompletePhi i = b.isCompletePhi i)
      Exhausted := by
  -- The entries have different phis, so completing one leaves the others waiting.
  induction entries generalizing b with
  | nil => exact ⟨sealing, .refl sealing.formed, by simp, fun _ _ _ => rfl⟩
  | cons entry rest ih =>
      obtain ⟨slot, phi⟩ := entry
      rw [List.map_cons, List.nodup_cons] at nodup
      obtain ⟨l, present, _, pending⟩ := sealing.block
      have bound {e : Nat × ValueId} (member : e ∈ k.pending) : e.2 < b.values.size := by
        obtain ⟨_, _, _, _, local_⟩ := sealing.flow.pending present (pending ▸ member : (e.1, e.2) ∈ _)
        exact lt_of_look local_.1
      change Ends (completeLocal slot phi k.predecessors.toList >>= fun _ =>
        rest.forM fun (slot, phi) => completeLocal slot phi k.predecessors.toList) b _ _
      rw [ends_bind]
      refine (completeLocal_ends sealing (listed _ List.mem_cons_self)
        (waits _ List.mem_cons_self)).imp ?_
      rintro _ b₁ ⟨sealing₁, settling, complete, others⟩
      have other {e : Nat × ValueId} (member : e ∈ rest) : e.2 ≠ phi := fun same => by
        have inside := List.mem_map_of_mem (f := Prod.snd) member
        rw [same] at inside
        exact nodup.1 inside
      refine (ih sealing₁ (fun e member => listed e (List.mem_cons_of_mem _ member)) nodup.2
        fun e member => ?_).imp ?_
      · rw [others e.2 (bound (listed e (List.mem_cons_of_mem _ member))) (other member)]
        exact waits e (List.mem_cons_of_mem _ member)
      · rintro _ t ⟨sealing₂, settling', each, others'⟩
        refine ⟨sealing₂, settling.trans settling', fun e member => ?_, fun i old out => ?_⟩
        · rcases List.mem_cons.mp member with rfl | deeper
          · have old := Nat.lt_of_lt_of_le (bound (listed _ List.mem_cons_self)) settling.grows.size
            rw [others' phi old nodup.1, complete]
          · exact each e deeper
        · rw [List.map_cons] at out
          rw [others' i (Nat.lt_of_lt_of_le old settling.grows.size)
            fun member => out (List.mem_cons_of_mem _ member),
            others i old (List.ne_of_not_mem_cons out)]

def HasPlaceholder (b : Builder) (c : BlockId) (slot : Nat) (phi : ValueId) : Prop :=
  ∃ l, b.blocks[c]? = some l ∧ l.definitions[slot]? = some (.placeholder phi)

theorem confirm_ends (sealing : b.Sealing strict written (fun _ => False) c k)
    (listed : (slot, phi) ∈ k.pending) : Ends (confirm c slot phi) b (fun _ t =>
      t.Sealing strict written (fun _ => False) c k ∧ b.Reads t ∧ ∀ s i, t.HasPlaceholder c s i →
        b.HasPlaceholder c s i ∧ (s, i) ≠ (slot, phi)) fun _ _ => False := by
  obtain ⟨l, present, outline, pending⟩ := sealing.block
  obtain ⟨_, known, type, p, local_⟩ := sealing.flow.pending present (pending ▸ listed)
  obtain ⟨type_, _⟩ := sealing.flow.slot local_.1 local_.2
  rw [confirm, ends_bind, ends_blockAt present, ends_ite]
  constructor
  · intro waits
    rw [ends_bind, ends_get, ends_define]
    have inside : ∀ e ∈ [c], e < b.blocks.size := by simpa using lt_of_block present
    have idem := sealing.formed.representative_idem phi
    have agrees : ∀ e ∈ [c], ∀ d, b.definition e slot = some d →
        b.representative d = b.representative (b.representative phi) := by
      intro e member d defined
      obtain rfl := List.mem_singleton.mp member
      rw [definition_of_block present, waits] at defined
      cases defined
      exact idem.symm
    have formed' : (b.defining [c] slot (.final (b.representative phi))).Formed strict :=
      sealing.formed.congr (values_defining ..) (substitution_defining ..)
    have reads := Reads.defining sealing.formed inside agrees
    have flow' : (b.defining [c] slot (.final (b.representative phi))).Flow strict written
        (fun _ => False) (some c) := by
      refine sealing.flow.defining sealing.formed inside agrees
        (sealing.formed.representative_lt (lt_of_look local_.1)) type_ (fun e member => ?_)
        fun checked w leader => ?_
      · cases List.mem_singleton.mp member
        exact StartsWith.phi (by rw [look_defining]; exact local_.1) local_.2
          (by rw [representative_defining, idem])
      · rw [idem] at leader
        exact sealing.formed.leader_typed checked local_.1 leader
    obtain ⟨m, found, alike, pending', definitions⟩ :=
      block_defining [c] slot (.final (b.representative phi)) present
    refine ⟨⟨formed', flow', sealing.ledger.reads reads (flow'.homes reads),
      ⟨m, found, alike.outline.trans outline, pending'.trans pending⟩, sealing.isOpen⟩, reads,
      fun s i waiting => ?_⟩
    obtain ⟨m', found', here⟩ := waiting
    cases found'.symm.trans found
    rw [definitions] at here
    split at here
    · cases here
    · rename_i other
      refine ⟨⟨l, present, here⟩, ?_⟩
      rintro ⟨⟩
      exact other ⟨List.mem_singleton_self c, rfl⟩
  · intro idle
    refine ⟨sealing, .refl sealing.formed, fun s i waiting => ⟨waiting, ?_⟩⟩
    rintro ⟨⟩
    obtain ⟨m, found, here⟩ := waiting
    rw [present] at found
    cases found
    exact idle here

theorem confirmAll_ends (entries : List (Nat × ValueId))
    (sealing : b.Sealing strict written (fun _ => False) c k)
    (listed : ∀ entry ∈ entries, entry ∈ k.pending) :
    Ends (entries.forM fun (slot, phi) => confirm c slot phi) b (fun _ t =>
      t.Sealing strict written (fun _ => False) c k ∧ b.Reads t ∧ ∀ s i, t.HasPlaceholder c s i →
        b.HasPlaceholder c s i ∧ (s, i) ∉ entries) fun _ _ => False := by
  induction entries generalizing b with
  | nil => exact ⟨sealing, .refl sealing.formed, fun _ _ waiting => ⟨waiting, by simp⟩⟩
  | cons entry rest ih =>
      obtain ⟨slot, phi⟩ := entry
      change Ends (confirm c slot phi >>= fun _ => rest.forM fun (slot, phi) => confirm c slot phi) b _ _
      rw [ends_bind]
      refine (confirm_ends sealing (listed _ List.mem_cons_self)).imp ?_
      rintro _ b₁ ⟨sealing₁, reads, settled⟩
      refine (ih sealing₁ fun e member => listed e (List.mem_cons_of_mem _ member)).imp ?_
      rintro _ t ⟨sealing₂, reads', settled'⟩
      refine ⟨sealing₂, reads.trans reads', fun s i waiting => ?_⟩
      obtain ⟨waiting', out⟩ := settled' s i waiting
      obtain ⟨waiting'', other⟩ := settled s i waiting'
      refine ⟨waiting'', fun member => ?_⟩
      rcases List.mem_cons.mp member with same | deeper
      · exact other same
      · exact out deeper

end Waiting

def emptied (b : Builder) (c : BlockId) : Builder := b.onBlock c fun k => { k with pending := #[] }

theorem outline_emptied : (b.emptied c).outline = b.outline := by
  funext e
  rw [emptied, @outline_onBlock b c (fun k => { k with pending := #[] }) id fun _ => rfl]
  split
  · exact Option.map_id_apply
  · rfl

theorem definition_emptied : (b.emptied c).definition = b.definition :=
  definition_onBlock c fun _ => rfl

theorem Later.emptied (formed : b.Formed strict) : b.Later (b.emptied c) where
  locals := rfl
  paramCount := rfl
  block {e k} present := by
    rw [Builder.emptied, block_onBlock]
    split
    · rw [present]
      exact ⟨_, rfl, rfl, .refl _, fun still => ⟨still, rfl⟩⟩
    · exact ⟨k, present, rfl, .refl _, fun still => ⟨still, rfl⟩⟩
  look present := ⟨_, present, .refl _⟩
  representative := formed.representative_idem
  definition known _ := ⟨_, by rwa [definition_emptied], rfl⟩

theorem settling_emptied (formed : b.Formed strict) : b.Settling (b.emptied c) where
  grows :=
    { toLater := .emptied formed
      size := Nat.le_refl _
      count := Nat.le_of_eq (size_onBlock _ _).symm
      knows := fun known => ⟨_, by rwa [definition_emptied], rfl⟩ }
  outline := outline_emptied
  new out shown := absurd (lt_of_look shown) (Nat.not_lt.mpr out)

theorem Flow.emptied (flow : b.Flow strict written (fun _ => False) closing)
    (formed : b.Formed strict) {k : Block} (present : b.blocks[c]? = some k)
    (done : ∀ entry ∈ k.pending, b.isCompletePhi entry.2 = true) (idle : ∀ s i, ¬ b.HasPlaceholder c s i) :
    (b.emptied c).Flow strict written (fun _ => False) closing := by
  have back {e : BlockId} {l : Block} (shown : (b.emptied c).blocks[e]? = some l) :
      ∃ m, b.blocks[e]? = some m ∧ m.Alike l ∧ l.definitions = m.definitions ∧
        (l.pending = m.pending ∧ e ≠ c ∨ e = c ∧ m = k ∧ l.pending = #[]) := by
    rw [Builder.emptied, block_onBlock] at shown
    split at shown
    · rename_i here
      rw [here, present] at shown
      cases shown
      exact ⟨k, here ▸ present, ⟨rfl, rfl, rfl, rfl, rfl⟩, rfl, .inr ⟨here, rfl, rfl⟩⟩
    · exact ⟨l, shown, .refl l, rfl, .inl ⟨rfl, ‹_›⟩⟩
  obtain ⟨entry, entry_kind, pred_lt, slot, operands, complete, waits, pending, pending_nodup,
    placeholder, definition_lt, starts, typed⟩ := flow
  constructor
  case entry =>
    obtain ⟨m, found, isSealed, none_, args⟩ := entry
    obtain ⟨l, shown⟩ := block_of_lt (b := b.emptied c) (c := entryId)
      (by rw [Builder.emptied, size_onBlock]; exact lt_of_block found)
    obtain ⟨m', found', alike, _⟩ := back shown
    rw [found] at found'
    cases found'
    exact ⟨l, shown, by rw [alike.isSealed, isSealed], by rw [alike.predecessors, none_],
      by rw [alike.args, args]⟩
  case entry_kind =>
    intro e l shown
    obtain ⟨m, found, alike, _⟩ := back shown
    rw [alike.kind, entry_kind found]
  case pred_lt =>
    intro e l shown pred member
    obtain ⟨m, found, alike, _⟩ := back shown
    rw [Builder.emptied, size_onBlock]
    exact pred_lt found pred (alike.predecessors ▸ member)
  case slot =>
    rw [definition_emptied]
    exact slot
  case operands =>
    intro id type e s p l local_ shown
    obtain ⟨m, found, alike, _⟩ := back shown
    rw [definition_emptied, alike.predecessors]
    exact operands local_ found
  case complete =>
    intro id type e s p l local_ shown
    obtain ⟨m, found, alike, _⟩ := back shown
    rw [alike.predecessors, alike.isSealed]
    exact complete local_ found
  case waits =>
    intro id type e s p l local_ shown incomplete
    obtain ⟨m, found, alike, _, ⟨same, _⟩ | ⟨rfl, rfl, none_⟩⟩ := back shown
    · rw [same]
      exact waits local_ found incomplete
    · rcases waits local_ found incomplete with absurd_ | ⟨listed, _⟩
      · exact absurd_.elim
      -- what waited in this block is complete by now
      · obtain ⟨_, _, q, before, full⟩ := isCompletePhi_iff.mp (done _ listed)
        have shown' : b.look id = _ := local_.1
        rw [before] at shown'
        cases shown'
        rw [incomplete] at full
        cases full
  case pending =>
    intro e l s id shown waiting
    obtain ⟨m, found, alike, _, ⟨same, _⟩ | ⟨rfl, rfl, none_⟩⟩ := back shown
    · rw [definition_emptied, alike.isSealed]
      exact pending found (same ▸ waiting)
    · rw [none_] at waiting
      simp at waiting
  case pending_nodup =>
    intro e l shown
    obtain ⟨m, found, alike, _, ⟨same, _⟩ | ⟨rfl, rfl, none_⟩⟩ := back shown
    · rw [same]
      exact pending_nodup found
    · rw [none_]
      exact List.nodup_nil
  case placeholder =>
    intro e l s id shown defined
    obtain ⟨m, found, alike, definitions, ⟨same, _⟩ | ⟨rfl, rfl, none_⟩⟩ := back shown
    · rw [same]
      exact placeholder found (definitions ▸ defined)
    · exact absurd ⟨m, found, definitions ▸ defined⟩ (idle s id)
  case definition_lt =>
    rw [definition_emptied]
    exact definition_lt
  case starts =>
    rw [definition_emptied]
    intro e s d defined
    exact (starts defined).imp_right (.later (.emptied formed) (formed.congr rfl rfl))
  case typed =>
    rw [definition_emptied]
    exact typed

theorem finishAll_ends {phis : List ValueId} (formed : b.Formed strict)
    (flow : b.Flow strict written (fun _ => False) closing) (ledger : b.Ledger (some c) none)
    (nodup : phis.Nodup) (each : ∀ phi ∈ phis, ∃ type j p, b.ArgumentPhi phi type c j p ∧
      p.complete = false) :
    Ends (phis.forM fun phi => modifyPhi phi fun p => { p with complete := true }) b (fun _ t =>
      t.Formed strict ∧ t.Flow strict written (fun _ => False) closing ∧ t.Ledger (some c) none ∧
      b.Settling t ∧ t.blocks = b.blocks ∧ (∀ phi ∈ phis, t.isCompletePhi phi = true) ∧
      ∀ i, i ∉ phis → t.isCompletePhi i = b.isCompletePhi i) fun _ _ => False := by
  induction phis generalizing b with
  | nil => exact ⟨formed, flow, ledger, .refl formed, rfl, by simp, fun _ _ => rfl⟩
  | cons phi phis ih =>
      obtain ⟨fresh, nodup⟩ := List.nodup_cons.mp nodup
      obtain ⟨type, j, p, shown, incomplete⟩ := each phi List.mem_cons_self
      have touch := retouches_finish shown.1 (formed.stays shown.1 incomplete)
      have formed' : (b.onPhi phi Phi.finish).Formed strict := touch.formed formed fun _ => .inl
      have noLocal {s : Nat} (role : p.finish.role = .local s) : False := by
        cases shown.2.symm.trans role
      have flow' : (b.onPhi phi Phi.finish).Flow strict written (fun _ => False) closing :=
        touch.flow formed formed' flow (fun _ fills _ => fills) (fun _ role => (noLocal role).elim)
          (fun _ role => (noLocal role).elim) fun _ role => (noLocal role).elim
      have ledger' : (b.onPhi phi Phi.finish).Ledger (some c) none := by
        refine ledger.retouch touch (fun _ _ => rfl) fun j e o' _ home _ => ?_
        cases home
        exact ⟨fun _ => rfl, fun _ => .inr rfl⟩
      change Ends (modifyPhi phi Phi.finish >>= fun _ =>
        phis.forM fun phi => modifyPhi phi fun p => { p with complete := true }) b _ _
      rw [ends_bind, ends_modifyPhi]
      refine (ih formed' flow' ledger' nodup fun phi' member => ?_).imp ?_
      · obtain ⟨type', j', p', shown', incomplete'⟩ := each phi' (List.mem_cons_of_mem _ member)
        have other : phi' ≠ phi := fun same => fresh (same ▸ member)
        exact ⟨type', j', p', ⟨by rw [touch.others other, shown'.1], shown'.2⟩, incomplete'⟩
      · rintro _ t ⟨formed'', flow'', ledger'', settling, blocks, full, others⟩
        refine ⟨formed'', flow'', ledger'', (touch.settling formed).trans settling, blocks,
          fun phi' member => ?_, fun i out => ?_⟩
        · rcases List.mem_cons.mp member with rfl | deeper
          · rw [others phi' fresh]
            exact isCompletePhi_iff.mpr ⟨_, _, _, touch.own, rfl⟩
          · exact full phi' deeper
        · rw [others i fun member => out (List.mem_cons_of_mem _ member),
            touch.isCompletePhi fun same => absurd same (List.ne_of_not_mem_cons out)]

theorem removeAll_ends {phis : List ValueId} (formed : b.Formed strict)
    (flow : b.Flow strict written (fun _ => False) closing) (ledger : b.Ledger (some c) none)
    (full : ∀ phi ∈ phis, b.isCompletePhi phi = true) :
    Ends (phis.forM fun phi => do let _ ← removeTrivial phi) b (fun _ t =>
      t.Formed strict ∧ t.Flow strict written (fun _ => False) closing ∧ t.Ledger (some c) none ∧
      b.Collapses t) Exhausted := by
  induction phis generalizing b with
  | nil => exact ⟨formed, flow, ledger, .refl formed⟩
  | cons phi phis ih =>
      change Ends ((do let _ ← removeTrivial phi) >>= fun _ =>
        phis.forM fun phi => do let _ ← removeTrivial phi) b _ _
      rw [ends_bind, ends_bind]
      refine (removeTrivial_ends formed (full phi List.mem_cons_self)).imp ?_
      rintro _ b₁ ⟨formed₁, collapses, _⟩
      have flow₁ := flow.collapses formed collapses formed₁
      refine (ih formed₁ flow₁ (ledger.reads collapses.reads (flow₁.homes collapses.reads))
        fun phi' member => collapses.isCompletePhi (full phi' (List.mem_cons_of_mem _ member))).imp ?_
      rintro _ t ⟨formed₂, flow₂, ledger₂, collapses'⟩
      exact ⟨formed₂, flow₂, ledger₂, collapses.trans collapses'⟩

theorem Ledger.close (ledger : b.Ledger none giving) : b.Ledger closing giving :=
  { ledger with
    complete := fun phi present =>
      ⟨(ledger.complete phi present).1, fun full => by
        rcases (ledger.complete phi present).2 full with isSealed | absurd_
        · exact .inl isSealed
        · cases absurd_⟩ }

def closed (b : Builder) (c : BlockId) : Builder := b.onBlock c fun k => { k with isSealed := true }

theorem outline_closed (c e : BlockId) : (b.closed c).outline e =
    if e = c then (b.outline e).map fun o => { o with isSealed := true } else b.outline e :=
  outline_onBlock c (f := fun o => { o with isSealed := true }) (fun _ => rfl) e

theorem definition_closed : (b.closed c).definition = b.definition :=
  definition_onBlock c fun _ => rfl

theorem back_closed {e : BlockId} {l : Block} (shown : (b.closed c).blocks[e]? = some l) :
    ∃ k, b.blocks[e]? = some k ∧ l.kind = k.kind ∧ l.predecessors = k.predecessors ∧
      l.args = k.args ∧ l.definitions = k.definitions ∧ l.pending = k.pending ∧
      (l.isSealed = k.isSealed ∧ e ≠ c ∨ l.isSealed = true ∧ e = c) := by
  rw [closed, block_onBlock] at shown
  split at shown
  · obtain ⟨k, before, rfl⟩ := Option.map_eq_some_iff.mp shown
    exact ⟨k, before, rfl, rfl, rfl, rfl, rfl, .inr ⟨rfl, ‹_›⟩⟩
  · exact ⟨l, shown, rfl, rfl, rfl, rfl, rfl, .inl ⟨rfl, ‹_›⟩⟩

theorem grows_closed (formed : b.Formed strict) : b.Grows (b.closed c) where
  locals := rfl
  paramCount := rfl
  block {e k} present := by
    obtain ⟨l, found⟩ := block_of_lt (b := b.closed c) (c := e)
      (by rw [closed, size_onBlock]; exact lt_of_block present)
    obtain ⟨k', before, kind, edges, _, _, _, ⟨same, _⟩ | ⟨still, _⟩⟩ := back_closed found
    · cases present.symm.trans before
      exact ⟨l, found, kind, by rw [edges]; exact .refl _, fun still => ⟨same.trans still, edges⟩⟩
    · cases present.symm.trans before
      exact ⟨l, found, kind, by rw [edges]; exact .refl _, fun _ => ⟨still, edges⟩⟩
  look present := ⟨_, present, .refl _⟩
  representative := formed.representative_idem
  definition known _ := ⟨_, by rwa [definition_closed], rfl⟩
  size := Nat.le_refl _
  count := Nat.le_of_eq (size_onBlock _ _).symm
  knows known := ⟨_, by rwa [definition_closed], rfl⟩

theorem Flow.closed (flow : b.Flow strict written filling (some c)) (formed : b.Formed strict)
    {k : Block} (present : b.blocks[c]? = some k) (done : k.pending = #[]) :
    (b.closed c).Flow strict written filling none := by
  obtain ⟨entry, entry_kind, pred_lt, slot, operands, complete, waits, pending, pending_nodup,
    placeholder, definition_lt, starts, typed⟩ := flow
  constructor
  case entry =>
    obtain ⟨m, found, isSealed, none_, args⟩ := entry
    obtain ⟨l, shown⟩ := block_of_lt (b := b.closed c) (c := entryId)
      (by rw [Builder.closed, size_onBlock]; exact lt_of_block found)
    obtain ⟨m', found', _, edges, args', _, _, still⟩ := back_closed shown
    cases found.symm.trans found'
    refine ⟨l, shown, ?_, edges.trans none_, args'.trans args⟩
    rcases still with ⟨same, _⟩ | ⟨now, _⟩
    · exact same.trans isSealed
    · exact now
  case entry_kind =>
    intro e l shown
    obtain ⟨m, found, kind, _⟩ := back_closed shown
    rw [kind, entry_kind found]
  case pred_lt =>
    intro e l shown pred member
    obtain ⟨m, found, _, edges, _⟩ := back_closed shown
    rw [Builder.closed, size_onBlock]
    exact pred_lt found pred (edges ▸ member)
  case slot =>
    rw [definition_closed]
    exact slot
  case operands =>
    intro id type e s p l local_ shown
    obtain ⟨m, found, _, edges, _⟩ := back_closed shown
    rw [definition_closed, edges]
    exact operands local_ found
  case complete =>
    intro id type e s p l local_ shown full
    obtain ⟨m, found, _, edges, _, _, _, still⟩ := back_closed shown
    obtain ⟨size, finished⟩ := complete local_ found full
    refine ⟨edges ▸ size, .inl ?_⟩
    -- only the block that is sealed now has complete phis without being sealed
    rcases still with ⟨same, other⟩ | ⟨now, _⟩
    · rcases finished with isSealed | here
      · exact same.trans isSealed
      · cases here
        exact absurd rfl other
    · exact now
  case waits =>
    intro id type e s p l local_ shown incomplete
    obtain ⟨m, found, _, _, _, _, same, _⟩ := back_closed shown
    rw [same]
    exact waits local_ found incomplete
  case pending =>
    intro e l s id shown waiting
    obtain ⟨m, found, _, _, _, _, same, ⟨still, _⟩ | ⟨_, rfl⟩⟩ := back_closed shown
    · rw [definition_closed, still]
      exact pending found (same ▸ waiting)
    · cases present.symm.trans found
      rw [same, done] at waiting
      simp at waiting
  case pending_nodup =>
    intro e l shown
    obtain ⟨m, found, _, _, _, _, same, _⟩ := back_closed shown
    rw [same]
    exact pending_nodup found
  case placeholder =>
    intro e l s id shown defined
    obtain ⟨m, found, _, _, _, definitions, same, _⟩ := back_closed shown
    rw [same]
    exact placeholder found (definitions ▸ defined)
  case definition_lt =>
    rw [definition_closed]
    exact definition_lt
  case starts =>
    rw [definition_closed]
    intro e s d defined
    exact (starts defined).imp_right (.later (grows_closed formed).toLater (formed.congr rfl rfl))
  case typed =>
    rw [definition_closed]
    exact typed

theorem Ledger.closed (ledger : b.Ledger (some c) none) (present : b.outline c = some o)
    (full : ∀ phis, o.args = some phis → ∀ phi ∈ phis, b.isCompletePhi phi = true) :
    (b.closed c).Ledger none none := by
  have back {e : BlockId} {o' : BlockOutline} (shown : (b.closed c).outline e = some o') :
      ∃ o'', b.outline e = some o'' ∧ o'.predecessors = o''.predecessors ∧ o'.args = o''.args ∧
        o'.body = o''.body ∧ (o'.isSealed = o''.isSealed ∧ e ≠ c ∨
          e = c ∧ o'' = o ∧ o'.isSealed = true) := by
    rw [outline_closed] at shown
    split at shown
    · rename_i here
      obtain ⟨o'', before, rfl⟩ := Option.map_eq_some_iff.mp shown
      rw [here, present] at before
      cases before
      exact ⟨o, here ▸ present, rfl, rfl, rfl, .inr ⟨here, rfl, rfl⟩⟩
    · exact ⟨o', shown, rfl, rfl, rfl, .inl ⟨rfl, ‹_›⟩⟩
  constructor
  case home_lt =>
    intro i v e shown home
    rw [Builder.closed, size_onBlock]
    exact ledger.home_lt shown home
  case body =>
    intro e o' shown i
    obtain ⟨o'', before, _, _, body, _⟩ := back shown
    rw [body]
    exact ledger.body before i
  case body_nodup =>
    intro e o' shown
    obtain ⟨o'', before, _, _, body, _⟩ := back shown
    rw [body]
    exact ledger.body_nodup before
  case carried_lt =>
    intro e o' shown
    obtain ⟨o'', before, edges, _⟩ := back shown
    rw [edges]
    exact ledger.carried_lt before
  case argument =>
    intro e o' phis shown args
    obtain ⟨o'', before, _, args', _⟩ := back shown
    exact ledger.argument before (args' ▸ args)
  case listed =>
    intro i type e j p o' phi shown
    obtain ⟨o'', before, _, args', _⟩ := back shown
    rw [args']
    exact ledger.listed phi before
  case carried =>
    intro e o' phis shown args
    obtain ⟨o'', before, edges, args', _⟩ := back shown
    rw [edges]
    exact ledger.carried before (args' ▸ args)
  case operands =>
    intro i type e j p o' phi shown
    obtain ⟨o'', before, edges, _⟩ := back shown
    rw [edges]
    exact ledger.operands phi before
  case complete =>
    intro i type e j p o' phi shown
    obtain ⟨o'', before, _, _, _, ⟨same, other⟩ | ⟨rfl, rfl, now⟩⟩ := back shown
    · rw [same]
      refine ⟨(ledger.complete phi before).1, fun complete => ?_⟩
      rcases (ledger.complete phi before).2 complete with isSealed | here
      · exact .inl isSealed
      · cases here
        exact absurd rfl other
    · refine ⟨fun _ => ?_, fun _ => .inl now⟩
      obtain ⟨phis, args, place⟩ := ledger.listed phi before
      obtain ⟨_, _, q, shown', complete⟩ :=
        isCompletePhi_iff.mp (full phis args i (Array.mem_of_getElem? place))
      cases shown'.symm.trans phi.1
      exact complete

structure Seals (b : Builder) (c : BlockId) (t : Builder) : Prop where
  grows : b.Grows t
  count : t.blocks.size = b.blocks.size
  new : ∀ {i : ValueId} {v : Value}, b.values.size ≤ i → t.look i = some v → v.IsRead
  outline : ∀ e, t.outline e =
    if e = c then (b.outline e).map fun o => { o with isSealed := true } else b.outline e

/-- A block that has been sealed stays as it is. -/
theorem Seals.of_sealed (formed : b.Formed strict) {k : Block} (present : b.blocks[c]? = some k)
    (isSealed : k.isSealed = true) : b.Seals c b where
  grows := .refl formed
  count := rfl
  new out shown := absurd (lt_of_look shown) (Nat.not_lt.mpr out)
  outline e := by
    split
    · rename_i here
      rw [here, outline_of_block present, Option.map_some, Block.outline, isSealed]
    · rfl

section Stages

variable {k : Block}

theorem Consistent.sealing (sound : b.Consistent strict written) (present : b.blocks[c]? = some k)
    (isOpen : k.isSealed = false) : b.Sealing strict written (fun _ => False) c k :=
  ⟨sound.formed, sound.flow.close, sound.ledger, ⟨k, present, rfl, rfl⟩, isOpen⟩

theorem Consistent.waits (sound : b.Consistent strict written) (present : b.blocks[c]? = some k)
    (isOpen : k.isSealed = false) : ∀ entry ∈ k.pending.toList, b.isCompletePhi entry.2 = false := by
  intro ⟨slot, phi⟩ member
  obtain ⟨_, _, type, p, local_⟩ := sound.flow.pending present (Array.mem_toList_iff.mp member)
  rw [Bool.eq_false_iff]
  intro full
  obtain ⟨_, _, q, shown, complete⟩ := isCompletePhi_iff.mp full
  cases shown.symm.trans local_.1
  obtain ⟨_, still | closes⟩ := sound.flow.complete local_ present complete
  · cases isOpen.symm.trans still
  · cases closes

/-- A block of which the locals are done: it waits for nothing, but is not sealed yet. -/
structure Emptied (strict : Bool) (written : BlockId → Nat → Prop) (c : BlockId) (k : Block)
    (b : Builder) : Prop where
  formed : b.Formed strict
  flow : b.Flow strict written (fun _ => False) (some c)
  ledger : b.Ledger none none
  outline : b.outline c = some k.outline
  pending : ∀ l, b.blocks[c]? = some l → l.pending = #[]

/-- Behind the loops over the phis that waited, all of which are complete and no placeholders any more. -/
theorem Sealing.emptied (sealing : b.Sealing strict written (fun _ => False) c k)
    (full : ∀ entry ∈ k.pending.toList, b.isCompletePhi entry.2 = true)
    (sealing' : t.Sealing strict written (fun _ => False) c k) (reads : b.Reads t)
    (confirmed : ∀ s i, t.HasPlaceholder c s i → b.HasPlaceholder c s i ∧ (s, i) ∉ k.pending.toList) :
    (t.emptied c).Emptied strict written c k := by
  obtain ⟨l, present, outline, pending⟩ := sealing'.block
  have idle (s : Nat) (i : ValueId) : ¬ t.HasPlaceholder c s i := by
    intro awaits
    obtain ⟨⟨m, found, defined⟩, out⟩ := confirmed s i awaits
    obtain ⟨m', found', _, waiting⟩ := sealing.block
    cases found'.symm.trans found
    exact out (Array.mem_toList_iff.mpr (waiting ▸ sealing.flow.placeholder found' defined))
  have done : ∀ entry ∈ l.pending, t.isCompletePhi entry.2 = true := by
    intro entry member
    rw [pending] at member
    have complete := full entry (Array.mem_toList_iff.mpr member)
    obtain ⟨_, _, _, shown, _⟩ := isCompletePhi_iff.mp complete
    rw [reads.isCompletePhi (lt_of_look shown), complete]
  refine
    { formed := sealing'.formed.congr rfl rfl
      flow := sealing'.flow.emptied sealing'.formed present done idle
      ledger := sealing'.ledger.of_outline rfl rfl (size_onBlock _ _) outline_emptied
      outline := ?_
      pending := fun m found => ?_ }
  · rw [outline_emptied, outline_of_block present, outline]
  · rw [Builder.emptied, block_onBlock, if_pos rfl, present] at found
    cases found
    rfl

theorem getElem?_of_mem_argIds {phi : ValueId} (member : phi ∈ k.argIds) :
    ∃ (j : Nat) (phis : Array ValueId), k.outline.args = some phis ∧ phis[j]? = some phi := by
  rw [Block.argIds, Array.mem_toList_iff] at member
  cases given : k.args with
  | none =>
      rw [given] at member
      simp at member
  | some phis =>
      rw [given] at member
      obtain ⟨j, place⟩ := Array.mem_iff_getElem?.mp member
      exact ⟨j, phis, given, place⟩

theorem Ledger.nodup_argIds (ledger : b.Ledger closing giving) (present : b.outline c = some k.outline) :
    k.argIds.Nodup := by
  cases given : k.args with
  | none =>
      rw [Block.argIds, given]
      exact List.nodup_nil
  | some phis =>
      rw [Block.argIds, given]
      exact ledger.nodup present given

theorem Emptied.arguments (emptied : b.Emptied strict written c k) (isOpen : k.isSealed = false) :
    ∀ phi ∈ k.argIds, ∃ type j p, b.ArgumentPhi phi type c j p ∧ p.complete = false := by
  intro phi member
  obtain ⟨j, phis, args, place⟩ := getElem?_of_mem_argIds member
  obtain ⟨type, p, shown⟩ := emptied.ledger.argument emptied.outline args place
  exact ⟨type, j, p, shown, emptied.ledger.incomplete shown emptied.outline isOpen⟩

/-- The arguments are complete, too, and nothing but the mark is missing. -/
theorem Settling.seals (settling : b.Settling t) (present : b.blocks[c]? = some k)
    (formed : t.Formed strict) (flow : t.Flow strict written (fun _ => False) (some c))
    (ledger : t.Ledger (some c) none) (pending : ∀ l, t.blocks[c]? = some l → l.pending = #[])
    (full : ∀ phi ∈ k.argIds, t.isCompletePhi phi = true) :
    (t.closed c).Consistent strict written ∧ b.Seals c (t.closed c) := by
  obtain ⟨l, found⟩ := block_of_lt (Nat.lt_of_lt_of_le (lt_of_block present) settling.grows.count)
  have outline : t.outline c = some k.outline := by
    rw [settling.outline, outline_of_block present]
  have complete : ∀ phis, k.outline.args = some phis → ∀ phi ∈ phis, t.isCompletePhi phi = true := by
    intro phis args phi member
    refine full phi ?_
    rw [Block.argIds, show k.args = some phis from args]
    exact Array.mem_toList_iff.mpr member
  have count : t.blocks.size ≤ b.blocks.size := by
    refine Nat.le_of_not_lt fun more => ?_
    obtain ⟨o, shown⟩ := outline_of_lt more
    rw [settling.outline] at shown
    exact Nat.lt_irrefl _ (lt_of_outline shown)
  refine ⟨⟨formed.congr rfl rfl, flow.closed formed found (pending l found),
    ledger.closed outline complete⟩,
    { grows := settling.grows.trans (grows_closed formed)
      count := (size_onBlock _ _).trans (Nat.le_antisymm count settling.grows.count)
      new := settling.new
      outline := fun e => ?_ }⟩
  rw [outline_closed, settling.outline]

end Stages

/-- A sealed block stays as it is; what waited in another one is settled. -/
theorem sealBlock_ends (sound : b.Consistent strict written) (inside : c < b.blocks.size) :
    Ends (sealBlock c) b (fun _ t => t.Consistent strict written ∧ b.Seals c t) Exhausted := by
  obtain ⟨k, present⟩ := block_of_lt inside
  rw [sealBlock, ends_bind, ends_blockAt present]
  cases isSealed : k.isSealed with
  | true => exact ⟨sound, .of_sealed sound.formed present isSealed⟩
  | false =>
      have sealing := sound.sealing present isSealed
      have loop (f : Nat × ValueId → Attempt Builder Unit) :
          k.pending.forM f = k.pending.toList.forM f := List.forM_toArray k.pending.toList f
      simp only [Bool.false_eq_true, if_false, loop]
      -- the phis that wait for the last edge
      rw [ends_bind]
      refine (completeAll_ends k.pending.toList sealing (by simp) (sound.flow.pending_nodup present)
        (sound.waits present isSealed)).imp ?_
      rintro _ b₁ ⟨sealing₁, settling₁, full₁, _⟩
      rw [ends_bind]
      refine (confirmAll_ends k.pending.toList sealing₁ (by simp)).mono ?_ fun _ _ => False.elim
      rintro _ b₂ ⟨sealing₂, reads₂, confirmed⟩
      have emptied := sealing₁.emptied full₁ sealing₂ reads₂ confirmed
      -- the arguments
      rw [ends_bind, ends_modifyBlock, ends_bind]
      refine (finishAll_ends (c := c) emptied.formed emptied.flow emptied.ledger.close
        (emptied.ledger.nodup_argIds emptied.outline) (emptied.arguments isSealed)).mono ?_
        fun _ _ => False.elim
      rintro _ b₄ ⟨formed₄, flow₄, ledger₄, settling₄, blocks₄, full₄, _⟩
      rw [ends_bind]
      refine (removeAll_ends formed₄ flow₄ ledger₄ full₄).imp ?_
      rintro _ b₅ ⟨formed₅, flow₅, ledger₅, collapses⟩
      rw [ends_modifyBlock]
      have settling : b.Settling b₅ := settling₁.trans <| reads₂.settling.trans <|
        (settling_emptied sealing₂.formed).trans <| settling₄.trans collapses.reads.settling
      refine settling.seals present formed₅ flow₅ ledger₅ (fun l found => ?_) fun phi member =>
        collapses.isCompletePhi (full₄ phi member)
      rw [collapses.blocks, blocks₄] at found
      exact emptied.pending l found

end Builder

end WasmFunclets.Ssa
