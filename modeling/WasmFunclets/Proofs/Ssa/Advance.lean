import WasmFunclets.Proofs.Ssa.Shape

/-! What stays of the blocks of a function under construction while edges and blocks are added, and
which of them are open. -/

namespace WasmFunclets.Ssa.Builder

variable {strict : Bool} {f g h : Forest} {b t u : Builder} {a c d : BlockId} {x : Shape}
variable {source : BlockId → Prop} {types : List ValueType} {opens : List BlockId}

def Active (b : Builder) (current : BlockId) (woken : BlockId → Prop) (c : BlockId) : Prop :=
  c = current ∨ b.blocks.size ≤ c ∨ woken c

def Sleeps (b : Builder) (current c : BlockId) : Prop := ¬ b.Used c ∧ c ≠ current

/-- From one block at hand to another: a block keeps its arguments, and a sealed one all it has. -/
structure Proceeds (b : Builder) (f : Forest) (current : BlockId) (t : Builder) (g : Forest)
    (next : BlockId) (woken : BlockId → Prop) : Prop where
  later : b.Later t
  size : b.values.size ≤ t.values.size
  grows : f.Grows g
  shape : ∀ {c : BlockId} {x : Shape}, b.shape c = some x → ∃ y, t.shape c = some y ∧
    (∀ phis, x.args = some phis → y.args = some phis) ∧ (x.isSealed = true → y = x)
  used : ∀ {c : BlockId}, t.Used c → b.Used c ∨ b.Active current woken c
  next : b.Active current woken next
  asleep : ∀ c, woken c → ¬ b.Used c

def Links (b : Builder) (current : BlockId) (woken : BlockId → Prop) (t : Builder) (c : BlockId) :
    Prop :=
  ∀ {x y : Shape}, b.shape c = some x → t.shape c = some y → ∀ pred ∈ y.predecessors,
    b.Active current woken pred.block ∨ ∃ old ∈ x.predecessors, old.block = pred.block

structure Advances (b : Builder) (f : Forest) (current : BlockId) (t : Builder) (g : Forest)
    (next : BlockId) (woken : BlockId → Prop) : Prop
    extends Proceeds b f current t g next woken where
  edges : ∀ {c : BlockId}, b.Links current woken t c

section Proceeds

variable {next current : BlockId} {woken : BlockId → Prop}

theorem Proceeds.hasArguments (proceeds : b.Proceeds f current t g next woken) (takes : b.HasArguments c types) :
    t.HasArguments c types := by
  have known := takes
  obtain ⟨x, phis, present, args, _⟩ := takes
  refine known.grow proceeds.later fun x' shown => ?_
  cases present.symm.trans shown
  obtain ⟨y, found, args', _⟩ := proceeds.shape present
  exact ⟨y, found, (args' phis args).trans args.symm⟩

theorem Proceeds.count (proceeds : b.Proceeds f current t g next woken) :
    b.blocks.size ≤ t.blocks.size := by
  refine Nat.le_of_not_lt fun more => ?_
  obtain ⟨x, present⟩ := shape_of_lt more
  obtain ⟨y, found, _⟩ := proceeds.shape present
  exact Nat.lt_irrefl _ (lt_of_shape found)

theorem Proceeds.sleeps (proceeds : b.Proceeds f current t g next woken) (inside : c < b.blocks.size)
    (still : ¬ woken c) (sleeps : b.Sleeps current c) : t.Sleeps next c := by
  have idle : ¬ b.Active current woken c := by
    rintro (rfl | new | wakes)
    · exact sleeps.2 rfl
    · exact Nat.lt_irrefl _ (Nat.lt_of_lt_of_le inside new)
    · exact still wakes
  refine ⟨fun used => ?_, ?_⟩
  · rcases proceeds.used used with before | active
    · exact sleeps.1 before
    · exact idle active
  · rintro rfl
    exact idle proceeds.next

theorem Proceeds.not_active (proceeds : b.Proceeds f current t g next woken)
    (inside : c < b.blocks.size) (used : b.Used c) (other : c ≠ current) :
    ¬ b.Active current woken c := by
  rintro (rfl | new | wakes)
  · exact other rfl
  · exact Nat.lt_irrefl _ (Nat.lt_of_lt_of_le inside new)
  · exact proceeds.asleep c wakes used

end Proceeds

theorem Apart.advances (apart : b.Apart t) : b.Advances f a t f a fun _ => False where
  later := apart.later
  size := apart.size
  grows := .refl f
  shape present := ⟨_, by rw [apart.shape, present], fun _ given => given, fun _ => rfl⟩
  edges present shown pred member := by
    rw [apart.shape] at shown
    cases present.symm.trans shown
    exact .inr ⟨pred, member, rfl⟩
  used used := .inl (apart.used.mp used)
  next := .inl rfl
  asleep _ := False.elim

theorem Joined.proceeds {args : List ValueId} (joined : b.Joined d c args t)
    (present : b.shape c = some x) (isOpen : x.isSealed = false) (from_ : d = a ∨ b.Used d) :
    b.Proceeds f a t f a fun _ => False where
  later := joined.later
  size := joined.size
  grows := .refl f
  shape {e x'} found := by
    obtain ⟨front, _, _, shape⟩ := joined.edge
    rw [shape]
    split
    · rename_i here
      subst here
      cases present.symm.trans found
      rw [present, Option.map_some]
      exact ⟨_, rfl, fun _ given => given, fun closed => by simp [isOpen] at closed⟩
    · exact ⟨x', found, fun _ given => given, fun _ => rfl⟩
  used used := by
    obtain ⟨_, _, _, shape⟩ := joined.edge
    obtain ⟨e, y, shown, pred, member, rfl⟩ := used_iff_shape.mp used
    rw [shape] at shown
    split at shown
    · obtain ⟨x', before, rfl⟩ := Option.map_eq_some_iff.mp shown
      rcases Array.mem_push.mp member with old | rfl
      · exact .inl (used_iff_shape.mpr ⟨e, x', before, pred, old, rfl⟩)
      · exact from_.symm.imp_right .inl
    · exact .inl (used_iff_shape.mpr ⟨e, y, shown, pred, member, rfl⟩)
  next := .inl rfl
  asleep _ := False.elim

theorem Joined.links {args : List ValueId} {woken : BlockId → Prop} {e : BlockId}
    (joined : b.Joined d c args t) (other : e ≠ c) : b.Links a woken t e := by
  intro x y before shown pred member
  obtain ⟨_, _, _, shape⟩ := joined.edge
  rw [shape, if_neg other, before] at shown
  cases shown
  exact .inr ⟨pred, member, rfl⟩

theorem Joined.advances {args : List ValueId} (joined : b.Joined a c args t)
    (present : b.shape c = some x) (isOpen : x.isSealed = false) :
    b.Advances f a t f a fun _ => False where
  toProceeds := joined.proceeds present isOpen (.inl rfl)
  edges {e x' y} before shown pred member := by
    obtain ⟨_, _, _, shape⟩ := joined.edge
    rw [shape] at shown
    split at shown
    · rw [before] at shown
      cases shown
      rcases Array.mem_push.mp member with old | rfl
      · exact .inr ⟨pred, old, rfl⟩
      · exact .inl (.inl rfl)
    · cases before.symm.trans shown
      exact .inr ⟨pred, member, rfl⟩

theorem Sealed.used (sealed : b.Sealed c t) {e : BlockId} : t.Used e ↔ b.Used e := by
  rw [used_iff_shape, used_iff_shape]
  constructor
  · rintro ⟨d, y, shown, pred, member, rfl⟩
    rw [sealed.shape] at shown
    split at shown
    · obtain ⟨x, before, rfl⟩ := Option.map_eq_some_iff.mp shown
      exact ⟨d, x, before, pred, member, rfl⟩
    · exact ⟨d, y, shown, pred, member, rfl⟩
  · rintro ⟨d, x, before, pred, member, rfl⟩
    by_cases here : d = c
    · exact ⟨d, { x with isSealed := true }, by rw [sealed.shape, if_pos here, before, Option.map_some],
        pred, member, rfl⟩
    · exact ⟨d, x, by rw [sealed.shape, if_neg here, before], pred, member, rfl⟩

theorem Sealed.advances (sealed : b.Sealed c t) : b.Advances f a t f a fun _ => False where
  later := sealed.later
  size := sealed.size
  grows := .refl f
  shape {e x} present := by
    rw [sealed.shape]
    split
    · refine ⟨{ x with isSealed := true }, by rw [present, Option.map_some], fun _ given => given,
        fun closed => ?_⟩
      rw [← closed]
    · exact ⟨x, present, fun _ given => given, fun _ => rfl⟩
  edges {e x y} before shown pred member := by
    rw [sealed.shape, before] at shown
    split at shown <;> (cases shown; exact .inr ⟨pred, member, rfl⟩)
  used used := .inl (sealed.used.mp used)
  next := .inl rfl
  asleep _ := False.elim

theorem Given.advances (given : b.Given c types t) (present : b.shape c = some x)
    (isOpen : x.isSealed = false) (undeclared : x.args = none) :
    b.Advances f a t f a fun _ => False := by
  obtain ⟨phis, edges, same, shape⟩ := given.shape
  have blocks {pred : Predecessor} (member : pred ∈ edges) :
      ∃ old ∈ x.predecessors, old.block = pred.block := by
    have listed : pred.block ∈ edges.toList.map Predecessor.block :=
      List.mem_map_of_mem (Array.mem_toList_iff.mpr member)
    rw [same x present] at listed
    obtain ⟨old, place, alike⟩ := List.mem_map.mp listed
    exact ⟨old, Array.mem_toList_iff.mp place, alike⟩
  refine ⟨⟨given.later, given.size, .refl f, fun {e x'} found => ?_, fun used => .inl ?_, .inl rfl,
    fun _ => False.elim⟩, fun {e x' y} before shown pred member => ?_⟩
  · rw [shape]
    split
    · rename_i here
      subst here
      cases present.symm.trans found
      rw [present, Option.map_some]
      exact ⟨_, rfl, fun _ absurd_ => by simp [undeclared] at absurd_,
        fun closed => by simp [isOpen] at closed⟩
    · exact ⟨x', found, fun _ given => given, fun _ => rfl⟩
  · obtain ⟨e, y, shown, pred, member, rfl⟩ := used_iff_shape.mp used
    rw [shape] at shown
    split at shown
    · rename_i here
      subst here
      rw [present] at shown
      cases shown
      obtain ⟨old, listed, alike⟩ := blocks member
      exact used_iff_shape.mpr ⟨e, x, present, old, listed, alike⟩
    · exact used_iff_shape.mpr ⟨e, y, shown, pred, member, rfl⟩
  · rw [shape] at shown
    split at shown
    · rename_i here
      subst here
      cases present.symm.trans before
      rw [present] at shown
      cases shown
      exact .inr (blocks member)
    · cases before.symm.trans shown
      exact .inr ⟨pred, member, rfl⟩

theorem Advances.wake {d : BlockId} (advances : b.Advances f a t g a fun _ => False)
    (unused : ¬ b.Used d) : b.Advances f a t g d (· = d) := by
  have wider {e : BlockId} (active : b.Active a (fun _ => False) e) : b.Active a (· = d) e :=
    active.imp_right fun rest => .inl (rest.resolve_right id)
  exact
    { advances with
      edges := fun before shown pred member => (advances.edges before shown pred member).imp_left wider
      used := fun used => (advances.used used).imp_right wider
      next := .inr (.inr rfl)
      asleep := fun e same => same ▸ unused }

theorem Added.advances {p : Option BlockId} {next : BlockId} (added : b.Added x t)
    (from_ : ∀ pred ∈ x.predecessors, pred.block = a ∨ b.Used pred.block)
    (moves : next = a ∨ next = b.blocks.size) :
    b.Advances f a t (f.push p) next fun _ => False where
  later := added.later
  size := added.size
  grows := Forest.grows_push f p
  shape {e x'} found := by
    rw [added.shape, if_neg (Nat.ne_of_lt (lt_of_shape found))]
    exact ⟨x', found, fun _ given => given, fun _ => rfl⟩
  edges {e x' y} before shown pred member := by
    rw [added.shape, if_neg (Nat.ne_of_lt (lt_of_shape before))] at shown
    cases before.symm.trans shown
    exact .inr ⟨pred, member, rfl⟩
  used used := by
    obtain ⟨e, y, shown, pred, member, rfl⟩ := used_iff_shape.mp used
    rw [added.shape] at shown
    split at shown
    · cases shown
      exact (from_ pred member).symm.imp_right .inl
    · exact .inl (used_iff_shape.mpr ⟨e, y, shown, pred, member, rfl⟩)
  next := moves.imp_right fun new => .inl (Nat.le_of_eq new.symm)
  asleep _ := False.elim

theorem Added.used (added : b.Added x t) (alone : x.predecessors = #[]) (used : t.Used c) :
    b.Used c := by
  obtain ⟨e, y, shown, pred, member, rfl⟩ := used_iff_shape.mp used
  rw [added.shape] at shown
  split at shown
  · cases shown
    simp [alone] at member
  · exact used_iff_shape.mpr ⟨e, y, shown, pred, member, rfl⟩

def HasEdge (b : Builder) (source c : BlockId) : Prop :=
  ∃ x, b.shape c = some x ∧ ∃ pred ∈ x.predecessors, pred.block = source

theorem not_hasEdge_of_unused (unused : ¬ b.Used a) : ¬ b.HasEdge a c := by
  rintro ⟨x, present, pred, member, same⟩
  exact unused (used_iff_shape.mpr ⟨c, x, present, pred, member, same⟩)

theorem not_hasEdge_iff (present : b.shape c = some x) :
    ¬ b.HasEdge a c ↔ ∀ pred ∈ x.predecessors, pred.block ≠ a := by
  refine ⟨fun fresh pred member same => fresh ⟨x, present, pred, member, same⟩, ?_⟩
  rintro fresh ⟨y, shown, pred, member, same⟩
  cases present.symm.trans shown
  exact fresh pred member same

theorem Apart.hasEdge (apart : b.Apart t) : t.HasEdge a c ↔ b.HasEdge a c := by
  rw [HasEdge, HasEdge, apart.shape]

theorem Joined.hasEdge {d : BlockId} {args : List ValueId} (joined : b.Joined d c args t) {e : BlockId}
    (leads : t.HasEdge a e) : e = c ∧ a = d ∨ b.HasEdge a e := by
  obtain ⟨y, shown, pred, member, same⟩ := leads
  obtain ⟨_, _, _, shape⟩ := joined.edge
  rw [shape] at shown
  split at shown
  · obtain ⟨x, present, rfl⟩ := Option.map_eq_some_iff.mp shown
    rcases Array.mem_push.mp member with old | rfl
    · exact .inr ⟨x, present, pred, old, same⟩
    · exact .inl ⟨‹_›, same.symm⟩
  · exact .inr ⟨y, shown, pred, member, same⟩

theorem Sealed.hasEdge (sealed : b.Sealed d t) (leads : t.HasEdge a c) : b.HasEdge a c := by
  obtain ⟨y, shown, pred, member, same⟩ := leads
  rw [sealed.shape] at shown
  split at shown
  · obtain ⟨x, present, rfl⟩ := Option.map_eq_some_iff.mp shown
    exact ⟨x, present, pred, member, same⟩
  · exact ⟨y, shown, pred, member, same⟩

/-- The blocks that are not sealed are those of a list, which names none twice. -/
structure UnsealedAre (b : Builder) (opens : List BlockId) : Prop where
  nodup : opens.Nodup
  iff : ∀ c, (∃ x, b.shape c = some x ∧ x.isSealed = false) ↔ c ∈ opens

theorem UnsealedAre.perm {later_ : List BlockId} (opens_ : b.UnsealedAre opens) (perm : opens.Perm later_) :
    b.UnsealedAre later_ :=
  ⟨perm.nodup_iff.mp opens_.nodup, fun c => (opens_.iff c).trans perm.mem_iff⟩

theorem UnsealedAre.congr (opens_ : b.UnsealedAre opens)
    (same : ∀ e, (t.shape e).map Shape.isSealed = (b.shape e).map Shape.isSealed) : t.UnsealedAre opens := by
  refine ⟨opens_.nodup, fun c => Iff.trans ?_ (opens_.iff c)⟩
  have := same c
  cases one : t.shape c <;> cases two : b.shape c <;> simp_all

theorem UnsealedAre.apart (opens_ : b.UnsealedAre opens) (apart : b.Apart t) : t.UnsealedAre opens :=
  opens_.congr fun e => by rw [apart.shape]

theorem UnsealedAre.joined {args : List ValueId} (opens_ : b.UnsealedAre opens) (joined : b.Joined a c args t) :
    t.UnsealedAre opens := by
  obtain ⟨_, _, _, shape⟩ := joined.edge
  refine opens_.congr fun e => ?_
  rw [shape]
  split <;> simp [Function.comp_def]

theorem UnsealedAre.given (opens_ : b.UnsealedAre opens) (given : b.Given c types t) : t.UnsealedAre opens := by
  obtain ⟨_, _, _, shape⟩ := given.shape
  refine opens_.congr fun e => ?_
  rw [shape]
  split <;> simp [Function.comp_def]

theorem UnsealedAre.added (opens_ : b.UnsealedAre opens) (added : b.Added x t) (isOpen : x.isSealed = false) :
    t.UnsealedAre (b.blocks.size :: opens) := by
  refine ⟨List.nodup_cons.mpr ⟨fun member => ?_, opens_.nodup⟩, fun c => ?_⟩
  · obtain ⟨_, present, _⟩ := (opens_.iff _).mpr member
    exact Nat.lt_irrefl _ (lt_of_shape present)
  · rw [added.shape, List.mem_cons]
    split
    · rename_i here
      exact ⟨fun _ => .inl here, fun _ => ⟨x, rfl, isOpen⟩⟩
    · rename_i other
      rw [opens_.iff]
      exact ⟨.inr, fun either => either.resolve_left other⟩

theorem UnsealedAre.closed (opens_ : b.UnsealedAre opens) (added : b.Added x t) (isSealed : x.isSealed = true) :
    t.UnsealedAre opens := by
  refine ⟨opens_.nodup, fun c => ?_⟩
  rw [added.shape]
  split
  · rename_i here
    refine ⟨fun ⟨y, same, isOpen⟩ => ?_, fun member => ?_⟩
    · cases same
      simp [isSealed] at isOpen
    · obtain ⟨_, present, _⟩ := (opens_.iff c).mpr member
      exact absurd (lt_of_shape present) (by simp [here])
  · exact opens_.iff c

theorem UnsealedAre.sealed (opens_ : b.UnsealedAre (c :: opens)) (sealed : b.Sealed c t) : t.UnsealedAre opens := by
  obtain ⟨fresh, nodup⟩ := List.nodup_cons.mp opens_.nodup
  refine ⟨nodup, fun e => ?_⟩
  rw [sealed.shape]
  split
  · rename_i here
    subst here
    refine ⟨fun ⟨y, same, isOpen⟩ => ?_, fun member => absurd member fresh⟩
    obtain ⟨_, _, rfl⟩ := Option.map_eq_some_iff.mp same
    simp at isOpen
  · rename_i other
    rw [opens_.iff, List.mem_cons]
    exact ⟨fun either => either.resolve_left other, .inr⟩

theorem UnsealedAre.present (opens_ : b.UnsealedAre opens) (member : c ∈ opens) :
    ∃ x, b.shape c = some x ∧ x.isSealed = false := (opens_.iff c).mpr member

end WasmFunclets.Ssa.Builder
