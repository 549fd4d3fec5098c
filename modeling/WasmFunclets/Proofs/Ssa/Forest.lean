import WasmFunclets.Proofs.Ssa.Seal

/-! Where blocks come from. A block is made for another one that is passed on every way to it, or
nothing leads to it; so the origins of a block dominate it. -/

namespace WasmFunclets.Ssa

/-- For each block the one that it is made for. The entry has none, nor has a block that nothing
leads to. -/
abbrev Forest := Array (Option BlockId)

namespace Forest

variable {f g : Forest} {a c d p : BlockId}

inductive Under (f : Forest) : BlockId → BlockId → Prop where
  | refl (c : BlockId) : Under f c c
  | step {c p a : BlockId} (made : f[c]? = some (some p)) (rest : Under f p a) : Under f c a

def Dead (f : Forest) (c : BlockId) : Prop :=
  ∃ a, f.Under c a ∧ f[a]? = some none ∧ a ≠ Builder.entryId

def Within (f : Forest) (c a : BlockId) : Prop := f.Dead c ∨ f.Under c a

theorem Under.trans (first : f.Under c d) (second : f.Under d a) : f.Under c a := by
  induction first with
  | refl => exact second
  | step made _ ih => exact .step made (ih second)

theorem Under.dead (under : f.Under c a) (dead : f.Dead a) : f.Dead c := by
  obtain ⟨root, rest, alone, inner⟩ := dead
  exact ⟨root, under.trans rest, alone, inner⟩

theorem Within.refl (c : BlockId) : f.Within c c := .inr (.refl c)

theorem Within.dead (within : f.Within c a) (dead : f.Dead a) : f.Dead c := by
  rcases within with already | under
  · exact already
  · exact under.dead dead

theorem Within.trans (first : f.Within c d) (second : f.Within d a) : f.Within c a := by
  rcases first with dead | under
  · exact .inl dead
  · rcases second with dead | rest
    · exact .inl (under.dead dead)
    · exact .inr (under.trans rest)

theorem within_of_made (made : f[c]? = some (some p)) : f.Within c p := .inr (.step made (.refl p))

theorem dead_of_alone (alone : f[c]? = some none) (inner : c ≠ Builder.entryId) : f.Dead c :=
  ⟨c, .refl c, alone, inner⟩

def Grows (f g : Forest) : Prop :=
  ∀ (c : BlockId) (x : Option BlockId), f[c]? = some x → g[c]? = some x

theorem Grows.refl (f : Forest) : f.Grows f := fun _ _ made => made

theorem Grows.trans {h : Forest} (first : f.Grows g) (second : g.Grows h) : f.Grows h :=
  fun c x made => second c x (first c x made)

theorem grows_push (f : Forest) (x : Option BlockId) : f.Grows (f.push x) := by
  intro c y made
  have below := (Array.getElem?_eq_some_iff.mp made).1
  rw [Array.getElem?_push, if_neg (Nat.ne_of_lt below), made]

theorem Under.grow (under : f.Under c a) (grows : f.Grows g) : g.Under c a := by
  induction under with
  | refl c => exact .refl c
  | step made _ ih => exact .step (grows _ _ made) ih

theorem Dead.grow (dead : f.Dead c) (grows : f.Grows g) : g.Dead c := by
  obtain ⟨a, under, alone, inner⟩ := dead
  exact ⟨a, under.grow grows, grows _ _ alone, inner⟩

theorem Within.grow (within : f.Within c a) (grows : f.Grows g) : g.Within c a :=
  within.imp (·.grow grows) (·.grow grows)

end Forest

namespace Builder

variable {strict : Bool} {written : BlockId → Nat → Prop} {b t : Builder} {f g : Forest}
variable {c a : BlockId} {v : ValueId}

/-- A value is made in a block through which every way to another block goes, or it is what a local
starts with in such a block. -/
def Stands (b : Builder) (f : Forest) (c : BlockId) (u : ValueId) : Prop :=
  f.Dead c ∨ ∃ e, f.Under c e ∧
    ((∃ w, b.look u = some w ∧ w.block = some e) ∨ ∃ slot, b.StartsWith e slot u)

def Reaches (b : Builder) (f : Forest) (c : BlockId) (v : ValueId) : Prop :=
  ∃ u, b.representative u = b.representative v ∧ b.Stands f c u

theorem Stands.within {u : ValueId} (stands : b.Stands f a u) (within : f.Within c a) :
    b.Stands f c u := by
  rcases within with dead | under
  · exact .inl dead
  · rcases stands with dead | ⟨e, rest, known⟩
    · exact .inl (under.dead dead)
    · exact .inr ⟨e, under.trans rest, known⟩

theorem Stands.grow {u : ValueId} (stands : b.Stands f c u) (later : b.Later t)
    (formed : t.Formed strict) (grows : f.Grows g) : t.Stands g c u := by
  rcases stands with dead | ⟨e, under, known⟩
  · exact .inl (dead.grow grows)
  · refine .inr ⟨e, under.grow grows, known.imp ?_ ?_⟩
    · rintro ⟨w, shown, home⟩
      obtain ⟨x, found, kin⟩ := later.look shown
      exact ⟨x, found, kin.block.trans home⟩
    · rintro ⟨slot, starts⟩
      exact ⟨slot, starts.later later formed⟩

theorem Reaches.within (reaches : b.Reaches f a v) (within : f.Within c a) : b.Reaches f c v := by
  obtain ⟨u, same, stands⟩ := reaches
  exact ⟨u, same, stands.within within⟩

theorem Reaches.grow (reaches : b.Reaches f c v) (later : b.Later t) (formed : t.Formed strict)
    (grows : f.Grows g) : t.Reaches g c v := by
  obtain ⟨u, same, stands⟩ := reaches
  exact ⟨u, later.same same, stands.grow later formed grows⟩

theorem Reaches.congr {w : ValueId} (reaches : b.Reaches f c v)
    (same : b.representative w = b.representative v) : b.Reaches f c w := by
  obtain ⟨u, alike, stands⟩ := reaches
  exact ⟨u, alike.trans same.symm, stands⟩

theorem reaches_of_dead (dead : f.Dead c) (v : ValueId) : b.Reaches f c v := ⟨v, rfl, .inl dead⟩

theorem reaches_of_home {w : Value} (shown : b.look v = some w) (home : w.block = some c) :
    b.Reaches f c v := ⟨v, rfl, .inr ⟨c, .refl c, .inl ⟨w, shown, home⟩⟩⟩

theorem reaches_of_startsWith {slot : Nat} (starts : b.StartsWith c slot v) : b.Reaches f c v :=
  ⟨v, rfl, .inr ⟨c, .refl c, .inr ⟨slot, starts⟩⟩⟩

theorem Reaches.bounded (reaches : b.Reaches f c v) (inside : v < b.values.size) :
    ∃ u < b.values.size, b.representative u = b.representative v ∧ b.Stands f c u := by
  obtain ⟨u, same, dead | ⟨e, under, ⟨w, shown, home⟩ | ⟨slot, starts⟩⟩⟩ := reaches
  · exact ⟨v, inside, rfl, .inl dead⟩
  · exact ⟨u, lt_of_look shown, same, .inr ⟨e, under, .inl ⟨w, shown, home⟩⟩⟩
  · exact ⟨v, inside, rfl, .inr ⟨e, under, .inr ⟨slot, starts.congr same.symm⟩⟩⟩

theorem Later.instruction (later : b.Later t) {id : ValueId} {v : Value} (shown : t.look id = some v)
    (listed : v.content.isInstruction = true) (old : id < b.values.size) : b.look id = some v := by
  obtain ⟨w, before⟩ := look_of_lt old
  obtain ⟨v', found, kin⟩ := later.look before
  cases shown.symm.trans found
  have plain : ∀ p, w.content ≠ .phi p := by
    rintro p isPhi
    obtain ⟨_, _, content⟩ := w
    cases isPhi
    obtain ⟨q, rfl, _⟩ := kin.phi
    cases listed
  rw [kin.eq plain, before]

/-- How edges and values follow the origins of blocks. -/
structure Rooted (f : Forest) (written : BlockId → Nat → Prop) (b : Builder) : Prop where
  size : f.size = b.blocks.size
  entry : f[entryId]? = some none
  lt : ∀ {c p : BlockId}, f[c]? = some (some p) → p < c
  edges : ∀ {c : BlockId} {o : BlockOutline}, b.outline c = some o → ∀ pred ∈ o.predecessors,
    f.Dead pred.block ∨ ∃ p, f[c]? = some (some p) ∧ f.Under pred.block p
  args : ∀ {c : BlockId} {o : BlockOutline}, b.outline c = some o → ∀ pred ∈ o.predecessors,
    ∀ arg ∈ pred.args, b.Reaches f pred.block arg
  distinct : ∀ {c : BlockId} {o : BlockOutline}, b.outline c = some o →
    (o.predecessors.toList.map Predecessor.block).Nodup
  operands : ∀ {id : ValueId} {v : Value} {c : BlockId}, b.look id = some v → v.block = some c →
    v.content.isInstruction = true → ∀ o ∈ v.operands,
      ∃ u < id, b.representative u = b.representative o ∧ b.Stands f c u
  written : ∀ {c : BlockId} {s : Nat}, written c s →
    ∃ d, b.definition c s = some d ∧ b.Reaches f c d
  sorted : ∀ {c : BlockId} {o : BlockOutline}, b.outline c = some o → o.body.toList.Pairwise (· < ·)

def EdgeFits (b : Builder) (f : Forest) (c : BlockId) (pred : Predecessor) : Prop :=
  (f.Dead pred.block ∨ ∃ p, f[c]? = some (some p) ∧ f.Under pred.block p) ∧
    ∀ arg ∈ pred.args, b.Reaches f pred.block arg

theorem EdgeFits.grow {pred : Predecessor} (fits : b.EdgeFits f c pred) (later : b.Later t)
    (formed : t.Formed strict) (grows : f.Grows g) : t.EdgeFits g c pred := by
  refine ⟨?_, fun arg member => (fits.2 arg member).grow later formed grows⟩
  rcases fits.1 with dead | ⟨p, made, under⟩
  · exact .inl (dead.grow grows)
  · exact .inr ⟨p, grows _ _ made, under.grow grows⟩

theorem Rooted.edgeFits (rooted : b.Rooted f written) {o : BlockOutline} (present : b.outline c = some o)
    {pred : Predecessor} (member : pred ∈ o.predecessors) : b.EdgeFits f c pred :=
  ⟨rooted.edges present pred member, rooted.args present pred member⟩

def Supplied (b : Builder) (f : Forest) (id : ValueId) (v : Value) : Prop :=
  ∀ c, v.block = some c → ∀ o ∈ v.operands,
    ∃ u < id, b.representative u = b.representative o ∧ b.Stands f c u

/-- New edges follow the origins, and new instructions have operands that reach them. -/
theorem Rooted.grow (rooted : b.Rooted f written) (grown : b.Grows t) (formed : t.Formed strict)
    (grows : f.Grows g)
    (size : g.size = t.blocks.size) (lt : ∀ {c p : BlockId}, g[c]? = some (some p) → p < c)
    (outline : ∀ {c : BlockId} {o : BlockOutline}, t.outline c = some o →
      (∀ pred ∈ o.predecessors, (∃ o', b.outline c = some o' ∧ pred ∈ o'.predecessors) ∨
        t.EdgeFits g c pred) ∧
      (o.predecessors.toList.map Predecessor.block).Nodup ∧ o.body.toList.Pairwise (· < ·))
    (instructions : ∀ {id : ValueId} {v : Value}, t.look id = some v →
      v.content.isInstruction = true → b.look id = some v ∨ t.Supplied g id v) :
    t.Rooted g written where
  size := size
  entry := grows _ _ rooted.entry
  lt := lt
  edges {c o} present pred member := by
    rcases (outline present).1 pred member with ⟨o', before, old⟩ | fits
    · exact ((rooted.edgeFits before old).grow grown.toLater formed grows).1
    · exact fits.1
  args {c o} present pred member := by
    rcases (outline present).1 pred member with ⟨o', before, old⟩ | fits
    · exact ((rooted.edgeFits before old).grow grown.toLater formed grows).2
    · exact fits.2
  distinct present := (outline present).2.1
  operands {id v c} shown home listed o member := by
    rcases instructions shown listed with before | supplied
    · obtain ⟨u, older, same, stands⟩ := rooted.operands before home listed o member
      exact ⟨u, older, grown.toLater.same same, stands.grow grown.toLater formed grows⟩
    · exact supplied c home o member
  written known := by
    obtain ⟨d, defined, reaches⟩ := rooted.written known
    obtain ⟨d', found, alike⟩ := grown.knows defined
    exact ⟨d', found, (reaches.grow grown.toLater formed grows).congr alike⟩
  sorted present := (outline present).2.2

theorem Rooted.keep (rooted : b.Rooted f written) (grown : b.Grows t) (formed : t.Formed strict)
    (count : t.blocks.size = b.blocks.size)
    (outline : ∀ {c : BlockId} {o : BlockOutline}, t.outline c = some o → ∃ o', b.outline c = some o' ∧
      o.predecessors = o'.predecessors ∧ o.body = o'.body)
    (new : ∀ {id : ValueId} {v : Value}, b.values.size ≤ id → t.look id = some v →
      v.content.isInstruction = false) : t.Rooted f written := by
  refine rooted.grow grown formed (.refl f) (rooted.size.trans count.symm) rooted.lt (fun {c o} present => ?_)
    fun {id v} shown listed => .inl ?_
  · obtain ⟨o', before, edges, body⟩ := outline present
    rw [edges, body]
    exact ⟨fun pred member => .inl ⟨o', before, member⟩, rooted.distinct before, rooted.sorted before⟩
  · by_cases old : id < b.values.size
    · exact grown.toLater.instruction shown listed old
    · rw [new (Nat.le_of_not_lt old) shown] at listed
      cases listed

theorem Rooted.appended (rooted : b.Rooted f written) (ledger : b.Ledger none none) {w : Value}
    (formed : b.Formed strict) (formed' : (b.appended c w).Formed strict)
    (grown : b.Grows (b.appended c w)) (plain : w.plain = w)
    (home : w.block = some c)
    (operands : ∀ o ∈ w.operands, ∃ u < b.values.size, b.representative u = b.representative o ∧
      b.Stands f c u) : (b.appended c w).Rooted f written := by
  have same : (b.appended c w).representative = b.representative := by
    rw [Builder.appended, representative_onBlock, representative_withValue formed.coherent]
  refine rooted.grow grown formed' (.refl f) (rooted.size.trans (size_onBlock _ _).symm) rooted.lt
    (fun {e o} present => ?_) fun {id v} shown _ => ?_
  · rw [outline_appended] at present
    split at present
    · obtain ⟨o', before, rfl⟩ := Option.map_eq_some_iff.mp present
      have distinct := rooted.distinct before
      refine ⟨fun pred member => .inl ⟨o', before, member⟩, distinct, ?_⟩
      rw [Array.toList_push]
      refine List.pairwise_append.mpr ⟨rooted.sorted before, List.pairwise_singleton _ _, ?_⟩
      intro i member j last
      obtain ⟨_, found, _⟩ := (ledger.body before i).mp (Array.mem_toList_iff.mp member)
      rw [List.mem_singleton.mp last]
      exact lt_of_look found
    · exact ⟨fun pred member => .inl ⟨o, present, member⟩, rooted.distinct present,
        rooted.sorted present⟩
  · rw [look_appended plain] at shown
    split at shown
    · rename_i last
      cases shown
      refine .inr fun e here o member => ?_
      cases home.symm.trans here
      obtain ⟨u, older, alike, stands⟩ := operands o member
      exact ⟨u, last ▸ older, by rw [same, alike], stands.grow grown.toLater formed' (.refl f)⟩
    · exact .inl shown

theorem Rooted.withBlock (rooted : b.Rooted f written) (formed : b.Formed strict) (kind : BlockKind)
    {x : Option BlockId} (inside : ∀ p, x = some p → p < b.blocks.size) :
    (b.withBlock kind).Rooted (f.push x) written := by
  refine rooted.grow (grows_withBlock formed) (formed.congr rfl rfl) (Forest.grows_push f x)
    (by simp [Builder.withBlock, rooted.size]) (fun {c p} made => ?_) (fun {c o} present => ?_)
    fun shown _ => .inl shown
  · rw [Array.getElem?_push] at made
    split at made
    · rename_i last
      rw [last, rooted.size]
      exact inside p (Option.some.inj made)
    · exact rooted.lt made
  · rw [outline_withBlock] at present
    split at present
    · cases present
      exact ⟨fun pred member => by simp at member, List.nodup_nil, List.Pairwise.nil⟩
    · exact ⟨fun pred member => .inl ⟨o, present, member⟩, rooted.distinct present,
        rooted.sorted present⟩

theorem Rooted.connects {source id : BlockId} {args : List ValueId} (rooted : b.Rooted f written)
    (connects : b.Connects source id args t) (formed : t.Formed strict)
    (origin : f.Dead source ∨ ∃ p, f[id]? = some (some p) ∧ f.Under source p)
    (known : ∀ v ∈ args, b.Reaches f source v)
    (fresh : ∀ o, b.outline id = some o → ∀ pred ∈ o.predecessors, pred.block ≠ source)
    (full : f.Dead source ∨ ∀ o, b.outline id = some o →
      args.length = (o.args.map Array.size).getD args.length) : t.Rooted f written := by
  obtain ⟨front, _, length, outline⟩ := connects.edge
  have later := connects.grows.toLater
  have count : t.blocks.size = b.blocks.size := by
    refine Nat.le_antisymm (Nat.le_of_not_lt fun more => ?_) connects.grows.count
    obtain ⟨o, shown⟩ := outline_of_lt more
    rw [outline] at shown
    split at shown
    · obtain ⟨_, before, _⟩ := Option.map_eq_some_iff.mp shown
      exact Nat.lt_irrefl _ (lt_of_outline before)
    · exact Nat.lt_irrefl _ (lt_of_outline shown)
  refine rooted.grow connects.grows formed (.refl f) (rooted.size.trans count.symm) rooted.lt
    (fun {c o} present => ?_) fun {i v} shown listed => ?_
  · rw [outline] at present
    split at present
    · rename_i here
      obtain ⟨o', before, rfl⟩ := Option.map_eq_some_iff.mp present
      subst here
      have sorted := rooted.sorted before
      refine ⟨fun pred member => ?_, ?_, sorted⟩
      · rcases Array.mem_push.mp member with old | rfl
        · exact .inl ⟨o', before, old⟩
        · refine .inr ⟨origin, fun arg carried => ?_⟩
          rcases full with dead | same
          · exact reaches_of_dead dead arg
          · have all := length o' before
            rw [List.length_append, ← same o' before] at all
            have none_ : front = [] := List.length_eq_zero_iff.mp (by omega)
            rw [none_] at carried
            exact (known arg carried).grow later formed (.refl f)
      · rw [Array.toList_push, List.map_append]
        refine List.nodup_append.mpr ⟨rooted.distinct before, List.pairwise_singleton _ _, ?_⟩
        rintro _ member _ last same
        obtain ⟨pred, listed, rfl⟩ := List.mem_map.mp member
        exact fresh o' before pred (Array.mem_toList_iff.mp listed) (same.trans (List.mem_singleton.mp last))
    · exact ⟨fun pred member => .inl ⟨o, present, member⟩, rooted.distinct present,
        rooted.sorted present⟩
  · by_cases old : i < b.values.size
    · exact .inl (later.instruction shown listed old)
    · obtain ⟨_, rfl⟩ := connects.new (Nat.le_of_not_lt old) shown
      cases listed

/-- New arguments, for which the edges carry as many values as there are. -/
theorem Rooted.declares {types : List ValueType} (rooted : b.Rooted f written)
    (declares : b.Declares c types t) (formed : t.Formed strict) (ledger : t.Ledger none none)
    (full : ∀ o, b.outline c = some o → ∀ pred ∈ o.predecessors,
      f.Dead pred.block ∨ pred.args.length = types.length) : t.Rooted f written := by
  obtain ⟨phis, edges, size, each, extends_, outline⟩ := declares.args
  have later := declares.grows.toLater
  refine rooted.grow declares.grows formed (.refl f) (rooted.size.trans declares.count.symm) rooted.lt
    (fun {e o} present => ?_) fun {i v} shown listed => ?_
  · have shown := present
    rw [outline] at present
    split at present
    · rename_i here
      obtain ⟨o', before, rfl⟩ := Option.map_eq_some_iff.mp present
      subst here
      obtain ⟨same, both⟩ := extends_ o' before
      have sorted := rooted.sorted before
      have blocks : edges.toList.map Predecessor.block = o'.predecessors.toList.map Predecessor.block := by
        refine List.ext_getElem (by simp [same]) fun i one two => ?_
        simp only [List.getElem_map, Array.getElem_toList]
        have first : i < edges.size := by simpa using one
        have second : i < o'.predecessors.size := by simpa using two
        exact (both (Array.getElem?_eq_getElem second) (Array.getElem?_eq_getElem first)).1
      refine ⟨fun pred member => ?_, by rw [blocks]; exact rooted.distinct before, sorted⟩
      obtain ⟨i, place⟩ := Array.mem_iff_getElem?.mp member
      have below := (Array.getElem?_eq_some_iff.mp place).1
      obtain ⟨old, was⟩ : ∃ old, o'.predecessors[i]? = some old :=
        ⟨_, Array.getElem?_eq_getElem (same ▸ below)⟩
      have listed := Array.mem_of_getElem? was
      obtain ⟨block, front, args, _⟩ := both was place
      have fits := (rooted.edgeFits before listed).grow later formed (.refl f)
      rw [EdgeFits, ← block] at fits
      refine .inr ⟨fits.1, fun arg carried => ?_⟩
      rcases full o' before old listed with dead | length
      · exact reaches_of_dead (block ▸ dead) arg
      · have all := ledger.carried shown rfl (show i < reach none e edges.size from below) place
        rw [args, List.length_append, size, length] at all
        have none_ : front = [] := List.length_eq_zero_iff.mp (by omega)
        rw [args, none_] at carried
        exact fits.2 arg carried
    · exact ⟨fun pred member => .inl ⟨o, present, member⟩, rooted.distinct present,
        rooted.sorted present⟩
  · by_cases old : i < b.values.size
    · exact .inl (later.instruction shown listed old)
    · rcases declares.new (Nat.le_of_not_lt old) shown with ⟨_, rfl⟩ | ⟨_, _, _, phi⟩
      · cases listed
      · cases shown.symm.trans phi.1
        cases listed

theorem Rooted.redefines {slot : Nat} (rooted : b.Rooted f written) (writes : b.Redefines c slot v t)
    (formed : t.Formed strict) (reaches : b.Reaches f c v) :
    t.Rooted f fun e s => written e s ∨ e = c ∧ s = slot := by
  have outline := writes.outline
  have looks : t.look = b.look := by
    funext i
    rw [look, writes.values, look]
  have reps : t.representative = b.representative := by
    funext i
    rw [representative, writes.substitution, representative]
  have reach {e : BlockId} {u : ValueId} (reaches : b.Reaches f e u) : t.Reaches f e u :=
    reaches.grow writes.later formed (.refl f)
  have count : t.blocks.size = b.blocks.size := by
    have same (u : Builder) (n : Nat) : u.outline n = none ↔ u.blocks.size ≤ n := by
      rw [Builder.outline, Option.map_eq_none_iff, Array.getElem?_eq_none_iff]
    have one := same t b.blocks.size
    have two := same b t.blocks.size
    rw [outline, same b] at one
    rw [← outline, same t] at two
    exact Nat.le_antisymm (one.mp (Nat.le_refl _)) (two.mp (Nat.le_refl _))
  refine ⟨rooted.size.trans count.symm, rooted.entry, rooted.lt, ?_, ?_, ?_, ?_, ?_, ?_⟩
  · rw [outline]
    exact rooted.edges
  · rw [outline]
    exact fun present pred member arg carried => reach (rooted.args present pred member arg carried)
  · rw [outline]
    exact rooted.distinct
  · rw [looks, reps]
    intro id w e shown home listed o member
    obtain ⟨u, older, same, stands⟩ := rooted.operands shown home listed o member
    exact ⟨u, older, same, stands.grow writes.later formed (.refl f)⟩
  · intro e s known
    rw [writes.definition]
    split
    · rename_i here
      exact ⟨v, rfl, here.1 ▸ reach reaches⟩
    · rename_i other
      rcases known with before | here
      · obtain ⟨d, defined, reaches⟩ := rooted.written before
        exact ⟨d, defined, reach reaches⟩
      · exact absurd here other
  · rw [outline]
    exact rooted.sorted

end Builder

end WasmFunclets.Ssa
