import WasmFunclets.Proofs.Ssa.Forest
import WasmFunclets.Proofs.Ssa.KnownTypes
import WasmFunclets.Proofs.Ssa.Reduced
import WasmFunclets.Context
import WasmFunclets.Opcode

/-! A function under construction with the types of its values, and what each operation that a
validation makes leaves of it. -/

namespace WasmFunclets

/-- The types of the operands of an instruction: its opcode, its immediate and the type of its value
determine them. -/
def Opcode.operandTypes (context : Context) (opcode : UInt8) (immediate : UInt64) (type : ValueType) :
    Option (List ValueType) :=
  match (ofByte? opcode).map form with
  | some (.load _ _) | some .memoryGrow => some [.i32]
  | some (.store _ stored) => some [.i32, stored]
  | some (.unary operand _) => some [operand]
  | some (.binary operand _) => some [operand, operand]
  | some .ifThen | some .brIf | some .brTable | some .funcletCallIf | some .funcletCallTable =>
      some [.i32]
  | some .select | some .selectTyped => some [type, type, .i32]
  | some .call => context.functions[immediate.toNat]?.map Signature.params
  | some .globalSet => context.globals[immediate.toNat]?.map fun global => [global.type]
  | some .unreachable | some .funcletCall | some .globalGet | some .memorySize => some []
  | _ => none

namespace Ssa

/-- A block without its instructions and without what it knows of locals. -/
structure Shape where
  kind : BlockKind
  isSealed : Bool
  predecessors : Array Predecessor
  args : Option (Array ValueId)

def BlockOutline.shape (o : BlockOutline) : Shape := ⟨o.kind, o.isSealed, o.predecessors, o.args⟩

namespace Builder

open Attempt

variable {context : Context} {strict : Bool} {f g : Forest} {written : BlockId → Nat → Prop}
variable {loose later_ : List ValueId} {b t u : Builder} {a c : BlockId} {v : ValueId}
variable {type : ValueType}

structure HoldsValue (strict : Bool) (f : Forest) (b : Builder) (c : BlockId) (v : ValueId)
    (type : ValueType) : Prop where
  lt : v < b.values.size
  reaches : b.Reaches f c v
  typed : strict = true → ∀ w, b.look (b.representative v) = some w → w.type.admits type = true

theorem Later.typed (later : b.Later t) (formed : b.Formed strict) (formed' : t.Formed strict)
    (inside : v < b.values.size) (checked : strict = true)
    (typed : ∀ w, b.look (b.representative v) = some w → w.type.admits type = true) :
    ∀ w, t.look (t.representative v) = some w → w.type.admits type = true := by
  intro w shown
  obtain ⟨x, before⟩ := look_of_lt (formed.representative_lt inside)
  obtain ⟨y, found, kin⟩ := later.look before
  have admits := formed'.leader_typed checked found (w := w) (by rwa [later.representative])
  exact ValueType.admits_trans admits (kin.type ▸ typed x before)

theorem HoldsValue.grow (holds : b.HoldsValue strict f c v type) (later : b.Later t)
    (size : b.values.size ≤ t.values.size) (formed : b.Formed strict) (formed' : t.Formed strict)
    (grows : f.Grows g) : t.HoldsValue strict g c v type where
  lt := Nat.lt_of_lt_of_le holds.lt size
  reaches := holds.reaches.grow later formed' grows
  typed checked := later.typed formed formed' holds.lt checked (holds.typed checked)

theorem HoldsValue.within (holds : b.HoldsValue strict f a v type) (within : f.Within c a) :
    b.HoldsValue strict f c v type :=
  { holds with reaches := holds.reaches.within within }

theorem HoldsValue.fit {expected : ValueType} (holds : b.HoldsValue strict f c v type)
    (fits : type.admits expected = true) : b.HoldsValue strict f c v expected :=
  { holds with typed := fun checked w shown =>
      ValueType.admits_trans (holds.typed checked w shown) fits }

theorem holdsValue_of_home {w : Value} (formed : b.Formed strict) (shown : b.look v = some w)
    (home : w.block = some c) : b.HoldsValue strict f c v w.type where
  lt := lt_of_look shown
  reaches := reaches_of_home shown home
  typed checked _ leader := formed.leader_typed checked shown leader

abbrev HoldAll (strict : Bool) (f : Forest) (b : Builder) (c : BlockId) (values : List ValueId)
    (types : List ValueType) : Prop := List.Forall₂ (b.HoldsValue strict f c) values types

theorem HoldAll.mem {values : List ValueId} {types : List ValueType}
    (holds : b.HoldAll strict f c values types) : ∀ v ∈ values, v < b.values.size ∧ b.Reaches f c v := by
  induction holds with
  | nil => simp
  | cons first _ ih =>
      intro v member
      rcases List.mem_cons.mp member with rfl | rest
      · exact ⟨first.lt, first.reaches⟩
      · exact ih v rest

theorem HoldAll.get {values : List ValueId} {types : List ValueType}
    (holds : b.HoldAll strict f c values types) {k : Nat} (place : values[k]? = some v)
    (type_ : types[k]? = some type) : b.HoldsValue strict f c v type := by
  induction holds generalizing k with
  | nil => cases place
  | cons first _ ih =>
      cases k with
      | zero =>
          cases place
          cases type_
          exact first
      | succ k => exact ih place type_

theorem HoldAll.suits {values : List ValueId} {types : List ValueType}
    (holds : b.HoldAll strict f c values types) (checked : strict = true) : b.Suits values types := by
  intro k v type place type_
  rw [holds.length_eq, Nat.sub_self, Nat.zero_add] at type_
  exact (holds.get place type_).typed checked

theorem HoldAll.grow {values : List ValueId} {types : List ValueType}
    (holds : b.HoldAll strict f c values types) (later : b.Later t)
    (size : b.values.size ≤ t.values.size) (formed : b.Formed strict) (formed' : t.Formed strict)
    (grows : f.Grows g) : t.HoldAll strict g c values types :=
  holds.imp fun _ _ held => held.grow later size formed formed' grows

/-- An instruction in unreachable code selects among values of unknown type, of which this is one. -/
def Consumed (b : Builder) (f : Forest) (id : ValueId) : Prop :=
  ∃ i type c operands immediate, b.look i =
    some ⟨type, some c, .op Opcode.selectByte operands immediate⟩ ∧ f.Dead c ∧ id ∈ operands

/-- A value has an unknown type only where unreachable code selects, and an instruction has operands
of the types it takes. Some undefined values may be waiting for an instruction. -/
structure Fine (context : Context) (f : Forest) (loose : List ValueId) (b : Builder) (id : ValueId)
    (v : Value) : Prop where
  any : v.type = .any → (∃ operands immediate c,
    v = ⟨.any, some c, .op Opcode.selectByte operands immediate⟩ ∧ f.Dead c) ∨
    v.content = .undef ∧ (id ∈ loose ∨ b.Consumed f id)
  operands : ∀ {opcode : UInt8} {operands : List ValueId} {immediate : UInt64},
    v.content = .op opcode operands immediate → ∃ params,
      Opcode.operandTypes context opcode immediate v.type = some params ∧
        operands.length = params.length ∧ b.Suits operands params

theorem Suits.grow {args : List ValueId} {types : List ValueType} (suits : b.Suits args types)
    (later : b.Later t) (formed : b.Formed true) (formed' : t.Formed true)
    (known : ∀ v ∈ args, v < b.values.size) : t.Suits args types := fun k v type place type_ =>
  later.typed formed formed' (known v (List.mem_of_getElem? place)) rfl (suits k v type place type_)

theorem Consumed.grow {id : ValueId} (consumed : b.Consumed f id) (later : b.Later t)
    (grows : f.Grows g) : t.Consumed g id := by
  obtain ⟨i, type, c, operands, immediate, shown, dead, member⟩ := consumed
  obtain ⟨w, found, kin⟩ := later.look shown
  exact ⟨i, type, c, operands, immediate, by rw [found, kin.eq (by simp)], dead.grow grows, member⟩

def Typing (context : Context) (f : Forest) (loose : List ValueId) (b : Builder) : Prop :=
  ∀ (id : ValueId) (v : Value), b.look id = some v → b.Fine context f loose id v

theorem Typing.grow (typing : b.Typing context f loose) (later : b.Later t) (formed : b.Formed true)
    (formed' : t.Formed true) (grows : f.Grows g)
    (waiting : ∀ id ∈ loose, id ∈ later_ ∨ t.Consumed g id)
    (new : ∀ (id : ValueId) (v : Value), b.values.size ≤ id → t.look id = some v →
      t.Fine context g later_ id v) : t.Typing context g later_ := by
  intro id v shown
  by_cases old : id < b.values.size
  · obtain ⟨w, before⟩ := look_of_lt old
    obtain ⟨v', found, kin⟩ := later.look before
    cases shown.symm.trans found
    have fine := typing id w before
    refine ⟨fun unknown => ?_, fun {opcode operands immediate} isOp => ?_⟩
    · rcases fine.any (kin.type ▸ unknown) with ⟨operands, immediate, c, rfl, dead⟩ | ⟨undef, rest⟩
      · exact .inl ⟨operands, immediate, c, kin.eq (by simp), dead.grow grows⟩
      · have same := kin.eq (by simp [undef])
        refine .inr ⟨same ▸ undef, ?_⟩
        rcases rest with waits | consumed
        · exact waiting id waits
        · exact .inr (consumed.grow later grows)
    · have same : v = w := by
        refine kin.eq fun p isPhi => ?_
        obtain ⟨_, _, content⟩ := w
        cases isPhi
        obtain ⟨q, rfl, _⟩ := kin.phi
        cases isOp
      rw [same] at isOp ⊢
      obtain ⟨params, required, length, suits⟩ := fine.operands isOp
      refine ⟨params, required, length, suits.grow later formed formed' fun o member => ?_⟩
      exact formed.operand_lt before (by rw [isOp]; rfl) o (by rw [Value.operands, isOp]; exact member)
  · exact new id v (Nat.le_of_not_lt old) shown

theorem fine_of_idle {id : ValueId} {v : Value} (known : v.type ≠ .any)
    (idle : v.content.isInstruction = false) : b.Fine context f loose id v where
  any unknown := absurd unknown known
  operands isOp := by
    rw [isOp] at idle
    cases idle

def shape (b : Builder) (c : BlockId) : Option Shape := (b.outline c).map BlockOutline.shape

theorem lt_of_shape {x : Shape} (present : b.shape c = some x) : c < b.blocks.size := by
  obtain ⟨o, shown, _⟩ := Option.map_eq_some_iff.mp present
  exact lt_of_outline shown

theorem shape_of_lt (inside : c < b.blocks.size) : ∃ x, b.shape c = some x := by
  obtain ⟨o, shown⟩ := outline_of_lt inside
  exact ⟨o.shape, by rw [shape, shown, Option.map_some]⟩

theorem shape_none_iff : b.shape c = none ↔ b.blocks.size ≤ c := by
  rw [shape, outline, Option.map_map, Option.map_eq_none_iff, Array.getElem?_eq_none_iff]

theorem size_of_shapes (same : ∀ e, t.shape e = none ↔ b.shape e = none) :
    t.blocks.size = b.blocks.size := by
  have one := same b.blocks.size
  have two := same t.blocks.size
  rw [shape_none_iff, shape_none_iff] at one two
  exact Nat.le_antisymm (one.mpr (Nat.le_refl _)) (two.mp (Nat.le_refl _))

theorem size_of_shape (same : t.shape = b.shape) : t.blocks.size = b.blocks.size :=
  size_of_shapes fun e => by rw [same]

theorem shape_of_outline {o : BlockOutline} (present : b.outline c = some o) : b.shape c = some o.shape := by
  rw [shape, present, Option.map_some]

theorem used_iff_shape : b.Used c ↔ ∃ e x, b.shape e = some x ∧ ∃ pred ∈ x.predecessors, pred.block = c := by
  constructor
  · rintro ⟨e, k, present, pred, member, rfl⟩
    exact ⟨e, _, shape_of_outline (outline_of_block present), pred, member, rfl⟩
  · rintro ⟨e, x, shown, pred, member, rfl⟩
    obtain ⟨o, present, rfl⟩ := Option.map_eq_some_iff.mp shown
    obtain ⟨k, found, rfl⟩ := block_of_outline present
    exact ⟨e, k, found, pred, member, rfl⟩

/-- Operations that leave blocks as they are, but for their instructions and what they know of
locals. -/
structure Apart (b t : Builder) : Prop where
  later : b.Later t
  size : b.values.size ≤ t.values.size
  shape : t.shape = b.shape

structure Aside (b t : Builder) : Prop extends Apart b t where
  knows : ∀ {c : BlockId} {s : Nat} {d : ValueId}, b.definition c s = some d →
    ∃ d', t.definition c s = some d' ∧ t.representative d' = t.representative d

theorem Apart.refl (formed : b.Formed strict) : b.Apart b :=
  ⟨(Grows.refl formed).toLater, Nat.le_refl _, rfl⟩

theorem Apart.trans (first : b.Apart t) (second : t.Apart u) : b.Apart u :=
  ⟨first.later.trans second.later, Nat.le_trans first.size second.size,
    second.shape.trans first.shape⟩

theorem Apart.used (apart : b.Apart t) : t.Used c ↔ b.Used c := by
  rw [used_iff_shape, used_iff_shape, apart.shape]

theorem Apart.count (apart : b.Apart t) : t.blocks.size = b.blocks.size := size_of_shape apart.shape

theorem Aside.grows (aside : b.Aside t) : b.Grows t :=
  ⟨aside.later, aside.size, Nat.le_of_eq aside.count.symm, aside.knows⟩

theorem aside_of_shape (grows : b.Grows t) (same : t.shape = b.shape) : b.Aside t :=
  ⟨⟨grows.toLater, grows.size, same⟩, grows.knows⟩

theorem aside_of_outline (grows : b.Grows t) (same : t.outline = b.outline) : b.Aside t :=
  aside_of_shape grows (by funext c; rw [shape, same, shape])

theorem Aside.refl (formed : b.Formed strict) : b.Aside b := aside_of_shape (.refl formed) rfl

theorem Aside.trans (first : b.Aside t) (second : t.Aside u) : b.Aside u :=
  aside_of_shape (first.grows.trans second.grows) (second.shape.trans first.shape)

/-- All that holds of a function under construction between operations. -/
structure Built (context : Context) (strict : Bool) (f : Forest) (written : BlockId → Nat → Prop)
    (loose : List ValueId) (b : Builder) : Prop where
  sound : b.Consistent strict written
  rooted : b.Rooted f written
  reduced : b.Reduced []
  typing : strict = true → b.Typing context f loose
  locals : strict = true → ∀ type ∈ b.locals, type.isValue = true

theorem Built.knownTypes (built : b.Built context strict f written loose) (checked : strict = true) :
    b.KnownTypes (· < b.values.size) := by
  refine ⟨fun type member => ValueType.ne_any (built.locals checked type member),
    fun {id v} present unknown => ?_⟩
  have below := (Array.getElem?_eq_some_iff.mp present).1
  refine ⟨?_, below⟩
  obtain ⟨type, home, content⟩ := v
  cases content with
  | phi p =>
      have shown : b.look id = some ⟨type, home, .phi p.plain⟩ := by
        rw [look, present]
        rfl
      rcases (built.typing checked id _ shown).any unknown with ⟨_, _, _, absurd_, _⟩ | ⟨absurd_, _⟩
      · cases absurd_
      · cases absurd_
  | _ => rfl

theorem KnownTypes.type_ne {n : Nat} (known : t.KnownTypes (· < n)) {id : ValueId} {w : Value} (new : n ≤ id)
    (shown : t.look id = some w) : w.type ≠ .any := by
  obtain ⟨x, present, rfl⟩ := Option.map_eq_some_iff.mp shown
  intro unknown
  have same : x.plain.type = x.type := by
    obtain ⟨_, _, _ | _ | _ | _ | _ | _ | _⟩ := x <;> rfl
  exact absurd (known.values present (same ▸ unknown)).2 (Nat.not_lt.mpr new)

theorem Built.keep (built : b.Built context strict f written loose) (sound : t.Consistent strict written)
    (grows : b.Grows t) (rooted : t.Rooted f written) (reduced : t.Reduced [])
    (idle : ∀ {id : ValueId} {v : Value}, b.values.size ≤ id → t.look id = some v →
      v.content.isInstruction = false)
    (known : strict = true → t.KnownTypes (· < b.values.size)) :
    t.Built context strict f written loose where
  sound := sound
  rooted := rooted
  reduced := reduced
  typing checked := by
    subst checked
    exact (built.typing rfl).grow grows.toLater built.sound.formed sound.formed (.refl f)
      (fun id member => .inl member) fun id v new shown =>
        fine_of_idle ((known rfl).type_ne new shown) (idle new shown)
  locals checked := by
    rw [grows.locals]
    exact built.locals checked

theorem Built.appends (built : b.Built context strict f written loose) {id : ValueId} {w : Value}
    (appends : b.Appends strict written c w id t) (reduced : t.Reduced []) (plain : w.plain = w)
    (home : w.block = some c)
    (operands : ∀ o ∈ w.operands, ∃ u < b.values.size, b.representative u = b.representative o ∧
      b.Stands f c u)
    (waiting : strict = true → ∀ i ∈ loose, i ∈ later_ ∨ t.Consumed f i)
    (fine : strict = true → t.Fine context f later_ id w) :
    t.Built context strict f written later_ ∧ b.Aside t ∧ t.HoldsValue strict f c id w.type ∧
      t.look id = some w := by
  obtain ⟨sound, grows, rfl, rfl⟩ := appends
  have shown : (b.appended c w).look b.values.size = some w := by
    rw [look_appended plain, if_pos rfl]
  refine ⟨⟨sound, built.rooted.appended built.sound.ledger built.sound.formed sound.formed grows plain
    home operands, reduced, fun checked => ?_, fun checked => ?_⟩, aside_of_shape grows ?_,
    holdsValue_of_home sound.formed shown home, shown⟩
  · subst checked
    refine (built.typing rfl).grow grows.toLater built.sound.formed sound.formed (.refl f)
      (waiting rfl) fun id v new found => ?_
    rw [look_appended plain] at found
    split at found
    · rename_i last
      cases found
      exact last ▸ fine rfl
    · exact absurd (lt_of_look found) (Nat.not_lt.mpr new)
  · rw [grows.locals]
    exact built.locals checked
  · funext e
    rw [shape, outline_appended, shape]
    split
    · rw [Option.map_map]
      exact Option.map_congr fun _ _ => rfl
    · rfl

section Operations

variable (built : b.Built context strict f written loose)
include built

theorem read_built {slot : Nat} (inside : c < b.blocks.size) (type_ : b.locals[slot]? = some type) :
    Ends (getLocal c slot) b (fun v t => t.Built context strict f written loose ∧ b.Aside t ∧
      t.HoldsValue strict f c v type) Exhausted := by
  have saves (checked : strict = true) :=
    (getLocal_saves (stable_knownTypes (fun _ => False) (· < b.values.size)) c slot).ends (built.knownTypes checked)
  refine ends_of_forall (fun v t ok => ?_) fun e t error =>
    (readLocal_ends built.sound inside type_).of_error error
  obtain ⟨sound, reads, ⟨d, defined, rfl⟩, bound, leads⟩ :=
    (readLocal_ends built.sound inside type_).of_ok ok
  have rooted : t.Rooted f written := built.rooted.keep reads.grows sound.formed reads.count
    (fun {c o} present => ⟨o, reads.outline ▸ present, rfl, rfl⟩) fun new shown =>
      (reads.added new shown).idle
  have reduced := ((getLocal_saves stable_reduced c slot).ends built.reduced).of_ok ok
  refine ⟨built.keep sound reads.grows rooted reduced (fun new shown => (reads.added new shown).idle)
    fun checked => (saves checked).of_ok ok, aside_of_outline reads.grows reads.outline, bound, ?_,
    fun checked w shown => ?_⟩
  · have known : t.Reaches f c d := by
      rcases sound.flow.starts defined with before | starts
      · obtain ⟨d', defined', reaches⟩ := rooted.written before
        cases defined.symm.trans defined'
        exact reaches
      · exact reaches_of_startsWith starts
    exact known.congr leads
  · rw [leads] at shown
    exact sound.flow.typed checked defined type w (by rw [reads.locals, type_]) shown

theorem write_built {slot : Nat} (inside : c < b.blocks.size) (unused : ¬ b.Used c)
    (type_ : b.locals[slot]? = some type) (holds : b.HoldsValue strict f c v type) :
    Ends (setLocal c slot v) b (fun _ t =>
      t.Built context strict f (fun e s => written e s ∨ e = c ∧ s = slot) loose ∧ b.Apart t)
      fun _ _ => False := by
  refine ((setLocal_ends built.sound inside unused type_ holds.lt holds.typed).and
    ((setLocal_saves stable_reduced c slot v).ends built.reduced)).mono ?_ fun _ _ both => both.1
  rintro _ t ⟨⟨sound, writes⟩, reduced⟩
  have size : b.values.size ≤ t.values.size := Nat.le_of_eq (congrArg Array.size writes.values.symm)
  refine ⟨⟨sound, built.rooted.redefines writes sound.formed holds.reaches, reduced, fun checked => ?_,
    fun checked => ?_⟩, writes.later, size, ?_⟩
  · subst checked
    refine (built.typing rfl).grow writes.later built.sound.formed sound.formed (.refl f)
      (fun id member => .inl member) fun id v new shown => absurd (lt_of_look shown) ?_
    rw [writes.values]
    exact Nat.not_lt.mpr new
  · rw [writes.later.locals]
    exact built.locals checked
  · funext e
    rw [shape, writes.outline, shape]

theorem constant_built {bits : UInt64} (inside : c < b.blocks.size)
    (known : strict = true → type ≠ .any) : Ends (constant c type bits) b (fun id t =>
      t.Built context strict f written loose ∧ b.Aside t ∧ t.HoldsValue strict f c id type) Exhausted := by
  refine ((constant_ends built.sound inside).and
    ((constant_saves stable_reduced.durable c bits trivial).ends built.reduced)).mono ?_ fun _ _ both => both.1
  rintro id t ⟨appends, reduced⟩
  obtain ⟨built', aside, holds, _⟩ := built.appends appends reduced rfl rfl
    (by simp [Value.operands]) (fun _ i member => .inl member) fun checked =>
      ⟨fun unknown => absurd unknown (known checked), fun isOp => by cases isOp⟩
  exact ⟨built', aside, holds⟩

theorem project_built {tuple : ValueId} {index : Nat} {type' : ValueType} (inside : c < b.blocks.size)
    (holds : b.HoldsValue strict f c tuple type') (known : strict = true → type ≠ .any) :
    Ends (project c tuple index type) b (fun id t => t.Built context strict f written loose ∧
      b.Aside t ∧ t.HoldsValue strict f c id type) Exhausted := by
  refine ((project_ends built.sound inside).and
    ((project_saves stable_reduced.durable c tuple index trivial).ends built.reduced)).mono ?_ fun _ _ both => both.1
  rintro id t ⟨appends, reduced⟩
  obtain ⟨u, bound, same, stands⟩ := holds.reaches.bounded holds.lt
  obtain ⟨built', aside, holds', _⟩ := built.appends appends reduced rfl rfl (fun o member => by
      cases List.mem_singleton.mp member
      exact ⟨u, bound, by rw [same, built.sound.formed.representative_idem], stands⟩)
    (fun _ i member => .inl member) fun checked =>
      ⟨fun unknown => absurd unknown (known checked), fun isOp => by cases isOp⟩
  exact ⟨built', aside, holds'⟩

/-- An instruction with operands of the types it takes. One that selects in unreachable code may have
an unknown type and use values that wait for it. -/
theorem emit_built {opcode : UInt8} {operands : List ValueId} {params : List ValueType}
    {immediate : UInt64} (inside : c < b.blocks.size)
    (holds : b.HoldAll strict f c operands params)
    (takes : strict = true → Opcode.operandTypes context opcode immediate type = some params)
    (known : strict = true → type = .any → opcode = Opcode.selectByte ∧ f.Dead c)
    (waiting : strict = true → ∀ i ∈ loose, i ∈ later_ ∨ opcode = Opcode.selectByte ∧ f.Dead c ∧
      ∃ o ∈ operands, b.representative o = i) :
    Ends (emit c opcode type operands immediate) b (fun id t =>
      t.Built context strict f written later_ ∧ b.Aside t ∧ t.HoldsValue strict f c id type) Exhausted := by
  have formed := built.sound.formed
  refine ((emit_ends built.sound inside fun o member => (holds.mem o member).1).and
    ((emit_saves stable_reduced.durable c opcode operands immediate trivial).ends built.reduced)).mono ?_
      fun _ _ both => both.1
  rintro id t ⟨appends, reduced⟩
  have shown : t.look id = some ⟨type, some c, .op opcode (operands.map b.representative) immediate⟩ := by
    obtain ⟨_, _, rfl, rfl⟩ := appends
    rw [look_appended rfl, if_pos rfl]
  have waits (checked : strict = true) : ∀ i ∈ loose, i ∈ later_ ∨ t.Consumed f i := by
    intro i member
    refine (waiting checked i member).imp_right ?_
    rintro ⟨rfl, dead, o, listed, rfl⟩
    exact ⟨id, type, c, _, immediate, shown, dead, List.mem_map_of_mem listed⟩
  have suits (checked : strict = true) : t.Suits (operands.map b.representative) params := by
    intro k v type place type_ w leader
    rw [List.length_map, holds.length_eq, Nat.sub_self, Nat.zero_add] at type_
    rw [List.getElem?_map] at place
    obtain ⟨o, listed, rfl⟩ := Option.map_eq_some_iff.mp place
    rw [appends.grows.representative] at leader
    exact ((holds.get listed type_).grow appends.grows.toLater appends.grows.size formed
      appends.sound.formed (.refl f)).typed checked w leader
  obtain ⟨built', aside, holds', _⟩ := built.appends appends reduced rfl rfl (fun o member => by
      obtain ⟨o', listed, rfl⟩ := List.mem_map.mp member
      obtain ⟨bound, reaches⟩ := holds.mem o' listed
      obtain ⟨u, bound', same, stands⟩ := reaches.bounded bound
      exact ⟨u, bound', by rw [same, formed.representative_idem], stands⟩) waits fun checked =>
    { any := fun unknown => by
        obtain ⟨rfl, dead⟩ := known checked unknown
        cases unknown
        exact .inl ⟨_, immediate, c, rfl, dead⟩
      operands := fun isOp => by
        cases isOp
        exact ⟨params, takes checked, by rw [List.length_map, holds.length_eq], suits checked⟩ }
  exact ⟨built', aside, holds'⟩

end Operations

end Builder

end Ssa

end WasmFunclets
