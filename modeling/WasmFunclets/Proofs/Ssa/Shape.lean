import WasmFunclets.Proofs.Ssa.Built
import WasmFunclets.Proofs.Step

/-! What a validation does to the blocks of a function under construction: new blocks, arguments,
edges and sealing. -/

namespace WasmFunclets.Ssa.Builder

open Attempt
open WasmFunclets.Validation (supplyOne supply)

variable {context : Context} {strict : Bool} {f g : Forest} {written : BlockId → Nat → Prop}
variable {loose : List ValueId} {b t u : Builder} {a c : BlockId} {v : ValueId}
variable {type : ValueType} {types : List ValueType}

/-- An operand of the validation: its value is known in a block, or the block is unreachable. Its
type is one of values, or unknown. -/
structure Backs (strict : Bool) (f : Forest) (b : Builder) (c : BlockId) (operand : Operand) :
    Prop where
  sort : strict = true → operand.type.isValue = true ∨ operand.type = .any
  value : match operand.value with
    | some v => b.HoldsValue strict f c v operand.type
    | none => f.Dead c ∧ (strict = true → operand.type ≠ .any)

theorem Backs.grow {operand : Operand} (backs : b.Backs strict f c operand) (later : b.Later t)
    (size : b.values.size ≤ t.values.size) (formed : b.Formed strict) (formed' : t.Formed strict)
    (grows : f.Grows g) : t.Backs strict g c operand := by
  obtain ⟨sort, backs⟩ := backs
  refine ⟨sort, ?_⟩
  split
  · rename_i v value
    rw [value] at backs
    exact HoldsValue.grow backs later size formed formed' grows
  · rename_i value
    rw [value] at backs
    exact ⟨backs.1.grow grows, backs.2⟩

theorem Backs.within {operand : Operand} (backs : b.Backs strict f a operand) (within : f.Within c a) :
    b.Backs strict f c operand := by
  obtain ⟨sort, backs⟩ := backs
  refine ⟨sort, ?_⟩
  split
  · rename_i v value
    rw [value] at backs
    exact HoldsValue.within backs within
  · rename_i value
    rw [value] at backs
    exact ⟨within.dead backs.1, backs.2⟩

theorem backs_some (holds : b.HoldsValue strict f c v type)
    (sort : strict = true → type.isValue = true ∨ type = .any) :
    b.Backs strict f c ⟨type, some v⟩ := ⟨sort, holds⟩

theorem Backs.isValue {operand : Operand} (backs : b.Backs strict f c operand)
    (checked : strict = true) (known : operand.type ≠ .any) : operand.type.isValue = true :=
  (backs.sort checked).resolve_right known

/-- In unreachable code the value of an operand may be a new one. It can have an unknown type if that
is allowed. -/
def Yields (strict : Bool) (f : Forest) (b : Builder) (c : BlockId) (unknown : Bool)
    (operand : Operand) : Prop :=
  match operand.value with
  | some v => b.HoldsValue strict f c v operand.type
  | none => f.Dead c ∧ (strict = true → operand.type = .any → unknown = true)

theorem Yields.grow {unknown : Bool} {operand : Operand} (yields : b.Yields strict f c unknown operand)
    (later : b.Later t) (size : b.values.size ≤ t.values.size) (formed : b.Formed strict)
    (formed' : t.Formed strict) (grows : f.Grows g) : t.Yields strict g c unknown operand := by
  unfold Yields at *
  split at yields
  · exact yields.grow later size formed formed' grows
  · exact ⟨yields.1.grow grows, yields.2⟩

theorem Backs.yields {operand : Operand} (backs : b.Backs strict f c operand) :
    b.Yields strict f c false operand := by
  obtain ⟨_, backs⟩ := backs
  unfold Yields
  split at backs
  · exact backs
  · exact ⟨backs.1, fun checked type_ => absurd type_ (backs.2 checked)⟩

/-- A new value of unknown type that some instruction has to use. -/
structure Waits (f : Forest) (b : Builder) (c : BlockId) (unknown : Bool) (id : ValueId) : Prop where
  allowed : unknown = true
  dead : f.Dead c
  undef : ∃ type, b.look id = some ⟨type, none, .undef⟩

theorem Waits.leads {unknown : Bool} {id : ValueId} (waits : b.Waits f c unknown id)
    (formed : b.Formed strict) : b.representative id = id := by
  obtain ⟨type, shown⟩ := waits.undef
  refine not_not.mp fun other => ?_
  obtain ⟨_, _, _, _, phi, _⟩ := formed.replaced other
  cases shown.symm.trans phi

theorem Waits.later {unknown : Bool} {id : ValueId} (waits : b.Waits f c unknown id)
    (later : b.Later t) : t.Waits f c unknown id := by
  obtain ⟨type, shown⟩ := waits.undef
  obtain ⟨w, found, kin⟩ := later.look shown
  exact ⟨waits.allowed, waits.dead, type, by rw [found, kin.eq (by simp)]⟩

theorem supplyOne_built (built : b.Built context strict f written loose) {operand : Operand}
    {unknown : Bool} (yields : b.Yields strict f c unknown operand) :
    Ends (supplyOne operand) b (fun v t =>
      (∃ later_, t.Built context strict f written later_ ∧
        ∀ id ∈ later_, id ∈ loose ∨ id = v ∧ t.Waits f c unknown id) ∧
      b.Aside t ∧ t.HoldsValue strict f c v operand.type) Exhausted := by
  have formed := built.sound.formed
  unfold supplyOne
  unfold Yields at yields
  cases value : operand.value with
  | some v =>
      rw [value] at yields
      exact ⟨⟨loose, built, fun id member => .inl member⟩, .refl formed, yields⟩
  | none =>
      rw [value] at yields
      refine (undef_ends b operand.type).imp ?_
      rintro _ _ ⟨rfl, rfl⟩
      obtain ⟨formed', flow', reads, pads⟩ := undef_sound formed built.sound.flow operand.type
      have sound : (b.withValue ⟨operand.type, none, .undef⟩).Consistent strict written :=
        ⟨formed', flow', built.sound.ledger.reads reads (flow'.homes reads)⟩
      have shown : (b.withValue ⟨operand.type, none, .undef⟩).look b.values.size =
          some ⟨operand.type, none, .undef⟩ := by
        rw [look_withValue, if_pos rfl]
        rfl
      have leads : (b.withValue ⟨operand.type, none, .undef⟩).representative b.values.size =
          b.values.size := by
        rw [pads.representative, formed.representative_of_le (Nat.le_refl _)]
      have rooted := built.rooted.keep reads.grows formed' reads.count
        (fun {c o} present => ⟨o, reads.outline ▸ present, rfl, rfl⟩) fun new shown =>
          (reads.added new shown).idle
      refine ⟨⟨if unknown then b.values.size :: loose else loose, ⟨sound, rooted,
        built.reduced.withValue (by simp [Value.phi?]), fun checked => ?_,
        fun checked => built.locals checked⟩, fun id member => ?_⟩,
        aside_of_outline reads.grows reads.outline, by simp, reaches_of_dead yields.1 _,
        fun _ w leader => ?_⟩
      · subst checked
        refine (built.typing rfl).grow reads.later formed formed' (.refl f) (fun id member => .inl ?_)
          fun id v new found => ?_
        · split
          · exact List.mem_cons_of_mem _ member
          · exact member
        · rw [look_withValue] at found
          split at found
          · rename_i last
            cases found
            refine ⟨fun type_ => .inr ⟨rfl, .inl ?_⟩, fun isOp => by cases isOp⟩
            rw [yields.2 rfl type_, last]
            exact List.mem_cons_self
          · exact absurd (lt_of_look found) (Nat.not_lt.mpr new)
      · split at member
        · rename_i allowed
          rcases List.mem_cons.mp member with rfl | old
          · exact .inr ⟨rfl, allowed, yields.1, _, shown⟩
          · exact .inl old
        · exact .inl member
      · rw [leads, shown] at leader
        cases leader
        exact ValueType.admits_refl _

theorem supplyAll_built (built : b.Built context strict f written loose) {operands : List Operand}
    {unknown : Bool} (yields : ∀ operand ∈ operands, b.Yields strict f c unknown operand) :
    Ends (supply operands) b (fun vs t =>
      (∃ later_, t.Built context strict f written later_ ∧
        ∀ id ∈ later_, id ∈ loose ∨ id ∈ vs ∧ t.Waits f c unknown id) ∧
      b.Aside t ∧ t.HoldAll strict f c vs (operands.map Operand.type)) Exhausted := by
  rw [supply]
  induction operands generalizing b loose with
  | nil => exact ⟨⟨loose, built, fun _ => .inl⟩, .refl built.sound.formed, .nil⟩
  | cons operand operands ih =>
      rw [List.mapM_cons, ends_bind]
      refine (supplyOne_built built (yields operand List.mem_cons_self)).imp ?_
      rintro v b₁ ⟨⟨loose₁, built₁, waits₁⟩, aside₁, holds⟩
      rw [ends_bind]
      refine (ih built₁ fun operand member => (yields operand (List.mem_cons_of_mem _ member)).grow
        aside₁.later aside₁.size built.sound.formed built₁.sound.formed (.refl f)).imp ?_
      rintro vs t ⟨⟨loose₂, built₂, waits₂⟩, aside₂, all⟩
      rw [ends_pure]
      refine ⟨⟨loose₂, built₂, fun id member => ?_⟩, aside₁.trans aside₂, .cons (holds.grow
        aside₂.later aside₂.size built₁.sound.formed built₂.sound.formed (.refl f)) all⟩
      rcases waits₂ id member with before | ⟨listed, waits⟩
      · refine (waits₁ id before).imp_right ?_
        rintro ⟨rfl, waits⟩
        exact ⟨List.mem_cons_self, waits.later aside₂.later⟩
      · exact .inr ⟨List.mem_cons_of_mem _ listed, waits⟩

theorem supply_built (built : b.Built context strict f written []) {operands : List Operand}
    (backs : ∀ operand ∈ operands, b.Backs strict f c operand) :
    Ends (supply operands) b (fun vs t => t.Built context strict f written [] ∧ b.Aside t ∧
      t.HoldAll strict f c vs (operands.map Operand.type)) Exhausted := by
  refine (supplyAll_built built fun operand member => (backs operand member).yields).imp ?_
  rintro vs t ⟨⟨later_, built', waits⟩, aside, all⟩
  have none_ : later_ = [] := List.eq_nil_iff_forall_not_mem.mpr fun id member => by
    rcases waits id member with absurd_ | ⟨_, absurd_⟩
    · cases absurd_
    · cases absurd_.allowed
  exact ⟨none_ ▸ built', aside, all⟩

def HasArguments (b : Builder) (c : BlockId) (types : List ValueType) : Prop :=
  ∃ x phis, b.shape c = some x ∧ x.args = some phis ∧ List.Forall₂ (fun phi type =>
    ∃ v, b.look phi = some v ∧ v.type = type ∧ v.block = some c ∧ v.phi?.isSome) phis.toList types

theorem HasArguments.grow (takes : b.HasArguments c types) (later : b.Later t)
    (same : ∀ x, b.shape c = some x → ∃ y, t.shape c = some y ∧ y.args = x.args) :
    t.HasArguments c types := by
  obtain ⟨x, phis, present, args, each⟩ := takes
  obtain ⟨y, found, alike⟩ := same x present
  refine ⟨y, phis, found, alike.trans args, each.imp ?_⟩
  rintro phi type ⟨v, shown, type_, home, isPhi⟩
  obtain ⟨w, found, kin⟩ := later.look shown
  refine ⟨w, found, kin.type.trans type_, kin.block.trans home, ?_⟩
  obtain ⟨_, _, content⟩ := v
  cases content with
  | phi p =>
      obtain ⟨q, rfl, _⟩ := kin.phi
      rfl
  | _ => cases isPhi

theorem Apart.hasArguments (apart : b.Apart t) (takes : b.HasArguments c types) : t.HasArguments c types :=
  takes.grow apart.later fun x present => ⟨x, by rw [apart.shape, present], rfl⟩

theorem HasArguments.length (takes : b.HasArguments c types) {o : BlockOutline} {phis : Array ValueId}
    (present : b.outline c = some o) (args : o.args = some phis) : phis.size = types.length := by
  obtain ⟨x, phis', shown, args', each⟩ := takes
  cases (shape_of_outline present).symm.trans shown
  cases args.symm.trans args'
  rw [← each.length_eq, Array.length_toList]

theorem HasArguments.typesOf (takes : b.HasArguments c types) {o : BlockOutline} {phis : Array ValueId}
    (present : b.outline c = some o) (args : o.args = some phis) : b.typesOf phis.toList = types := by
  obtain ⟨x, phis', shown, args', each⟩ := takes
  cases (shape_of_outline present).symm.trans shown
  cases args.symm.trans args'
  have same {ids : List ValueId} {types : List ValueType} (each : List.Forall₂ (fun phi type =>
      ∃ v, b.look phi = some v ∧ v.type = type ∧ v.block = some c ∧ v.phi?.isSome) ids types) :
      b.typesOf ids = types := by
    induction each with
    | nil => rfl
    | cons first _ ih =>
        obtain ⟨v, shown, rfl, _⟩ := first
        obtain ⟨w, present, rfl⟩ := Option.map_eq_some_iff.mp shown
        rw [Builder.typesOf, List.map_cons, ← Builder.typesOf, ih, present]
        simp [Value.plain]
  exact same each

theorem args_built (built : b.Built context strict f written loose) (takes : b.HasArguments c types) :
    Ends (args c) b (fun ids t => t = b ∧ b.HoldAll strict f c ids types) fun _ _ => False := by
  obtain ⟨x, phis, present, given, each⟩ := takes
  obtain ⟨o, shown, rfl⟩ := Option.map_eq_some_iff.mp present
  obtain ⟨k, found, rfl⟩ := block_of_outline shown
  have formed := built.sound.formed
  rw [args, ends_bind, ends_blockAt found, ends_bind, ends_get, ends_pure]
  refine ⟨rfl, ?_⟩
  have ids : k.argIds = phis.toList := by
    rw [Block.argIds, show k.args = some phis from given]
    rfl
  rw [argsOf, ids, HoldAll, List.forall₂_map_left_iff]
  refine each.imp ?_
  rintro phi type ⟨v, shown, rfl, home, _⟩
  have holds := holdsValue_of_home (f := f) formed shown home
  refine ⟨formed.representative_lt holds.lt, holds.reaches.congr (formed.representative_idem _),
    fun checked => ?_⟩
  rw [formed.representative_idem]
  exact holds.typed checked

structure Sealed (b : Builder) (c : BlockId) (t : Builder) : Prop where
  grows : b.Grows t
  shape : ∀ e, t.shape e =
    if e = c then (b.shape e).map fun x => { x with isSealed := true } else b.shape e

theorem Sealed.later (sealed : b.Sealed c t) : b.Later t := sealed.grows.toLater

theorem Sealed.size (sealed : b.Sealed c t) : b.values.size ≤ t.values.size := sealed.grows.size

theorem Sealed.count (sealed : b.Sealed c t) : t.blocks.size = b.blocks.size := by
  refine size_of_shapes fun e => ?_
  rw [sealed.shape]
  split <;> simp

theorem seal_built (built : b.Built context strict f written loose) (inside : c < b.blocks.size) :
    Ends (sealBlock c) b (fun _ t => t.Built context strict f written loose ∧ b.Sealed c t)
      Exhausted := by
  have saves (checked : strict = true) :=
    (sealBlock_saves (stable_knownTypes (fun _ => False) (· < b.values.size)).durable c).ends
      (built.knownTypes checked)
  refine ends_of_forall (fun v t ok => ?_) fun e t error =>
    (sealBlock_ends built.sound inside).of_error error
  obtain ⟨sound, seals⟩ := (sealBlock_ends built.sound inside).of_ok ok
  have rooted : t.Rooted f written := by
    refine built.rooted.keep seals.grows sound.formed seals.count (fun {e o} present => ?_)
      fun new shown => (seals.new new shown).idle
    rw [seals.outline] at present
    split at present
    · obtain ⟨o', before, rfl⟩ := Option.map_eq_some_iff.mp present
      exact ⟨o', before, rfl, rfl⟩
    · exact ⟨o, present, rfl, rfl⟩
  have reduced := ((sealBlock_saves stable_reduced.durable c).ends built.reduced).of_ok ok
  refine ⟨built.keep sound seals.grows rooted reduced (fun new shown => (seals.new new shown).idle)
    fun checked => (saves checked).of_ok ok, seals.grows, fun e => ?_⟩
  rw [shape, seals.outline, shape]
  split
  · rw [Option.map_map, Option.map_map]
    exact Option.map_congr fun _ _ => rfl
  · rfl

structure Joined (b : Builder) (source c : BlockId) (args : List ValueId) (t : Builder) : Prop where
  grows : b.Grows t
  edge : ∃ front, (∀ v ∈ front, b.values.size ≤ v) ∧
    (∀ x, b.shape c = some x →
      (front ++ args).length = (x.args.map Array.size).getD args.length) ∧
    ∀ e, t.shape e = if e = c then (b.shape e).map fun x =>
      { x with predecessors := x.predecessors.push ⟨source, front ++ args⟩ } else b.shape e

theorem Joined.later {source : BlockId} {args : List ValueId} (joined : b.Joined source c args t) :
    b.Later t := joined.grows.toLater

theorem Joined.size {source : BlockId} {args : List ValueId} (joined : b.Joined source c args t) :
    b.values.size ≤ t.values.size := joined.grows.size

theorem Joined.count {source : BlockId} {args : List ValueId} (joined : b.Joined source c args t) :
    t.blocks.size = b.blocks.size := by
  obtain ⟨_, _, _, shape⟩ := joined.edge
  refine size_of_shapes fun e => ?_
  rw [shape]
  split <;> simp

theorem connect_built (built : b.Built context strict f written loose) {source : BlockId}
    {args : List ValueId} {x : Shape} (inside : source < b.blocks.size) (present : b.shape c = some x)
    (isOpen : x.isSealed = false) (known : ∀ v ∈ args, v < b.values.size ∧ b.Reaches f source v)
    (fits : x.args = none ∨ ∃ types, b.HasArguments c types ∧ args.length ≤ types.length ∧
      (strict = true → b.Suits args types) ∧ (f.Dead source ∨ args.length = types.length))
    (origin : f.Dead source ∨ ∃ p, f[c]? = some (some p) ∧ f.Under source p)
    (fresh : ∀ pred ∈ x.predecessors, pred.block ≠ source) :
    Ends (connect source c args) b (fun _ t => t.Built context strict f written loose ∧
      b.Joined source c args t) Exhausted := by
  obtain ⟨o, shown, rfl⟩ := Option.map_eq_some_iff.mp present
  obtain ⟨k, found, rfl⟩ := block_of_outline shown
  have ends : Ends (connect source c args) b
      (fun _ t => t.Consistent strict written ∧ b.Connects source c args t) Exhausted := by
    refine connect_ends built.sound inside shown isOpen (fun v member => (known v member).1)
      (fun phis given => ?_) fun checked phis given => ?_
    · rcases fits with none_ | ⟨types, takes, short, _⟩
      · cases none_.symm.trans given
      · rwa [takes.length shown given]
    · rcases fits with none_ | ⟨types, takes, _, suits, _⟩
      · cases none_.symm.trans given
      · rw [takes.typesOf shown given]
        exact suits checked
  have saves (checked : strict = true) :=
    connect_saves (stable_knownTypes (fun _ => False) (· < b.values.size)).durable
      (built.knownTypes checked) source c args fun k' present' phi member => by
        cases found.symm.trans present'
        refine (built.knownTypes checked).type_phi ?_
        cases given : k.args with
        | none =>
            rw [Block.argIds, given] at member
            cases member
        | some phis =>
            rw [Block.argIds, given] at member
            obtain ⟨j, place⟩ := Array.mem_iff_getElem?.mp (Array.mem_toList_iff.mp member)
            obtain ⟨_, _, argument, _⟩ := built.sound.ledger.argument shown given place
            exact isPhi_of_look argument
  refine ends_of_forall (fun v t ok => ?_) fun e t error => ends.of_error error
  obtain ⟨sound, connects⟩ := ends.of_ok ok
  have rooted : t.Rooted f written := by
    refine built.rooted.connects connects sound.formed origin (fun v member => (known v member).2)
      (fun o here => ?_) ?_
    · cases shown.symm.trans here
      exact fresh
    · rcases fits with none_ | ⟨types, takes, _, _, dead | length⟩
      · refine .inr fun o here => ?_
        cases shown.symm.trans here
        rw [show k.outline.args = none from none_]
        rfl
      · exact .inl dead
      · refine .inr fun o here => ?_
        cases shown.symm.trans here
        cases given : k.outline.args with
        | none => rfl
        | some phis => rw [Option.map_some, Option.getD_some, takes.length shown given, length]
  obtain ⟨front, new, length, outline⟩ := connects.edge
  have reduced := (connect_saves stable_reduced.durable built.reduced source c args fun _ _ _ _ => trivial).of_ok ok
  refine ⟨built.keep sound connects.grows rooted reduced (fun new shown => ?_)
    fun checked => (saves checked).of_ok ok, connects.grows, front, new, fun x here => ?_, fun e => ?_⟩
  · obtain ⟨_, rfl⟩ := connects.new new shown
    rfl
  · cases present.symm.trans here
    exact length _ shown
  · rw [shape, outline, shape]
    split
    · rw [Option.map_map, Option.map_map]
      exact Option.map_congr fun _ _ => rfl
    · rfl

/-- A block has got arguments, and nothing else changes but what its edges carry. -/
structure Given (b : Builder) (c : BlockId) (types : List ValueType) (t : Builder) : Prop where
  grows : b.Grows t
  takes : t.HasArguments c types
  shape : ∃ phis edges, (∀ x, b.shape c = some x →
      edges.toList.map Predecessor.block = x.predecessors.toList.map Predecessor.block) ∧
    ∀ e, t.shape e = if e = c then
      (b.shape e).map fun x => { x with args := some phis, predecessors := edges } else b.shape e

theorem Given.later (given : b.Given c types t) : b.Later t := given.grows.toLater

theorem Given.size (given : b.Given c types t) : b.values.size ≤ t.values.size := given.grows.size

theorem declare_built (built : b.Built context strict f written loose) {x : Shape}
    (present : b.shape c = some x) (undeclared : x.args = none) (isOpen : x.isSealed = false)
    (known : strict = true → ∀ type ∈ types, type ≠ .any)
    (fits : ∀ pred ∈ x.predecessors, pred.args.length ≤ types.length ∧
      (strict = true → b.Suits pred.args types) ∧
      (f.Dead pred.block ∨ pred.args.length = types.length)) :
    Ends (declareArguments c types) b (fun _ t => t.Built context strict f written loose ∧
      b.Given c types t) Exhausted := by
  obtain ⟨o, shown, rfl⟩ := Option.map_eq_some_iff.mp present
  have ends := declareArguments_ends built.sound shown undeclared isOpen
    (fun pred member => (fits pred member).1) fun checked pred member => (fits pred member).2.1 checked
  refine ends_of_forall (fun v t ok => ?_) fun e t error => ends.of_error error
  obtain ⟨sound, declares⟩ := ends.of_ok ok
  have saves (checked : strict = true) :=
    (declareArguments_saves (stable_knownTypes (fun _ => False) (· < b.values.size)).durable c
      (known checked)).ends (built.knownTypes checked)
  have rooted : t.Rooted f written := by
    refine built.rooted.declares declares sound.formed sound.ledger fun o here pred member => ?_
    cases shown.symm.trans here
    exact (fits pred member).2.2
  obtain ⟨phis, edges, size, each, extends_, outline⟩ := declares.args
  have shape_ (e : BlockId) : t.shape e = if e = c then
      (b.shape e).map fun x => { x with args := some phis, predecessors := edges } else b.shape e := by
    rw [shape, outline, shape]
    split
    · rw [Option.map_map, Option.map_map]
      exact Option.map_congr fun _ _ => rfl
    · rfl
  have reduced :=
    ((declareArguments_saves stable_reduced.durable c fun _ _ => trivial).ends built.reduced).of_ok ok
  refine ⟨built.keep sound declares.grows rooted reduced (fun new shown => ?_)
    fun checked => (saves checked).of_ok ok, declares.grows,
    ⟨_, phis, by rw [shape_, if_pos rfl, present, Option.map_some], rfl, ?_⟩, phis, edges,
    fun x here => ?_, shape_⟩
  · rcases declares.new new shown with ⟨_, rfl⟩ | ⟨_, _, _, phi⟩
    · rfl
    · cases shown.symm.trans phi.1
      rfl
  · refine List.forall₂_iff_get.mpr ⟨by simpa using size, fun i one two => ?_⟩
    have place : phis[i]? = some (phis.toList.get ⟨i, one⟩) := by
      rw [← Array.getElem?_toList, List.getElem?_eq_getElem one, List.get_eq_getElem]
    obtain ⟨_, type, p, type_, phi⟩ := each place
    rw [List.getElem?_eq_getElem two] at type_
    exact ⟨_, phi.1, (Option.some.inj type_).symm, rfl, rfl⟩
  · cases present.symm.trans here
    obtain ⟨same, both⟩ := extends_ o shown
    refine List.ext_getElem (by simp [same, BlockOutline.shape]) fun i one two => ?_
    simp only [List.getElem_map, Array.getElem_toList]
    have first : i < edges.size := by simpa using one
    have second : i < o.predecessors.size := by simpa [BlockOutline.shape] using two
    exact (both (Array.getElem?_eq_getElem second) (Array.getElem?_eq_getElem first)).1

structure Added (b : Builder) (x : Shape) (t : Builder) : Prop where
  grows : b.Grows t
  count : t.blocks.size = b.blocks.size + 1
  shape : ∀ e, t.shape e = if e = b.blocks.size then some x else b.shape e

theorem Added.later {x : Shape} (added : b.Added x t) : b.Later t := added.grows.toLater

theorem Added.size {x : Shape} (added : b.Added x t) : b.values.size ≤ t.values.size :=
  added.grows.size

theorem block_built (built : b.Built context strict f written loose) {kind : BlockKind}
    (inner : kind ≠ .entry) {x : Option BlockId} (inside : ∀ p, x = some p → p < b.blocks.size) :
    Ends (addBlock kind) b (fun id t => id = b.blocks.size ∧
      t.Built context strict (f.push x) written loose ∧ b.Added ⟨kind, false, #[], none⟩ t)
      fun _ _ => False := by
  refine (addBlock_ends built.sound inner).imp ?_
  rintro _ _ ⟨rfl, rfl, sound, grows⟩
  refine ⟨rfl, ⟨sound, built.rooted.withBlock built.sound.formed kind inside,
    stable_reduced.onBlocks _ built.reduced, fun checked => ?_,
    built.locals⟩, grows, by simp [withBlock], fun e => ?_⟩
  · subst checked
    exact (built.typing rfl).grow grows.toLater built.sound.formed sound.formed
      (Forest.grows_push f x) (fun id member => .inl member) fun id v new shown =>
        absurd (lt_of_look shown) (Nat.not_lt.mpr new)
  · rw [shape, outline_withBlock]
    split <;> rfl

theorem Rooted.made_push (rooted : b.Rooted f written) (x : Option BlockId) :
    (f.push x)[b.blocks.size]? = some x := by
  rw [← rooted.size, Array.getElem?_push, if_pos rfl]

theorem Added.of_grows {x y : Shape} (added : b.Added x t) (grows : t.Grows u)
    (shape : ∀ e, u.shape e = if e = b.blocks.size then some y else t.shape e) : b.Added y u where
  grows := added.grows.trans grows
  count := by
    refine (size_of_shapes fun n => ?_).trans added.count
    rw [shape]
    split
    · rename_i here
      simp [here, added.shape]
    · rfl
  shape e := by
    rw [shape, added.shape]
    split <;> rfl

theorem target_built (built : b.Built context strict f written loose) {kind : BlockKind}
    (inner : kind ≠ .entry) {source : BlockId} (inside : source < b.blocks.size)
    (known : strict = true → ∀ type ∈ types, type ≠ .any) :
    Ends (Validation.target kind types) b (fun id t => id = b.blocks.size ∧
      t.Built context strict (f.push (some source)) written loose ∧ t.HasArguments id types ∧
      ∃ phis, b.Added ⟨kind, false, #[], some phis⟩ t) Exhausted := by
  rw [Validation.target, ends_bind]
  refine (block_built built inner fun p same => Option.some.inj same ▸ inside).mono ?_
    fun _ _ => False.elim
  rintro _ b₁ ⟨rfl, built₁, added⟩
  rw [ends_bind]
  have present : b₁.shape b.blocks.size = some ⟨kind, false, #[], none⟩ := by
    rw [added.shape, if_pos rfl]
  refine (declare_built built₁ present rfl rfl known fun pred member => by simp at member).imp ?_
  rintro _ t ⟨built₂, given⟩
  obtain ⟨phis, edges, same, shape⟩ := given.shape
  have none_ : edges = #[] := by
    have := same _ present
    simpa using this
  rw [ends_pure]
  refine ⟨rfl, built₂, given.takes, phis, added.of_grows given.grows fun e => ?_⟩
  rw [shape]
  split
  · rename_i here
    rw [here, present, none_, Option.map_some]
  · rfl

theorem follower_built (built : b.Built context strict f written loose) {source : BlockId}
    (inside : source < b.blocks.size) :
    Ends (Validation.follower source) b (fun id t => id = b.blocks.size ∧
      t.Built context strict (f.push (some source)) written loose ∧
      b.Added ⟨.body, true, #[⟨source, []⟩], none⟩ t) Exhausted := by
  rw [Validation.follower, ends_bind]
  refine (block_built built (by simp) fun p same => Option.some.inj same ▸ inside).mono ?_
    fun _ _ => False.elim
  rintro _ b₁ ⟨rfl, built₁, added⟩
  rw [ends_bind]
  have present : b₁.shape b.blocks.size = some ⟨.body, false, #[], none⟩ := by
    rw [added.shape, if_pos rfl]
  refine (connect_built built₁ (added.count ▸ Nat.lt_succ_of_lt inside) present rfl (by simp) (.inl rfl)
    (.inr ⟨source, built.rooted.made_push _, .refl source⟩) (by simp)).imp ?_
  rintro _ b₂ ⟨built₂, joined⟩
  rw [ends_bind]
  have count := joined.count.trans added.count
  refine (seal_built built₂ (count ▸ Nat.lt_succ_self _)).imp ?_
  rintro _ t ⟨built₃, seals⟩
  rw [ends_pure]
  refine ⟨rfl, built₃, added.of_grows (joined.grows.trans seals.grows) fun e => ?_⟩
  obtain ⟨front, _, length, shape⟩ := joined.edge
  have none_ : front = [] := by
    have := length _ present
    simpa using this
  rw [seals.shape, shape, none_]
  split
  · rename_i here
    rw [here, present]
    rfl
  · rfl

theorem orphan_built (built : b.Built context strict f written loose) :
    Ends (Validation.orphan) b (fun id t => id = b.blocks.size ∧
      t.Built context strict (f.push none) written loose ∧
      b.Added ⟨.body, true, #[], none⟩ t) Exhausted := by
  rw [Validation.orphan, ends_bind]
  refine (block_built built (by simp) (x := none) (by simp)).mono ?_ fun _ _ => False.elim
  rintro _ b₁ ⟨rfl, built₁, added⟩
  rw [ends_bind]
  refine (seal_built built₁ (added.count ▸ Nat.lt_succ_self _)).imp ?_
  rintro _ t ⟨built₂, seals⟩
  rw [ends_pure]
  refine ⟨rfl, built₂, added.of_grows seals.grows fun e => ?_⟩
  rw [seals.shape]
  split
  · rename_i here
    rw [here, added.shape, if_pos rfl]
    rfl
  · rfl

end WasmFunclets.Ssa.Builder
