import WasmFunclets.Proofs.Attempt
import WasmFunclets.TypedStack

/-! What the changes of an operand stack leave of it: all below the floor, and on a stack without
operands of unknown type exactly the operands that were not asked for. -/

namespace WasmFunclets

theorem ValueType.admits_iff {actual expected : ValueType} :
    actual.admits expected = true ↔ actual = expected ∨ actual = .any := by
  simp [ValueType.admits]

namespace TypedStack

open Attempt

variable {s t : TypedStack} {expected : List ValueType}

def reach (s : TypedStack) (n : Nat) : Nat := min n s.available

theorem reach_le_height (s : TypedStack) (n : Nat) : s.reach n ≤ s.height := by
  unfold reach available
  omega

theorem floor_le_of_reach (s : TypedStack) (n : Nat) (above : s.floor ≤ s.height) :
    s.floor ≤ s.height - s.reach n := by
  unfold reach available
  omega

theorem height_eq (s : TypedStack) : s.height = s.operands.toList.length := rfl

theorem top_eq (s : TypedStack) (n : Nat) :
    s.top n = s.operands.toList.drop (s.height - s.reach n) := by
  simp [top, reach, height, List.take_of_length_le]

theorem length_top (s : TypedStack) (n : Nat) : (s.top n).length = s.reach n := by
  have := s.reach_le_height n
  rw [top_eq, List.length_drop, ← height_eq]
  omega

theorem fits_length {actual : List ValueType} (fit : fits false actual expected = true) :
    expected.length ≤ actual.length := by
  induction actual generalizing expected with
  | nil => cases expected <;> simp_all [fits]
  | cons a actual ih =>
      cases expected with
      | nil => simp
      | cons e expected =>
          simp only [fits, Bool.and_eq_true] at fit
          simpa using ih fit.2

theorem fits_eq {actual : List ValueType} {more : Bool} (fit : fits more actual expected = true)
    (length : actual.length = expected.length) (known : ∀ t ∈ actual, t ≠ .any) :
    actual = expected := by
  induction actual generalizing expected with
  | nil => simpa using length.symm
  | cons a actual ih =>
      cases expected with
      | nil => simp at length
      | cons e expected =>
          simp only [fits, Bool.and_eq_true, ValueType.admits_iff] at fit
          have head : a = e := fit.1.resolve_right (known a (by simp))
          have tail := ih fit.2 (by simpa using length) fun t member => known t (by simp [member])
          rw [head, tail]

theorem toList_resize {h : Nat} (le : h ≤ s.height) :
    (s.resize h).operands.toList = s.operands.toList.take h := by
  unfold height at le
  simp [resize, height, Nat.sub_eq_zero_of_le le]

theorem height_resize {h : Nat} (le : h ≤ s.height) : (s.resize h).height = h := by
  rw [height_eq, toList_resize le, List.length_take, ← height_eq]
  omega

@[simp] theorem floor_resize (s : TypedStack) (h : Nat) : (s.resize h).floor = s.floor := rfl

@[simp] theorem polymorphic_resize (s : TypedStack) (h : Nat) :
    (s.resize h).polymorphic = s.polymorphic := rfl

theorem toList_foldl_push (operands : List Operand) (array : Array Operand) :
    (operands.foldl Array.push array).toList = array.toList ++ operands := by
  induction operands generalizing array with
  | nil => simp
  | cons operand operands => simp

def without (s : TypedStack) (types : List ValueType) : TypedStack :=
  s.resize (s.height - s.reach types.length)

def extend (s : TypedStack) (operands : List Operand) : TypedStack :=
  { s with operands := operands.foldl Array.push s.operands }

theorem without_nil (s : TypedStack) : s.without [] = s := by
  simp [without, reach, resize, height]

theorem height_without (s : TypedStack) (types : List ValueType) :
    (s.without types).height = s.height - s.reach types.length :=
  height_resize (Nat.sub_le _ _)

theorem toList_without (s : TypedStack) (types : List ValueType) :
    (s.without types).operands.toList = s.operands.toList.take (s.without types).height := by
  rw [height_without]
  exact toList_resize (Nat.sub_le _ _)

@[simp] theorem floor_without (s : TypedStack) (types : List ValueType) :
    (s.without types).floor = s.floor := rfl

@[simp] theorem polymorphic_without (s : TypedStack) (types : List ValueType) :
    (s.without types).polymorphic = s.polymorphic := rfl

@[simp] theorem toList_extend (s : TypedStack) (operands : List Operand) :
    (s.extend operands).operands.toList = s.operands.toList ++ operands :=
  toList_foldl_push operands s.operands

@[simp] theorem floor_extend (s : TypedStack) (operands : List Operand) :
    (s.extend operands).floor = s.floor := rfl

@[simp] theorem polymorphic_extend (s : TypedStack) (operands : List Operand) :
    (s.extend operands).polymorphic = s.polymorphic := rfl

@[simp] theorem height_extend (s : TypedStack) (operands : List Operand) :
    (s.extend operands).height = s.height + operands.length := by
  simp [height_eq]

/-- The operands of popped types: known ones as far as the stack reaches, below them conjured ones. -/
def taken (s : TypedStack) (expected : List ValueType) : List Operand :=
  let known := s.top expected.length
  List.zipWith Operand.mk expected
    (List.replicate (expected.length - known.length) none ++ known.map Operand.value)

theorem popTypes_ok {ops : List Operand} :
    popTypes expected s = .ok ops t ↔
      s.accepts expected = true ∧ ops = s.taken expected ∧
        t = s.without expected := by
  simp only [popTypes, bind_ok, get_ok, require_ok, modify_ok, pure_ok]
  constructor
  · rintro ⟨_, _, ⟨rfl, rfl⟩, _, _, ⟨accepted, rfl⟩, _, _, rfl, rfl, rfl⟩
    exact ⟨accepted, rfl, by rw [length_top, without]⟩
  · rintro ⟨accepted, rfl, rfl⟩
    exact ⟨s, s, ⟨rfl, rfl⟩, (), s, ⟨accepted, rfl⟩, ⟨⟩, _, rfl, rfl, by rw [length_top, without]⟩

theorem length_taken (s : TypedStack) (expected : List ValueType) :
    (s.taken expected).length = expected.length := by
  have : s.reach expected.length ≤ expected.length := Nat.min_le_left _ _
  simp only [taken, List.length_zipWith, List.length_append, List.length_replicate,
    List.length_map, length_top]
  omega

theorem types_zipWith {types : List ValueType} {values : List (Option ValueId)}
    (length : types.length ≤ values.length) :
    (List.zipWith Operand.mk types values).map Operand.type = types := by
  induction types generalizing values with
  | nil => simp
  | cons type types ih =>
      cases values with
      | nil => simp at length
      | cons value values => simpa using ih (by simpa using length)

theorem types_taken (s : TypedStack) (expected : List ValueType) :
    (s.taken expected).map Operand.type = expected := by
  have : s.reach expected.length ≤ expected.length := Nat.min_le_left _ _
  apply types_zipWith
  simp only [List.length_append, List.length_replicate, List.length_map, length_top]
  omega

theorem zipWith_type_value (operands : List Operand) :
    List.zipWith Operand.mk (operands.map Operand.type) (operands.map Operand.value) = operands := by
  induction operands with
  | nil => rfl
  | cons operand operands ih => simp [ih]

@[simp] theorem push_ok {operand : Operand} {x : Unit} :
    push operand s = .ok x t ↔ s.extend [operand] = t := modify_ok

@[simp] theorem pushAll_ok {operands : List Operand} {x : Unit} :
    pushAll operands s = .ok x t ↔ s.extend operands = t := modify_ok

def entered (s : TypedStack) (params : List ValueType) : TypedStack :=
  { (s.without params).extend (s.taken params) with
    floor := (s.without params).height
    polymorphic := false }

@[simp] theorem enter_ok {params : List ValueType} {m : Mark} :
    enter params s = .ok m t ↔
      s.accepts params = true ∧ m = ⟨(s.without params).height, s.floor, s.polymorphic⟩ ∧
        s.entered params = t := by
  have base : ((s.without params).extend (s.taken params)).height - params.length =
      (s.without params).height := by
    rw [height_extend, length_taken]
    omega
  simp only [enter, bind_ok, popTypes_ok, pushAll_ok, get_ok, set_ok, pure_ok]
  constructor
  · rintro ⟨_, _, ⟨accepted, rfl, rfl⟩, _, _, rfl, _, _, ⟨rfl, rfl⟩, _, _, rfl, rfl, rfl⟩
    exact ⟨accepted, by rw [base]; rfl, by rw [base]; rfl⟩
  · rintro ⟨accepted, rfl, rfl⟩
    exact ⟨_, _, ⟨accepted, rfl, rfl⟩, (), _, rfl, _, _, ⟨rfl, rfl⟩, ⟨⟩, _, rfl,
      by rw [base]; rfl, by rw [base]; rfl⟩

def left (s : TypedStack) (saved : Mark) : TypedStack :=
  { s.resize saved.height with floor := saved.floor, polymorphic := saved.polymorphic }

@[simp] theorem leave_ok {saved : Mark} {x : Unit} : leave saved s = .ok x t ↔ s.left saved = t :=
  modify_ok

def cleared (s : TypedStack) (polymorphic : Bool) : TypedStack :=
  { s.resize s.floor with polymorphic }

@[simp] theorem reset_ok {operands : List Operand} {x : Unit} :
    reset operands s = .ok x t ↔ (s.cleared false).extend operands = t := by
  simp [reset, cleared]

@[simp] theorem becomePolymorphic_ok {x : Unit} :
    becomePolymorphic s = .ok x t ↔ s.cleared true = t := modify_ok

theorem pop_ok {operand : Operand} :
    pop s = .ok operand t ↔
      if s.height = s.floor then s.polymorphic = true ∧ operand = ⟨.any, none⟩ ∧ t = s
      else s.operands.back? = some operand ∧ t = { s with operands := s.operands.pop } := by
  simp only [pop, get_bind_ok]
  by_cases empty : s.height = s.floor
  · simp only [empty, if_true]
    cases s.polymorphic with
    | false => simp
    | true =>
        simp
        grind
  · simp only [empty, if_false]
    cases s.operands.back? with
    | none => simp
    | some top =>
        simp
        grind

theorem popType_ok {type : ValueType} {operand : Operand} :
    popType type s = .ok operand t ↔
      if s.height = s.floor then s.polymorphic = true ∧ operand = ⟨type, none⟩ ∧ t = s
      else s.topType.admits type = true ∧ ∃ top, s.operands.back? = some top ∧
        operand = { top with type } ∧ t = { s with operands := s.operands.pop } := by
  simp only [popType, get_bind_ok]
  by_cases empty : s.height = s.floor
  · simp only [empty, if_true]
    cases s.polymorphic with
    | false => simp
    | true =>
        simp
        grind
  · simp only [empty, if_false, bind_ok, require_ok, pop_ok, pure_ok]
    constructor
    · rintro ⟨_, _, ⟨admits, rfl⟩, top, _, popped, rfl, rfl⟩
      rw [if_neg empty] at popped
      exact ⟨admits, top, popped.1, rfl, popped.2⟩
    · rintro ⟨admits, top, last, rfl, rfl⟩
      refine ⟨(), _, ⟨admits, rfl⟩, top, _, ?_, rfl, rfl⟩
      rw [if_neg empty]
      exact ⟨last, rfl⟩

/-- The second stack has the floor of the first one and all operands below it. -/
structure Rests (s t : TypedStack) : Prop where
  floor : t.floor = s.floor
  below : t.operands.toList.take s.floor = s.operands.toList.take s.floor
  above : t.floor ≤ t.height

theorem Rests.refl (above : s.floor ≤ s.height) : Rests s s := ⟨rfl, rfl, above⟩

theorem Rests.trans {u : TypedStack} (first : Rests s t) (second : Rests t u) : Rests s u where
  floor := second.floor.trans first.floor
  below := by
    rw [← first.below, ← first.floor]
    exact second.below
  above := second.above

theorem rests_without (types : List ValueType) (above : s.floor ≤ s.height) :
    Rests s (s.without types) where
  floor := rfl
  below := by
    have reaches := s.floor_le_of_reach types.length above
    rw [toList_without, List.take_take, height_without, Nat.min_eq_left reaches]
  above := by
    rw [height_without]
    exact s.floor_le_of_reach types.length above

theorem rests_extend (operands : List Operand) (above : s.floor ≤ s.height) :
    Rests s (s.extend operands) where
  floor := rfl
  below := by rw [toList_extend, List.take_append_of_le_length above]
  above := by
    rw [height_extend]
    exact Nat.le_add_right_of_le above

theorem rests_cleared (polymorphic : Bool) (above : s.floor ≤ s.height) :
    Rests s (s.cleared polymorphic) where
  floor := rfl
  below := by
    change (s.resize s.floor).operands.toList.take s.floor = _
    rw [toList_resize above, List.take_take, Nat.min_self]
  above := by
    have height : (s.cleared polymorphic).height = s.floor := height_resize above
    exact Nat.le_of_eq height.symm

theorem operandsFrom_eq_some {h : Nat} {operands : List Operand} :
    s.operandsFrom h = some operands ↔ h ≤ s.height ∧ operands = s.operands.toList.drop h := by
  have all : (s.operands.extract h s.height).toList = s.operands.toList.drop h := by
    simp [height, List.take_of_length_le]
  rw [operandsFrom, all]
  by_cases reach : h ≤ s.height <;> simp [reach, eq_comm]

theorem types_withValues (types : List ValueType) (values : List (Option ValueId)) :
    (withValues types values).map Operand.type = types := by
  apply types_zipWith
  simp only [List.length_append, List.length_replicate]
  omega

theorem rests_pop (above : s.floor ≤ s.height) (some_ : s.height ≠ s.floor) :
    Rests s { s with operands := s.operands.pop } where
  floor := rfl
  below := by
    have reach : s.floor ≤ s.operands.toList.length - 1 := by
      rw [← height_eq]
      omega
    rw [Array.toList_pop, List.dropLast_eq_take, List.take_take, Nat.min_eq_left reach]
  above := by
    rw [height_eq, Array.toList_pop, List.length_dropLast, ← height_eq]
    change s.floor ≤ _
    omega

/-- The second stack has operands of the given types on top of what the first has below a height. -/
structure Tops (s t : TypedStack) (h : Nat) (types : List ValueType) : Prop where
  reach : h ≤ s.height
  operands : ∃ tops, t.operands.toList = s.operands.toList.take h ++ tops ∧
    tops.map Operand.type = types

theorem Tops.height {h : Nat} {types : List ValueType} (tops : Tops s t h types) :
    t.height = h + types.length := by
  obtain ⟨operands, same, types⟩ := tops.operands
  rw [height_eq, same, List.length_append, List.length_take, ← height_eq,
    Nat.min_eq_left tops.reach, ← types, List.length_map]

theorem take_of_take {α : Type} {a b : List α} {m n : Nat} (le : m ≤ n)
    (same : a.take n = b.take n) : a.take m = b.take m := by
  have shorter := congrArg (List.take m) same
  rwa [List.take_take, List.take_take, Nat.min_eq_left le] at shorter

theorem Tops.take {h : Nat} {types : List ValueType} (tops : Tops s t h types) :
    t.operands.toList.take h = s.operands.toList.take h := by
  obtain ⟨operands, same, _⟩ := tops.operands
  have length : (s.operands.toList.take h).length = h := by
    rw [List.length_take, ← height_eq, Nat.min_eq_left tops.reach]
  rw [same, List.take_left' length]

theorem Tops.of_rests {u : TypedStack} {h : Nat} {types : List ValueType} (rests : Rests s t)
    (tops : Tops t u h types) (reach : h ≤ s.floor) (above : s.floor ≤ s.height) :
    Tops s u h types where
  reach := Nat.le_trans reach above
  operands := by
    obtain ⟨operands, same, types⟩ := tops.operands
    refine ⟨operands, ?_, types⟩
    have below := congrArg (List.take h) rests.below
    rw [List.take_take, List.take_take, Nat.min_eq_left reach] at below
    rw [same, below]

theorem tops_cleared (types : List ValueType) (values : List (Option ValueId))
    (polymorphic : Bool) (above : s.floor ≤ s.height) :
    Tops s ((s.cleared polymorphic).extend (withValues types values)) s.floor types where
  reach := above
  operands := by
    refine ⟨withValues types values, ?_, types_withValues _ _⟩
    rw [toList_extend]
    exact congrArg (· ++ _) (toList_resize above)

theorem tops_left (types : List ValueType) (values : List (Option ValueId)) (saved : Mark)
    (reach : saved.height ≤ s.height) :
    Tops s ((s.left saved).extend (withValues types values)) saved.height types where
  reach := reach
  operands := by
    refine ⟨withValues types values, ?_, types_withValues _ _⟩
    rw [toList_extend]
    exact congrArg (· ++ _) (toList_resize reach)

theorem tops_entered (params : List ValueType) :
    Tops s (s.entered params) (s.without params).height params where
  reach := by
    rw [height_without]
    exact Nat.sub_le _ _
  operands := by
    refine ⟨s.taken params, ?_, s.types_taken params⟩
    rw [← toList_without]
    exact toList_extend _ _

theorem ext_operands {u v : TypedStack} (operands : u.operands.toList = v.operands.toList)
    (floor : u.floor = v.floor) (polymorphic : u.polymorphic = v.polymorphic) : u = v := by
  obtain ⟨⟨_⟩, _, _⟩ := u
  obtain ⟨⟨_⟩, _, _⟩ := v
  simp_all

theorem without_extend {types : List ValueType} {operands : List Operand}
    (length : operands.length = types.length) (above : s.floor ≤ s.height) :
    ((s.without types).extend operands).without types = s.without types := by
  have rests := rests_without types above
  have reaches : ((s.without types).extend operands).reach types.length = types.length := by
    apply Nat.min_eq_left
    unfold available
    rw [height_extend, floor_extend, length]
    have := rests.above
    omega
  refine ext_operands ?_ rfl rfl
  rw [toList_without, height_without, reaches, height_extend, length, Nat.add_sub_cancel,
    toList_extend, List.take_left' (height_eq _).symm]

theorem Tops.of_without {types expected : List ValueType} {h : Nat}
    (tops : Tops (s.without types) t h expected) : Tops s t h expected where
  reach := by
    have reach := tops.reach
    rw [height_without] at reach
    omega
  operands := by
    obtain ⟨operands, same, fit⟩ := tops.operands
    refine ⟨operands, ?_, fit⟩
    rw [same, toList_without, List.take_take, Nat.min_eq_left tops.reach]

theorem tops_shared {params : List ValueType} {operands : List Operand}
    (length : operands.length = params.length) (above : s.floor ≤ s.height) :
    Tops s (((s.without params).extend operands).entered params) (s.without params).height
      params := by
  have tops := tops_entered (s := (s.without params).extend operands) params
  rw [without_extend length above] at tops
  refine ⟨?_, ?_⟩
  · rw [height_without]
    exact Nat.sub_le _ _
  · obtain ⟨entered, same, fit⟩ := tops.operands
    refine ⟨entered, ?_, fit⟩
    rw [same, toList_extend, List.take_left' (height_eq _).symm, toList_without]

theorem Tops.reset {h : Nat} {types : List ValueType} (tops : Tops s t h types)
    (floor : t.floor = h) (polymorphic : Bool) (values : List (Option ValueId)) :
    Tops s ((t.cleared polymorphic).extend (withValues types values)) h types where
  reach := tops.reach
  operands := by
    obtain ⟨operands, same, _⟩ := tops.operands
    refine ⟨withValues types values, ?_, types_withValues _ _⟩
    have above : t.floor ≤ t.height := by
      rw [floor, tops.height]
      exact Nat.le_add_right _ _
    have cleared : (t.cleared polymorphic).operands.toList = t.operands.toList.take t.floor :=
      toList_resize above
    have length : (s.operands.toList.take h).length = h := by
      rw [List.length_take, ← height_eq, Nat.min_eq_left tops.reach]
    rw [toList_extend, cleared, floor, same, List.take_left' length]

theorem length_withValues (types : List ValueType) (values : List (Option ValueId)) :
    (withValues types values).length = types.length := by
  rw [← List.length_map Operand.type, types_withValues]

structure Solid (s : TypedStack) : Prop where
  finite : s.polymorphic = false
  known : ∀ o ∈ s.operands.toList, o.type ≠ .any

theorem Solid.accepts (solid : s.Solid) (accepted : s.accepts expected = true) :
    expected.length ≤ s.available ∧
      (s.operands.toList.drop (s.height - expected.length)).map Operand.type = expected := by
  rw [TypedStack.accepts, solid.finite] at accepted
  have short : expected.length ≤ s.reach expected.length := by
    simpa [length_top] using fits_length accepted
  have all : s.reach expected.length = expected.length := by
    unfold reach at *
    omega
  refine ⟨by unfold reach at all; omega, ?_⟩
  have known : ∀ t ∈ ((s.top expected.length).map Operand.type).reverse, t ≠ .any := by
    intro t member
    obtain ⟨o, present, rfl⟩ := List.mem_map.mp (List.mem_reverse.mp member)
    rw [top_eq] at present
    exact solid.known o (List.mem_of_mem_drop present)
  have same := fits_eq accepted (by simp [length_top, all]) known
  rw [top_eq, all] at same
  simpa using same

theorem Solid.taken (solid : s.Solid) (accepted : s.accepts expected = true) :
    s.taken expected = s.operands.toList.drop (s.height - expected.length) := by
  obtain ⟨enough, types⟩ := solid.accepts accepted
  have all : s.reach expected.length = expected.length := Nat.min_eq_left enough
  have above : expected.length ≤ s.height := by
    rw [← all]
    exact reach_le_height s _
  have none : expected.length - (s.height - (s.height - expected.length)) = 0 := by omega
  simp only [TypedStack.taken, top_eq, all, List.length_drop, ← height_eq, none,
    List.replicate_zero, List.nil_append]
  have same := zipWith_type_value (s.operands.toList.drop (s.height - expected.length))
  rwa [types] at same

theorem Solid.entered (solid : s.Solid) (accepted : s.accepts expected = true) :
    (s.entered expected).operands.toList = s.operands.toList := by
  have all : s.reach expected.length = expected.length := Nat.min_eq_left (solid.accepts accepted).1
  have whole : (s.entered expected).operands.toList =
      (s.without expected).operands.toList ++ s.taken expected := toList_extend _ _
  rw [whole, solid.taken accepted, toList_without, height_without, all, List.take_append_drop]

theorem Solid.holdsExactly (solid : s.Solid) (exact_ : s.holdsExactly expected = true)
    (above : s.floor ≤ s.height) :
    (s.operands.toList.drop s.floor).map Operand.type = expected := by
  simp only [TypedStack.holdsExactly, Bool.and_eq_true, decide_eq_true_eq] at exact_
  obtain ⟨enough, types⟩ := solid.accepts exact_.2
  have : s.height - expected.length = s.floor := by
    unfold available at *
    omega
  rwa [this] at types

/-- Types that fit admit each other from the topmost down, and none is missing unless more follow. -/
theorem fits_spec {more : Bool} {actual : List ValueType} (fit : fits more actual expected = true) :
    (∀ {i : Nat} {a e : ValueType}, actual[i]? = some a → expected[i]? = some e →
      a.admits e = true) ∧ (actual.length < expected.length → more = true) := by
  induction actual generalizing expected with
  | nil =>
      cases expected with
      | nil => simp
      | cons => exact ⟨fun absurd_ => by simp at absurd_, fun _ => fit⟩
  | cons a actual ih =>
      cases expected with
      | nil => simp
      | cons e expected =>
          simp only [fits, Bool.and_eq_true] at fit
          obtain ⟨each, enough⟩ := ih fit.2
          refine ⟨fun {i} => ?_, fun short => enough (Nat.lt_of_succ_lt_succ short)⟩
          cases i with
          | zero =>
              intro a' e' one two
              cases one
              cases two
              exact fit.1
          | succ i => exact each

/-- An operand that is popped comes from the stack, where its type was admitted, or it is conjured. -/
theorem mem_taken (above : s.floor ≤ s.height) (accepted : s.accepts expected = true)
    {operand : Operand} (member : operand ∈ s.taken expected) : operand.type ∈ expected ∧
      (operand.value = none ∧ s.polymorphic = true ∨ ∃ below ∈ s.operands.toList.drop s.floor,
        below.value = operand.value ∧ below.type.admits operand.type = true) := by
  obtain ⟨each, enough⟩ := fits_spec accepted
  have short : (s.top expected.length).length ≤ expected.length := by
    rw [length_top]
    exact Nat.min_le_left _ _
  obtain ⟨i, place⟩ := List.mem_iff_getElem?.mp member
  simp only [taken, List.getElem?_zipWith] at place
  split at place
  case h_2 => cases place
  rename_i type value type_ value_
  cases place
  refine ⟨List.mem_of_getElem? type_, ?_⟩
  have below := (List.getElem?_eq_some_iff.mp type_).1
  rw [List.getElem?_append] at value_
  split at value_
  · rename_i conjured
    rw [List.length_replicate] at conjured
    refine .inl ⟨(List.eq_of_mem_replicate (List.mem_of_getElem? value_)), enough ?_⟩
    simp only [List.length_reverse, List.length_map]
    omega
  · rename_i known
    rw [List.length_replicate] at known value_
    rw [List.getElem?_map] at value_
    obtain ⟨operand, place, rfl⟩ := Option.map_eq_some_iff.mp value_
    refine .inr ⟨operand, ?_, rfl, @each (expected.length - 1 - i) _ _ ?_ ?_⟩
    · have listed := List.mem_of_getElem? place
      rw [top_eq] at listed
      exact List.drop_subset_drop_left _ (floor_le_of_reach s _ above) listed
    · have within := (List.getElem?_eq_some_iff.mp place).1
      rw [List.getElem?_reverse (by rw [List.length_map]; omega), List.getElem?_map, List.length_map]
      have same : (s.top expected.length).length - 1 - (expected.length - 1 - i) =
          i - (expected.length - (s.top expected.length).length) := by omega
      rw [same, place, Option.map_some]
    · rw [List.getElem?_reverse (by omega)]
      have same : expected.length - 1 - (expected.length - 1 - i) = i := by omega
      rw [same, type_]

theorem eq_pop_append {operands : Array Operand} {operand : Operand}
    (top : operands.back? = some operand) : operands.toList = operands.pop.toList ++ [operand] := by
  rw [← Array.getLast?_toList] at top
  obtain ⟨below, same⟩ := List.getLast?_eq_some_iff.mp top
  rw [Array.toList_pop, same, List.dropLast_concat]

theorem pop_cases {operand : Operand} (ok : pop s = .ok operand t) :
    s.polymorphic = true ∧ operand = ⟨.any, none⟩ ∧ t = s ∨
      s.height ≠ s.floor ∧ s.operands.toList = t.operands.toList ++ [operand] ∧
        t = { s with operands := s.operands.pop } := by
  have popped := pop_ok.mp ok
  split at popped
  · exact .inl popped
  · rename_i some_
    obtain ⟨top, rfl⟩ := popped
    refine .inr ⟨some_, ?_, rfl⟩
    exact eq_pop_append top

theorem popType_cases {operand : Operand} (ok : popType type s = .ok operand t) :
    operand.type = type ∧ (s.polymorphic = true ∧ operand.value = none ∧ t = s ∨
      s.height ≠ s.floor ∧ ∃ below, s.operands.toList = t.operands.toList ++ [below] ∧
        below.value = operand.value ∧ below.type.admits type = true ∧
          t = { s with operands := s.operands.pop }) := by
  have popped := popType_ok.mp ok
  split at popped
  · obtain ⟨polymorphic, rfl, rfl⟩ := popped
    exact ⟨rfl, .inl ⟨polymorphic, rfl, rfl⟩⟩
  · rename_i some_
    obtain ⟨admitted, below, top, rfl, rfl⟩ := popped
    refine ⟨rfl, .inr ⟨some_, below, ?_, rfl, ?_, rfl⟩⟩
    · exact eq_pop_append top
    · have type_ : s.topType = below.type := by
        simp [topType, some_, top]
      rwa [type_] at admitted

end TypedStack

end WasmFunclets
