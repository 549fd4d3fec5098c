import Mathlib.Data.List.Induction
import WasmFunclets.Proofs.Typing.Weaker

/-! The ways to ask for operands agree: to be told whether types are accepted, to take operands of
these types at once, and to take one after another from the last type to the first. -/

namespace WasmFunclets.TypedStack

open Attempt

variable {s t : TypedStack} {types front back : List ValueType} {type : ValueType}
variable {operands : List Operand} {operand : Operand}

/-- Takes operands one by one, the last type first. They are listed as the types are. -/
def popEach (expected : List ValueType) : Attempt TypedStack (List Operand) := do
  let topmostFirst ← expected.reverse.mapM popType
  pure topmostFirst.reverse

theorem fits_take {more : Bool} {actual : List ValueType} {n : Nat} (enough : types.length ≤ n) :
    fits more (actual.take n) types = fits more actual types := by
  induction types generalizing actual n with
  | nil => simp [fits]
  | cons type types ih =>
      cases n with
      | zero => simp at enough
      | succ n =>
          cases actual with
          | nil => rfl
          | cons a actual => rw [List.take_succ_cons, fits, fits, ih (Nat.le_of_succ_le_succ enough)]

theorem fits_append (more : Bool) (actual front back : List ValueType) :
    fits more actual (front ++ back) =
      (fits more actual front && fits more (actual.drop front.length) back) := by
  induction front generalizing actual with
  | nil => simp [fits]
  | cons type front ih =>
      cases actual with
      | nil => cases more <;> cases back <;> rfl
      | cons a actual =>
          rw [List.cons_append, fits, fits, ih, Bool.and_assoc, List.length_cons,
            List.drop_succ_cons]

theorem accepts_own (above : s.floor ≤ s.height) (types : List ValueType) :
    s.accepts types = fits s.polymorphic s.ownTypes.reverse types.reverse := by
  have same : s.own.length - types.length = s.ownTypes.length - types.length := by
    rw [length_ownTypes]
  rw [accepts, top_own s _ above, List.map_drop, ← ownTypes, same, ← List.take_reverse,
    fits_take (Nat.le_of_eq List.length_reverse)]

/-- The values of as many operands, with none for the ones that are conjured below the others. -/
def supply (values : List (Option ValueId)) (n : Nat) : List (Option ValueId) :=
  List.replicate (n - values.length) none ++ values.drop (values.length - n)

theorem length_supply (values : List (Option ValueId)) (n : Nat) : (supply values n).length = n := by
  rw [supply, List.length_append, List.length_replicate, List.length_drop]
  omega

theorem supply_add (values : List (Option ValueId)) (m n : Nat) :
    supply values (m + n) = supply (values.take (values.length - n)) m ++ supply values n := by
  simp only [supply, List.length_take]
  by_cases short : values.length ≤ n
  · -- Whatever is below the last n is conjured.
    have none_ : values.length - n = 0 := by omega
    have none_' : values.length - (m + n) = 0 := by omega
    have split : m + n - values.length = m + (n - values.length) := by omega
    rw [none_, none_', split, List.replicate_add, List.append_assoc]
    simp
  · obtain ⟨k, split⟩ : ∃ k, values.length = k + n := ⟨values.length - n, by omega⟩
    have first : values.length - n = k := by omega
    have sum : values.length - (m + n) = k - m := by omega
    have few : m + n - values.length = m - k := by omega
    have none_ : n - values.length = 0 := by omega
    have fewer : min k values.length = k := by omega
    rw [first, sum, few, none_, fewer, List.replicate_zero, List.nil_append, List.append_assoc,
      List.drop_take, List.append_cancel_left_eq]
    have rejoined := List.take_append_drop (k - (k - m)) (values.drop (k - m))
    rw [List.drop_drop] at rejoined
    have last : k - m + (k - (k - m)) = k := by omega
    rw [last] at rejoined
    exact rejoined.symm

theorem taken_own (above : s.floor ≤ s.height) (types : List ValueType) :
    s.taken types =
      List.zipWith Operand.mk types (supply (s.own.map Operand.value) types.length) := by
  simp only [taken, supply, top_own s _ above, List.length_drop, List.length_map, List.map_drop]
  congr 3
  omega

theorem accepts_append (above : s.floor ≤ s.height) :
    s.accepts (front ++ back) = (s.accepts back && (s.without back).accepts front) := by
  have below := (rests_without back above).above
  rw [accepts_own above, accepts_own above, accepts_own below, List.reverse_append, fits_append,
    ownTypes_without, polymorphic_without, List.length_reverse, ← length_ownTypes, List.drop_reverse]

theorem taken_append (above : s.floor ≤ s.height) :
    s.taken (front ++ back) = (s.without back).taken front ++ s.taken back := by
  have below := (rests_without back above).above
  have values : (s.without back).own.map Operand.value =
      (s.own.map Operand.value).take ((s.own.map Operand.value).length - back.length) := by
    rw [own_without, List.map_take, List.length_map]
  rw [taken_own above, taken_own above, taken_own below, values, List.length_append, supply_add,
    List.zipWith_append (length_supply _ _).symm]

theorem without_append (above : s.floor ≤ s.height) :
    s.without (front ++ back) = (s.without back).without front := by
  have heights : (s.without (front ++ back)).height = ((s.without back).without front).height := by
    simp only [height_without, reach, available, floor_without, List.length_append]
    omega
  refine ext_operands ?_ rfl rfl
  have less : ((s.without back).without front).height ≤ (s.without back).height := by
    rw [height_without]
    exact Nat.sub_le _ _
  rw [toList_without, toList_without, toList_without, List.take_take, heights,
    Nat.min_eq_left less]

theorem own_of_some (above : s.floor ≤ s.height) (some_ : s.height ≠ s.floor)
    (top : s.operands.back? = some operand) : ∃ below, s.own = below ++ [operand] := by
  rw [own, eq_pop_append top]
  exact ⟨_, List.drop_append_of_le_length (rests_pop above some_).above⟩

theorem popTypes_single (above : s.floor ≤ s.height) :
    popTypes [type] s = .ok operands t ↔
      ∃ operand, popType type s = .ok operand t ∧ operands = [operand] := by
  simp only [popTypes_ok, popType_ok, taken_own above, accepts_own above, ownTypes]
  by_cases empty : s.height = s.floor
  · have own : s.own = [] := by
      rw [← List.length_eq_zero_iff, length_own, available, empty, Nat.sub_self]
    rw [own, without_of_empty empty]
    simp [empty, supply, fits, and_comm, and_assoc]
  · obtain ⟨top, last⟩ := exists_back above empty
    obtain ⟨below, own⟩ := own_of_some above empty last
    have topType : s.topType = top.type := by simp [TypedStack.topType, empty, last]
    rw [own, without_of_some above empty, topType, last]
    simp [empty, supply, fits, and_comm, and_assoc]

theorem popTypes_append (above : s.floor ≤ s.height) :
    popTypes (front ++ back) s = .ok operands t ↔ ∃ last u first,
      popTypes back s = .ok last u ∧ popTypes front u = .ok first t ∧ operands = first ++ last := by
  simp only [popTypes_ok, accepts_append above, Bool.and_eq_true]
  constructor
  · rintro ⟨⟨one, two⟩, rfl, rfl⟩
    exact ⟨_, _, _, ⟨one, rfl, rfl⟩, ⟨two, rfl, without_append above⟩, taken_append above⟩
  · rintro ⟨_, _, _, ⟨one, rfl, rfl⟩, ⟨two, rfl, rfl⟩, rfl⟩
    exact ⟨⟨one, two⟩, (taken_append above).symm, (without_append above).symm⟩

theorem popEach_concat :
    popEach (front ++ [type]) s = .ok operands t ↔ ∃ last u first,
      popType type s = .ok last u ∧ popEach front u = .ok first t ∧ operands = first ++ [last] := by
  simp only [popEach, List.reverse_append, List.reverse_singleton, List.singleton_append,
    List.mapM_cons, bind_ok, pure_ok]
  grind

theorem popTypes_iff_popEach (above : s.floor ≤ s.height) :
    popTypes types s = .ok operands t ↔ popEach types s = .ok operands t := by
  induction types using List.reverseRecOn generalizing s operands t with
  | nil =>
      have nothing : s.without [] = s := by
        refine ext_operands ?_ rfl rfl
        rw [toList_without, height_without, reach, List.length_nil, Nat.zero_min, Nat.sub_zero,
          height_eq, List.take_length]
      have popped : popTypes [] s = .ok [] s :=
        popTypes_ok.mpr ⟨by rw [accepts_own above]; simp [fits], rfl, nothing.symm⟩
      rw [popped]
      rfl
  | append_singleton front type ih =>
      simp only [popTypes_append above, popEach_concat, popTypes_single above]
      constructor
      · rintro ⟨_, u, first, ⟨last, one, rfl⟩, rest, rfl⟩
        obtain ⟨-, -, rfl⟩ := accepts_of_popType above one
        exact ⟨last, _, first, one, (ih (rests_without _ above).above).mp rest, rfl⟩
      · rintro ⟨last, u, first, one, rest, rfl⟩
        obtain ⟨-, -, rfl⟩ := accepts_of_popType above one
        exact ⟨_, _, first, ⟨last, one, rfl⟩, (ih (rests_without _ above).above).mpr rest, rfl⟩

theorem accepts_iff_popTypes :
    s.accepts types = true ↔ ∃ operands t, popTypes types s = .ok operands t := by
  simp [popTypes_ok]

theorem holdsExactly_iff_popTypes (above : s.floor ≤ s.height) :
    s.holdsExactly types = true ↔
      ∃ operands t, popTypes types s = .ok operands t ∧ t.height = t.floor := by
  have bottom : (s.without types).height = s.floor ↔ s.available ≤ types.length := by
    rw [height_without, reach, available]
    omega
  rw [holdsExactly, Bool.and_eq_true, decide_eq_true_eq, ← bottom]
  constructor
  · rintro ⟨emptied, accepted⟩
    exact ⟨_, _, popTypes_ok.mpr ⟨accepted, rfl, rfl⟩, emptied⟩
  · rintro ⟨_, _, popped, emptied⟩
    obtain ⟨accepted, -, rfl⟩ := popTypes_ok.mp popped
    exact ⟨emptied, accepted⟩

theorem pop_keeps {e : Fault} (failed : pop s = .error e t) : t = s := by
  have ends : Ends pop s (fun _ _ => True) fun _ u => u = s := by
    rw [pop, ends_bind, ends_get, ends_ite, ends_ite]
    refine ⟨fun _ => ⟨fun _ => trivial, fun _ => rfl⟩, fun _ => ?_⟩
    cases s.operands.back? with
    | none => rfl
    | some top => trivial
  exact ends.of_error failed

theorem popType_keeps {e : Fault} (failed : popType type s = .error e t) : t = s := by
  have ends : Ends (popType type) s (fun _ _ => True) fun _ u => u = s := by
    rw [popType, ends_bind, ends_get, ends_ite, ends_ite, ends_bind, ends_require, ends_bind]
    refine ⟨fun _ => ⟨fun _ => trivial, fun _ => rfl⟩, fun _ => ⟨fun _ => ?_, fun _ => rfl⟩⟩
    exact ends_of_forall (fun _ _ _ => trivial) fun _ _ failed => pop_keeps failed
  exact ends.of_error failed

theorem popTypes_keeps {e : Fault} (failed : popTypes types s = .error e t) : t = s := by
  have ends : Ends (popTypes types) s (fun _ _ => True) fun _ u => u = s := by
    simp [popTypes]
  exact ends.of_error failed

end WasmFunclets.TypedStack
