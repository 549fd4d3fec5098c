import WasmFunclets.Ssa.Substitution

/-! What a substitution looks up: the leader of a class, which a replacement moves to the class of
the new value. -/

namespace WasmFunclets.Ssa.Substitution

/-- Classes of the first n ids that list all their members and have one of them as their leader. -/
structure Coherent (s : Substitution) (n : Nat) : Prop where
  classes_size : s.classes.size = n
  leaders_size : s.leaders.size = n
  others_size : s.others.size = n
  classOf_lt : ∀ {id : ValueId}, id < n → s.classOf id < n
  classOf_classOf : ∀ {id : ValueId}, id < n → s.classOf (s.classOf id) = s.classOf id
  mem_others : ∀ {number : Nat}, number < n → ∀ id : ValueId,
    id ∈ s.othersOf number ↔ id < n ∧ id ≠ number ∧ s.classOf id = number
  apply_lt : ∀ {id : ValueId}, id < n → s.apply id < n
  classOf_apply : ∀ {id : ValueId}, id < n → s.classOf (s.apply id) = s.classOf id

theorem coherent_empty : empty.Coherent 0 := by
  constructor <;> simp [empty]

variable {s : Substitution} {n : Nat}

theorem Coherent.classOf_of_le (coherent : s.Coherent n) {id : ValueId} (out : n ≤ id) :
    s.classOf id = id := by
  rw [classOf, Array.getElem?_eq_none (by rwa [coherent.classes_size]), Option.getD_none]

theorem Coherent.apply_of_le (coherent : s.Coherent n) {id : ValueId} (out : n ≤ id) :
    s.apply id = id := by
  rw [apply, coherent.classOf_of_le out]
  rw [Array.getElem?_eq_none (by rwa [coherent.leaders_size]), Option.getD_none]

theorem classOf_extend (s : Substitution) (id : ValueId) : s.extend.classOf id = s.classOf id := by
  simp only [classOf, extend, Array.getElem?_push]
  split
  · rw [‹id = _›, Array.getElem?_eq_none (Nat.le_refl _)]
    rfl
  · rfl

theorem Coherent.apply_extend (coherent : s.Coherent n) (id : ValueId) :
    s.extend.apply id = s.apply id := by
  simp only [apply, classOf_extend]
  simp only [extend, Array.getElem?_push, coherent.leaders_size, coherent.classes_size]
  split
  · rename_i new
    rw [new, Array.getElem?_eq_none (Nat.le_of_eq coherent.leaders_size), Option.getD_some,
      Option.getD_none]
  · rfl

theorem Coherent.othersOf_extend (coherent : s.Coherent n) (number : Nat) :
    s.extend.othersOf number = s.othersOf number := by
  simp only [othersOf, extend, Array.getElem?_push, coherent.others_size]
  split
  · rename_i new
    rw [new, Array.getElem?_eq_none (Nat.le_of_eq coherent.others_size)]
    rfl
  · rfl

theorem Coherent.extend (coherent : s.Coherent n) : s.extend.Coherent (n + 1) := by
  have new : s.classOf n = n := coherent.classOf_of_le (Nat.le_refl n)
  have same : s.apply n = n := coherent.apply_of_le (Nat.le_refl n)
  have cases_ {id : ValueId} (inside : id < n + 1) : id < n ∨ id = n :=
    Nat.lt_or_eq_of_le (Nat.le_of_lt_succ inside)
  refine ⟨by simp [Substitution.extend, coherent.classes_size],
    by simp [Substitution.extend, coherent.leaders_size],
    by simp [Substitution.extend, coherent.others_size], ?_, ?_, ?_, ?_, ?_⟩
  all_goals simp only [classOf_extend, coherent.apply_extend, coherent.othersOf_extend]
  · intro id inside
    rcases cases_ inside with old | rfl
    · exact Nat.lt_succ_of_lt (coherent.classOf_lt old)
    · rwa [new]
  · intro id inside
    rcases cases_ inside with old | rfl
    · exact coherent.classOf_classOf old
    · rw [new, new]
  · intro number inside id
    rcases cases_ inside with old | rfl
    · rw [coherent.mem_others old]
      have := @coherent.classOf_of_le _ _ id
      grind
    · have none_ : s.othersOf number = #[] := by
        rw [othersOf, Array.getElem?_eq_none (Nat.le_of_eq coherent.others_size)]
        rfl
      rw [none_]
      have := @coherent.classOf_lt id
      have := @coherent.classOf_of_le _ _ id
      grind
  · intro id inside
    rcases cases_ inside with old | rfl
    · exact Nat.lt_succ_of_lt (coherent.apply_lt old)
    · rwa [same]
  · intro id inside
    rcases cases_ inside with old | rfl
    · exact coherent.classOf_apply old
    · rw [same]

theorem Coherent.apply_eq_iff (coherent : s.Coherent n) {a b : ValueId} (inside : a < n)
    (also : b < n) : s.apply a = s.apply b ↔ s.classOf a = s.classOf b := by
  constructor
  · intro same
    rw [← coherent.classOf_apply inside, same, coherent.classOf_apply also]
  · intro same
    rw [apply, apply, same]

theorem Coherent.apply_apply (coherent : s.Coherent n) (id : ValueId) :
    s.apply (s.apply id) = s.apply id := by
  by_cases inside : id < n
  · exact (coherent.apply_eq_iff (coherent.apply_lt inside) inside).mpr
      (coherent.classOf_apply inside)
  · rw [coherent.apply_of_le (Nat.le_of_not_lt inside),
      coherent.apply_of_le (Nat.le_of_not_lt inside)]

theorem getElem?_foldl_set (moved : List ValueId) (target : Nat) (classes : Array Nat)
    (id : ValueId) :
    (moved.foldl (fun classes id => classes.setIfInBounds id target) classes)[id]? =
      if id ∈ moved ∧ id < classes.size then some target else classes[id]? := by
  induction moved generalizing classes with
  | nil => simp
  | cons first moved ih =>
      rw [List.foldl_cons, ih, Array.size_setIfInBounds, Array.getElem?_setIfInBounds]
      grind

section Join

variable {source : Nat} (target : Nat) (leader : ValueId)

theorem mem_moved (coherent : s.Coherent n) (inside : source < n)
    (active : s.classOf source = source) (id : ValueId) :
    id ∈ (s.othersOf source).push source ↔ id < n ∧ s.classOf id = source := by
  rw [Array.mem_push, coherent.mem_others inside]
  by_cases same : id = source
  · simp [same, inside, active]
  · simp [same]

theorem classOf_join (coherent : s.Coherent n) (inside : source < n)
    (active : s.classOf source = source) (id : ValueId) :
    (s.join source target leader).classOf id =
      if id < n ∧ s.classOf id = source then target else s.classOf id := by
  have bound : id < s.classes.size ↔ id < n := by rw [coherent.classes_size]
  have moved := mem_moved coherent inside active id
  rw [← Array.mem_toList_iff] at moved
  rw [classOf, join, ← Array.foldl_toList, getElem?_foldl_set]
  split
  · rw [Option.getD_some, if_pos (by grind)]
  · rw [if_neg (by grind)]
    rfl

theorem leaders_join {target : Nat} (id : Nat) (inside : target < s.leaders.size) :
    (s.join source target leader).leaders[id]? =
      if id = target then some leader else s.leaders[id]? := by
  simp only [join, Array.getElem?_setIfInBounds]
  grind

theorem othersOf_join {target : Nat} (coherent : s.Coherent n) (inside : source < n)
    (also : target < n)
    (distinct : source ≠ target) (number : Nat) :
    (s.join source target leader).othersOf number =
      if number = source then #[]
      else if number = target then s.othersOf target ++ (s.othersOf source).push source
      else s.othersOf number := by
  have bound : number < s.others.size ↔ number < n := by rw [coherent.others_size]
  simp only [othersOf, join, Array.getElem?_modify, Array.getElem?_setIfInBounds]
  by_cases first : number = source
  · simp only [first, if_true, distinct.symm, if_false, coherent.others_size, inside]
    rfl
  · by_cases second : number = target
    · subst second
      simp only [first, if_true, if_false, Ne.symm first]
      rw [Array.getElem?_eq_getElem (bound.mpr also)]
      rfl
    · simp only [first, second, if_false, Ne.symm first, Ne.symm second]

theorem size_foldl_set (moved : List ValueId) (target : Nat) (classes : Array Nat) :
    (moved.foldl (fun classes id => classes.setIfInBounds id target) classes).size =
      classes.size := by
  induction moved generalizing classes with
  | nil => rfl
  | cons first moved ih => rw [List.foldl_cons, ih, Array.size_setIfInBounds]

theorem apply_join {target : Nat} (coherent : s.Coherent n) (inside : source < n)
    (also : target < n)
    (active : s.classOf source = source) (id : ValueId) :
    (s.join source target leader).apply id =
      if id < n ∧ (s.classOf id = source ∨ s.classOf id = target) then leader else s.apply id := by
  have bound : target < s.leaders.size := by rwa [coherent.leaders_size]
  rw [apply, classOf_join _ _ coherent inside active]
  by_cases within : id < n
  · by_cases moved : s.classOf id = source
    · simp [within, moved, leaders_join leader target bound]
    · by_cases stays : s.classOf id = target
      · simp [within, stays, leaders_join leader target bound]
      · simp only [moved, stays, leaders_join leader _ bound, if_false, or_self, and_false]
        rfl
  · have out := coherent.classOf_of_le (Nat.le_of_not_lt within)
    have other : id ≠ target := fun same => within (same ▸ also)
    simp only [within, out, false_and, if_false, leaders_join leader _ bound, other]
    rw [apply, out]

theorem Coherent.join {target : Nat} {leader : ValueId} (coherent : s.Coherent n)
    (inside : source < n) (also : target < n)
    (active : s.classOf source = source) (kept : s.classOf target = target)
    (distinct : source ≠ target) (leads : leader < n)
    (member : s.classOf leader = source ∨ s.classOf leader = target) :
    (s.join source target leader).Coherent n := by
  have classOf_eq := classOf_join target leader coherent inside active
  have apply_eq := apply_join leader coherent inside also active
  constructor
  case classes_size =>
    rw [Substitution.join, ← Array.foldl_toList, size_foldl_set, coherent.classes_size]
  case leaders_size =>
    simp [Substitution.join, coherent.leaders_size]
  case others_size =>
    simp [Substitution.join, coherent.others_size]
  case classOf_lt =>
    intro id within
    have := coherent.classOf_lt within
    rw [classOf_eq]
    grind
  case classOf_classOf =>
    intro id within
    have := coherent.classOf_lt within
    have := coherent.classOf_classOf within
    rw [classOf_eq id]
    split
    · rw [classOf_eq]
      grind
    · rw [classOf_eq]
      grind
  case mem_others =>
    intro number bound id
    rw [othersOf_join _ coherent inside also distinct, classOf_eq]
    have old := coherent.mem_others bound id
    have moved := mem_moved coherent inside active id
    have stays := coherent.mem_others also id
    split
    · grind
    · split
      · rw [Array.mem_append, moved, stays]
        grind
      · rw [old]
        grind
  case apply_lt =>
    intro id within
    have := coherent.apply_lt within
    rw [apply_eq]
    grind
  case classOf_apply =>
    intro id within
    have same := coherent.classOf_apply within
    have := coherent.apply_lt within
    rw [apply_eq, classOf_eq, classOf_eq]
    grind

end Join

variable {old new : ValueId}

theorem replace_cases (coherent : s.Coherent n) (inside : old < n) (also : new < n)
    (distinct : s.apply old ≠ s.apply new) :
    ∃ source target, source < n ∧ target < n ∧ s.classOf source = source ∧
      s.classOf target = target ∧ source ≠ target ∧ s.replace old new = s.join source target new ∧
      ∀ id, (s.classOf id = source ∨ s.classOf id = target ↔
        s.classOf id = s.classOf old ∨ s.classOf id = s.classOf new) := by
  have apart : s.classOf old ≠ s.classOf new :=
    fun same => distinct ((coherent.apply_eq_iff inside also).mpr same)
  rw [replace]
  split
  · exact ⟨_, _, coherent.classOf_lt inside, coherent.classOf_lt also,
      coherent.classOf_classOf inside, coherent.classOf_classOf also, apart, rfl, fun _ => Iff.rfl⟩
  · exact ⟨_, _, coherent.classOf_lt also, coherent.classOf_lt inside,
      coherent.classOf_classOf also, coherent.classOf_classOf inside, apart.symm, rfl,
      fun _ => or_comm⟩

theorem Coherent.replace (coherent : s.Coherent n) (inside : old < n) (also : new < n)
    (distinct : s.apply old ≠ s.apply new) : (s.replace old new).Coherent n := by
  obtain ⟨source, target, first, second, active, kept, apart, same, classes⟩ :=
    replace_cases coherent inside also distinct
  rw [same]
  exact coherent.join first second active kept apart also ((classes new).mpr (.inr rfl))

theorem Coherent.apply_replace (coherent : s.Coherent n) (inside : old < n) (also : new < n)
    (leads : s.apply old = old) (follows : s.apply new = new) (distinct : old ≠ new)
    (id : ValueId) :
    (s.replace old new).apply id = if s.apply id = old then new else s.apply id := by
  have apart : s.apply old ≠ s.apply new := by rwa [leads, follows]
  obtain ⟨source, target, first, second, active, kept, _, same, classes⟩ :=
    replace_cases coherent inside also apart
  rw [same, apply_join _ coherent first second active]
  by_cases within : id < n
  · have isOld := coherent.apply_eq_iff within inside
    have isNew := coherent.apply_eq_iff within also
    rw [leads] at isOld
    rw [follows] at isNew
    have := classes id
    grind
  · rw [coherent.apply_of_le (Nat.le_of_not_lt within)]
    grind

end WasmFunclets.Ssa.Substitution
