import WasmFunclets.Proofs.Ssa.Trail

/-! What a lookup adds to a function under construction: values, phis that collect operands or wait for
the last predecessor of their block, and definitions along a trail. -/

namespace WasmFunclets.Ssa.Builder

open Attempt

variable {strict : Bool} {written : BlockId → Nat → Prop} {filling later_ : ValueId → Prop}
variable {closing : Option BlockId} {b t : Builder}

def defining (b : Builder) (blocks : List BlockId) (slot : Nat) (d : Definition) : Builder :=
  blocks.foldl (fun b c => b.onBlock c (Block.define slot d)) b

theorem ends_defineAll {blocks : List BlockId} {slot : Nat} {d : Definition}
    {Q : Unit → Builder → Prop} {E : Fault → Builder → Prop} :
    Ends (defineAll blocks slot d) b Q E ↔ Q () (b.defining blocks slot d) := by
  rw [defineAll]
  induction blocks generalizing b with
  | nil => exact Iff.rfl
  | cons c rest ih =>
      rw [show (c :: rest).forM (fun c => define c slot d) =
        (do define c slot d; rest.forM fun c => define c slot d) from List.forM_cons, ends_bind,
        ends_define, ih]
      exact Iff.rfl

section Defining

variable (blocks : List BlockId) (slot : Nat) (d : Definition)

theorem frame_defining : (b.defining blocks slot d).values = b.values ∧
    (b.defining blocks slot d).locals = b.locals ∧
    (b.defining blocks slot d).paramCount = b.paramCount ∧
    (b.defining blocks slot d).substitution = b.substitution ∧
    (b.defining blocks slot d).blocks.size = b.blocks.size := by
  rw [defining]
  induction blocks generalizing b with
  | nil => exact ⟨rfl, rfl, rfl, rfl, rfl⟩
  | cons c rest ih =>
      rw [List.foldl_cons]
      obtain ⟨values, locals, paramCount, substitution, size⟩ :=
        ih (b := b.onBlock c (Block.define slot d))
      exact ⟨values, locals, paramCount, substitution, size.trans (size_onBlock _ _)⟩

@[simp] theorem values_defining : (b.defining blocks slot d).values = b.values :=
  (frame_defining blocks slot d).1

@[simp] theorem locals_defining : (b.defining blocks slot d).locals = b.locals :=
  (frame_defining blocks slot d).2.1

@[simp] theorem paramCount_defining : (b.defining blocks slot d).paramCount = b.paramCount :=
  (frame_defining blocks slot d).2.2.1

@[simp] theorem substitution_defining :
    (b.defining blocks slot d).substitution = b.substitution :=
  (frame_defining blocks slot d).2.2.2.1

@[simp] theorem count_defining : (b.defining blocks slot d).blocks.size = b.blocks.size :=
  (frame_defining blocks slot d).2.2.2.2

@[simp] theorem look_defining : (b.defining blocks slot d).look = b.look := by
  funext i
  rw [look, values_defining, look]

@[simp] theorem representative_defining :
    (b.defining blocks slot d).representative = b.representative := by
  funext i
  rw [representative, substitution_defining, representative]

theorem block_defining {c : BlockId} {k : Block} (present : b.blocks[c]? = some k) :
    ∃ l, (b.defining blocks slot d).blocks[c]? = some l ∧ k.Alike l ∧ l.pending = k.pending ∧
      ∀ s, l.definitions[s]? = if c ∈ blocks ∧ s = slot then some d else k.definitions[s]? := by
  rw [defining]
  induction blocks generalizing b k with
  | nil => exact ⟨k, present, .refl k, rfl, by simp⟩
  | cons e rest ih =>
      rw [List.foldl_cons]
      by_cases same : c = e
      · have step : (b.onBlock e (Block.define slot d)).blocks[c]? =
            some (k.define slot d) := by
          rw [block_onBlock, if_pos same, present]
          rfl
        obtain ⟨l, found, alike, pending, definitions⟩ := ih step
        refine ⟨l, found, .trans (l := k.define slot d) ⟨rfl, rfl, rfl, rfl, rfl⟩ alike, pending,
          fun s => ?_⟩
        rw [definitions]
        simp only [Block.define, getElem?_insert]
        grind
      · have step : (b.onBlock e (Block.define slot d)).blocks[c]? = some k := by
          rw [block_onBlock, if_neg same, present]
        obtain ⟨l, found, alike, pending, definitions⟩ := ih step
        refine ⟨l, found, alike, pending, fun s => ?_⟩
        rw [definitions]
        grind

theorem definition_defining (inside : ∀ c ∈ blocks, c < b.blocks.size) (c : BlockId) (s : Nat) :
    (b.defining blocks slot d).definition c s =
      if c ∈ blocks ∧ s = slot then some d.value else b.definition c s := by
  cases present : b.blocks[c]? with
  | none =>
      have out : b.blocks.size ≤ c := Array.getElem?_eq_none_iff.mp present
      have missing : (b.defining blocks slot d).blocks[c]? = none :=
        Array.getElem?_eq_none_iff.mpr (by rwa [count_defining])
      rw [definition, missing, if_neg fun both => absurd (inside c both.1) (Nat.not_lt.mpr out),
        definition, present]
  | some k =>
      obtain ⟨l, found, _, _, definitions⟩ := block_defining blocks slot d present
      rw [definition_of_block found, definitions, definition_of_block present]
      split <;> rfl

end Defining

theorem Formed.congr (formed : b.Formed strict) (values : t.values = b.values)
    (substitution : t.substitution = b.substitution) : t.Formed strict := by
  obtain ⟨coherent, operand_lt, home, replaced, live, typed, leader⟩ := formed
  have looks : t.look = b.look := by
    funext i
    rw [look, values, look]
  have reps : t.representative = b.representative := by
    funext i
    rw [representative, substitution, representative]
  exact ⟨by rwa [substitution, values], by rwa [looks, values], by rwa [looks],
    by rwa [looks, reps], by rwa [looks, reps], by rwa [looks, reps], by rwa [looks, reps]⟩

/-- What definitions leave that say nothing new of blocks with one already. -/
theorem Reads.defining (formed : b.Formed strict) {blocks : List BlockId} {slot : Nat} {v : ValueId}
    (inside : ∀ c ∈ blocks, c < b.blocks.size)
    (agrees : ∀ c ∈ blocks, ∀ d, b.definition c slot = some d →
      b.representative d = b.representative v) :
    b.Reads (b.defining blocks slot (.final v)) where
  locals := locals_defining ..
  paramCount := paramCount_defining ..
  count := count_defining ..
  size := Nat.le_of_eq (by rw [values_defining])
  block present := by
    obtain ⟨l, found, alike, pending, definitions⟩ := block_defining blocks slot (.final v) present
    refine ⟨l, found, alike, ⟨#[], by rw [pending, Array.append_empty], by simp⟩, ?_⟩
    intro s p known
    rw [definitions] at known
    split at known
    · cases known
    · exact .inl known
  look present := ⟨_, by rwa [look_defining], .refl _⟩
  added out present := by
    rw [look_defining] at present
    exact absurd (lt_of_look present) (Nat.not_lt.mpr out)
  representative id := by
    rw [representative_defining]
    exact formed.representative_idem id
  definition {c s d} known := by
    rw [definition_defining blocks slot _ inside, representative_defining]
    split
    · rename_i here
      exact ⟨_, rfl, (agrees c here.1 d (here.2 ▸ known)).symm⟩
    · exact ⟨d, known, rfl⟩

theorem Flow.defining (flow : b.Flow strict written filling closing) (formed : b.Formed strict)
    {blocks : List BlockId} {slot : Nat} {type : ValueType} {v : ValueId}
    (inside : ∀ c ∈ blocks, c < b.blocks.size)
    (agrees : ∀ c ∈ blocks, ∀ d, b.definition c slot = some d →
      b.representative d = b.representative v)
    (bound : v < b.values.size) (known : b.locals[slot]? = some type)
    (starts : ∀ c ∈ blocks, (b.defining blocks slot (.final v)).StartsWith c slot v)
    (typed : strict = true → ∀ w, b.look (b.representative v) = some w →
      w.type.admits type = true) :
    (b.defining blocks slot (.final v)).Flow strict written filling closing := by
  have slot_lt := (Array.getElem?_eq_some_iff.mp known).1
  refine flow.keeps formed (Reads.defining formed inside agrees).toKeeps
    (formed.congr (values_defining ..) (substitution_defining ..)) (fun _ => id) ?_ ?_ ?_ ?_
  · intro i type home p s out present
    rw [look_defining] at present
    exact absurd (lt_of_look present) (Nat.not_lt.mpr out)
  · intro c s d before after
    rw [definition_defining blocks slot _ inside] at after
    split at after
    · rename_i here
      cases after
      obtain ⟨member, rfl⟩ := here
      rw [values_defining, locals_defining, look_defining, representative_defining]
      refine ⟨bound, slot_lt, starts c member, fun checked type' w type_ shown => ?_⟩
      rw [known] at type_
      cases type_
      exact typed checked w shown
    · rw [before] at after
      cases after
  · intro c s d after
    rw [definition_defining blocks slot _ inside] at after
    rw [values_defining]
    split at after
    · cases after
      exact bound
    · exact (flow.definition_lt after).1
  · intro c k l before after
    obtain ⟨l', found, _, pending, _⟩ := block_defining blocks slot (.final v) before
    rw [after] at found
    cases found
    exact .inl pending

theorem Keeps.withValue (formed : b.Formed strict) (v : Value) : b.Keeps (b.withValue v) where
  locals := rfl
  paramCount := rfl
  count := rfl
  size := by simp
  block present := ⟨_, present, .refl _, ⟨#[], by simp, by simp⟩, .inl⟩
  look {i u} present := by
    refine ⟨u, ?_, .refl u⟩
    rw [look_withValue, if_neg (Nat.ne_of_lt (lt_of_look present)), present]
  representative i := by
    rw [representative_withValue formed.coherent]
    exact formed.representative_idem i
  definition known := ⟨_, known, rfl⟩

theorem Reads.withValue (formed : b.Formed strict) {v : Value} (make : v.IsRead)
    (plain : ∀ p, v.content ≠ .phi p) : b.Reads (b.withValue v) where
  toKeeps := .withValue formed v
  added {i w} out present := by
    rw [look_withValue] at present
    split at present
    · cases present
      rw [v.plain_of_ne plain]
      exact make
    · exact absurd (lt_of_look present) (Nat.not_lt.mpr out)

theorem Flow.withValue (flow : b.Flow strict written filling closing) (formed : b.Formed strict)
    {v : Value} (other : ∀ p s, v.content = .phi p → p.role ≠ .local s)
    (next : (b.withValue v).Formed strict) :
    (b.withValue v).Flow strict written filling closing := by
  refine flow.keeps formed (.withValue formed v) next (fun _ => id) ?_ ?_ ?_ ?_
  · intro i type home p s out present role
    rw [look_withValue] at present
    split at present
    · obtain ⟨_, _, content⟩ := v
      cases content with
      | phi q =>
          cases present
          exact absurd role (other q s rfl)
      | _ => cases present
    · exact absurd (lt_of_look present) (Nat.not_lt.mpr out)
  · intro c s d before after
    rw [definition_withValue, before] at after
    cases after
  · intro c s d known
    rw [size_withValue]
    exact Nat.lt_succ_of_lt (flow.definition_lt known).1
  · intro c k l before after
    rw [blocks_withValue, before] at after
    cases after
    exact .inl rfl

def freshPhi (role : PhiRole) : Phi := ⟨role, #[], false, .empty, #[], none⟩

/-- A new phi stands for a local that is not known at the end of a block. Either its operands are
collected at once, or it waits for the last predecessor of the block. -/
def opened (b : Builder) (type : ValueType) (c : BlockId) (slot : Nat) (waits : Bool) : Builder :=
  (b.withValue ⟨type, some c, .phi (freshPhi (.local slot))⟩).onBlock c fun k =>
    { k with
      definitions := k.definitions.insert slot
        (if waits then .placeholder b.values.size else .final b.values.size)
      pending := if waits then k.pending.push (slot, b.values.size) else k.pending }

section Opened

variable {type : ValueType} {c : BlockId} {slot : Nat} {waits : Bool}

theorem look_opened (i : ValueId) : (b.opened type c slot waits).look i =
    if i = b.values.size then some ⟨type, some c, .phi (freshPhi (.local slot))⟩ else b.look i := by
  rw [opened, look_onBlock, look_withValue]
  rfl

theorem representative_opened (formed : b.Formed strict) :
    (b.opened type c slot waits).representative = b.representative := by
  rw [opened, representative_onBlock, representative_withValue formed.coherent]

theorem definition_opened (inside : c < b.blocks.size) (e : BlockId) (s : Nat) :
    (b.opened type c slot waits).definition e s =
      if e = c ∧ s = slot then some b.values.size else b.definition e s := by
  have value : (if waits then Definition.placeholder b.values.size
      else .final b.values.size).value = b.values.size := by
    split <;> rfl
  simp only [opened, definition, block_onBlock, blocks_withValue]
  by_cases same : e = c
  · obtain ⟨k, present⟩ := block_of_lt inside
    simp only [same, present, if_true, Option.map_some, Option.bind_some, getElem?_insert, true_and]
    split
    · rw [Option.map_some, value]
    · rfl
  · simp [same]

theorem Formed.opened (formed : b.Formed strict) :
    (b.opened type c slot waits).Formed strict :=
  (formed.withValue (v := ⟨type, some c, .phi (freshPhi (.local slot))⟩) rfl (by simp)
    (by simp [Value.operands, freshPhi]) (by
      rintro _ _ _ same
      cases same
      exact ⟨rfl, rfl⟩)).congr rfl rfl

theorem Reads.opened (formed : b.Formed strict) (inside : c < b.blocks.size)
    (undefined : b.definition c slot = none) : b.Reads (b.opened type c slot waits) where
  locals := rfl
  paramCount := rfl
  count := size_onBlock _ _
  size := by simp [Builder.opened]
  block {e k} present := by
    simp only [Builder.opened, block_onBlock, blocks_withValue]
    split
    · rename_i same
      rw [present]
      refine ⟨_, rfl, ⟨rfl, rfl, rfl, rfl, rfl⟩,
        ⟨if waits then #[(slot, b.values.size)] else #[], ?_, ?_⟩, ?_⟩
      · cases waits <;> simp
      · intro entry member
        cases waits with
        | false => simp at member
        | true =>
            simp only [if_true, List.mem_toArray, List.mem_singleton] at member
            rw [member, same, undefined]
      · intro s p known
        dsimp only at known ⊢
        rw [getElem?_insert] at known
        split at known
        · rename_i here
          cases waits with
          | false => simp at known
          | true =>
              simp only [if_true, Option.some.injEq, Definition.placeholder.injEq] at known
              subst here known
              exact .inr (by simp)
        · exact .inl known
    · exact ⟨k, present, .refl k, ⟨#[], by simp, by simp⟩, .inl⟩
  look {i v} present := by
    refine ⟨v, ?_, .refl v⟩
    rw [look_opened, if_neg (Nat.ne_of_lt (lt_of_look present)), present]
  added {i w} out present := by
    rw [look_opened] at present
    split at present
    · cases present
      exact .phi type (some c) rfl
    · exact absurd (lt_of_look present) (Nat.not_lt.mpr out)
  representative i := by
    rw [representative_opened formed]
    exact formed.representative_idem i
  definition {e s d} known := by
    rw [definition_opened inside]
    split
    · rename_i here
      rw [here.1, here.2, undefined] at known
      cases known
    · exact ⟨d, known, rfl⟩

theorem Flow.opened (flow : b.Flow strict written filling closing) (formed : b.Formed strict)
    {k : Block} (present : b.blocks[c]? = some k) (inner : c ≠ entryId)
    (undefined : b.definition c slot = none) (known : b.locals[slot]? = some type)
    (grows : ∀ id, filling id → later_ id)
    (place : if waits then k.isSealed = false else later_ b.values.size) :
    (b.opened type c slot waits).Flow strict written later_ closing := by
  have inside := lt_of_block present
  have slot_lt := (Array.getElem?_eq_some_iff.mp known).1
  have changed (e : BlockId) : (b.opened type c slot waits).blocks[e]? = if e = c then
      b.blocks[e]?.map fun k => { k with
        definitions := k.definitions.insert slot
          (if waits then .placeholder b.values.size else .final b.values.size)
        pending := if waits then k.pending.push (slot, b.values.size) else k.pending }
      else b.blocks[e]? := by
    rw [Builder.opened, block_onBlock, blocks_withValue]
  -- The phi is the only new value, and the definition that stands for it the only new definition.
  refine flow.keeps formed (Reads.opened formed inside undefined).toKeeps formed.opened grows ?_ ?_ ?_ ?_
  · intro i type' home p s out shown role
    rw [look_opened] at shown
    split at shown
    · rename_i new
      cases shown
      cases role
      refine ⟨known, rfl, rfl, c, _, rfl, inner, ?_, by rw [changed, if_pos rfl, present]; rfl, ?_⟩
      · rw [definition_opened inside, if_pos ⟨rfl, rfl⟩]
        rfl
      · cases waits with
        | false => exact .inl (new ▸ place)
        | true => exact .inr (by simp [new])
    · exact absurd (lt_of_look shown) (Nat.not_lt.mpr out)
  · intro e s d before after
    rw [definition_opened inside] at after
    split at after
    · rename_i here
      obtain ⟨rfl, rfl⟩ := here
      cases after
      refine ⟨by simp [Builder.opened], slot_lt, .phi (by rw [look_opened, if_pos rfl]) rfl rfl, ?_⟩
      intro _ type' w type_ shown
      change b.locals[s]? = some type' at type_
      rw [representative_opened formed, formed.representative_of_le (Nat.le_refl _), look_opened,
        if_pos rfl] at shown
      rw [known] at type_
      cases type_
      cases shown
      exact ValueType.admits_refl _
    · rw [before] at after
      cases after
  · intro e s d after
    rw [definition_opened inside] at after
    have grown : (b.opened type c slot waits).values.size = b.values.size + 1 := by
      simp [Builder.opened]
    rw [grown]
    split at after
    · cases after
      exact Nat.lt_succ_self _
    · exact Nat.lt_succ_of_lt (flow.definition_lt after).1
  · intro e k₁ l before after
    rw [changed] at after
    split at after
    · rename_i same
      rw [before] at after
      cases after
      cases waits with
      | false => exact .inl rfl
      | true =>
          subst same
          rw [present] at before
          cases before
          refine .inr ⟨slot, b.values.size, rfl, Nat.le_refl _, by simpa using place, ?_, type,
            freshPhi (.local slot), by rw [look_opened, if_pos rfl], rfl⟩
          rw [definition_opened inside, if_pos ⟨rfl, rfl⟩]
          rfl
    · rw [before] at after
      cases after
      exact .inl rfl

end Opened

end WasmFunclets.Ssa.Builder
