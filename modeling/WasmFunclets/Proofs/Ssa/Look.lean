import WasmFunclets.Proofs.Attempt
import WasmFunclets.Proofs.Ssa.Substitution
import WasmFunclets.Ssa.Control

/-! What a function under construction shows: values without the record of their uses, what stands
in for them, and the definitions of locals. Each elementary change is an equation between views. -/

namespace WasmFunclets.Ssa

def Phi.plain (p : Phi) : Phi := { p with users := .empty, watchers := #[] }

def Value.plain (v : Value) : Value := v.updatePhi Phi.plain

@[simp] theorem Value.type_updatePhi (f : Phi → Phi) (v : Value) : (v.updatePhi f).type = v.type := by
  obtain ⟨_, _, _ | _ | _ | _ | _ | _ | _⟩ := v <;> rfl

@[simp] theorem Value.block_updatePhi (f : Phi → Phi) (v : Value) :
    (v.updatePhi f).block = v.block := by
  obtain ⟨_, _, _ | _ | _ | _ | _ | _ | _⟩ := v <;> rfl

theorem Value.updatePhi_updatePhi (f g : Phi → Phi) (v : Value) :
    (v.updatePhi f).updatePhi g = v.updatePhi fun p => g (f p) := by
  obtain ⟨_, _, _ | _ | _ | _ | _ | _ | _⟩ := v <;> rfl

theorem Value.plain_of_ne (v : Value) (noPhi : ∀ p, v.content ≠ .phi p) : v.plain = v := by
  obtain ⟨_, _, _ | _ | _ | _ | p | _ | _⟩ := v
  case phi => exact absurd rfl (noPhi p)
  all_goals rfl

def Block.define (slot : Nat) (d : Definition) (k : Block) : Block :=
  { k with definitions := k.definitions.insert slot d }

def Phi.feed (operand : ValueId) (p : Phi) : Phi := { p with operands := p.operands.push operand }

def Phi.finish (p : Phi) : Phi := { p with complete := true }

def Phi.addUser (user : ValueId) (p : Phi) : Phi :=
  { p with users := p.users.push user, watchers := p.watchers.push user }

namespace Builder

open Attempt

def look (b : Builder) (id : ValueId) : Option Value := b.values[id]?.map Value.plain

def definition (b : Builder) (block : BlockId) (slot : Nat) : Option ValueId :=
  (b.blocks[block]?.bind fun k => k.definitions[slot]?).map Definition.value

def Exhausted (e : Fault) (b : Builder) : Prop :=
  e = .broken .arenaExhausted ∧ arenaLimit ≤ b.values.size

def onBlock (b : Builder) (block : BlockId) (change : Block → Block) : Builder :=
  { b with blocks := b.blocks.modify block change }

def onPhi (b : Builder) (id : ValueId) (change : Phi → Phi) : Builder :=
  { b with values := b.values.modify id (Value.updatePhi change) }

def withValue (b : Builder) (v : Value) : Builder :=
  { b with values := b.values.push v, substitution := b.substitution.extend }

variable {b : Builder}

@[simp] theorem values_onBlock (block : BlockId) (change : Block → Block) :
    (b.onBlock block change).values = b.values := rfl

@[simp] theorem locals_onBlock (block : BlockId) (change : Block → Block) :
    (b.onBlock block change).locals = b.locals := rfl

@[simp] theorem paramCount_onBlock (block : BlockId) (change : Block → Block) :
    (b.onBlock block change).paramCount = b.paramCount := rfl

@[simp] theorem substitution_onBlock (block : BlockId) (change : Block → Block) :
    (b.onBlock block change).substitution = b.substitution := rfl

@[simp] theorem representative_onBlock (block : BlockId) (change : Block → Block) :
    (b.onBlock block change).representative = b.representative := rfl

@[simp] theorem look_onBlock (block : BlockId) (change : Block → Block) :
    (b.onBlock block change).look = b.look := rfl

@[simp] theorem size_onBlock (block : BlockId) (change : Block → Block) :
    (b.onBlock block change).blocks.size = b.blocks.size := Array.size_modify

theorem block_onBlock (block : BlockId) (change : Block → Block) (c : BlockId) :
    (b.onBlock block change).blocks[c]? =
      if c = block then b.blocks[c]?.map change else b.blocks[c]? := by
  simp only [onBlock, Array.getElem?_modify, eq_comm]

@[simp] theorem blocks_onPhi (id : ValueId) (change : Phi → Phi) :
    (b.onPhi id change).blocks = b.blocks := rfl

@[simp] theorem locals_onPhi (id : ValueId) (change : Phi → Phi) :
    (b.onPhi id change).locals = b.locals := rfl

@[simp] theorem paramCount_onPhi (id : ValueId) (change : Phi → Phi) :
    (b.onPhi id change).paramCount = b.paramCount := rfl

@[simp] theorem substitution_onPhi (id : ValueId) (change : Phi → Phi) :
    (b.onPhi id change).substitution = b.substitution := rfl

@[simp] theorem representative_onPhi (id : ValueId) (change : Phi → Phi) :
    (b.onPhi id change).representative = b.representative := rfl

@[simp] theorem definition_onPhi (id : ValueId) (change : Phi → Phi) :
    (b.onPhi id change).definition = b.definition := rfl

@[simp] theorem size_onPhi (id : ValueId) (change : Phi → Phi) :
    (b.onPhi id change).values.size = b.values.size := Array.size_modify

theorem value_onPhi (id : ValueId) (change : Phi → Phi) (i : ValueId) :
    (b.onPhi id change).values[i]? =
      if i = id then b.values[i]?.map (Value.updatePhi change) else b.values[i]? := by
  simp only [onPhi, Array.getElem?_modify, eq_comm]

theorem look_onPhi (id : ValueId) (change : Phi → Phi)
    (blind : ∀ p, change (Phi.plain p) = Phi.plain (change p)) (i : ValueId) :
    (b.onPhi id change).look i =
      if i = id then (b.look i).map (Value.updatePhi change) else b.look i := by
  simp only [look, value_onPhi]
  split
  · cases b.values[i]? with
    | none => rfl
    | some v =>
        simp only [Option.map_some, Value.plain, Value.updatePhi_updatePhi, blind]
  · rfl

theorem look_onPhi_uses (id : ValueId) (change : Phi → Phi)
    (blind : ∀ p, Phi.plain (change p) = Phi.plain p) : (b.onPhi id change).look = b.look := by
  funext i
  simp only [look, value_onPhi]
  split
  · cases b.values[i]? with
    | none => rfl
    | some v => simp only [Option.map_some, Value.plain, Value.updatePhi_updatePhi, blind]
  · rfl

@[simp] theorem blocks_withValue (v : Value) : (b.withValue v).blocks = b.blocks := rfl

@[simp] theorem locals_withValue (v : Value) : (b.withValue v).locals = b.locals := rfl

@[simp] theorem paramCount_withValue (v : Value) : (b.withValue v).paramCount = b.paramCount := rfl

@[simp] theorem definition_withValue (v : Value) : (b.withValue v).definition = b.definition := rfl

@[simp] theorem size_withValue (v : Value) : (b.withValue v).values.size = b.values.size + 1 :=
  Array.size_push v

theorem value_withValue (v : Value) (i : ValueId) :
    (b.withValue v).values[i]? = if i = b.values.size then some v else b.values[i]? :=
  Array.getElem?_push

theorem look_withValue (v : Value) (i : ValueId) :
    (b.withValue v).look i = if i = b.values.size then some v.plain else b.look i := by
  simp only [look, value_withValue]
  split <;> rfl

theorem representative_withValue (coherent : b.substitution.Coherent b.values.size) (v : Value) :
    (b.withValue v).representative = b.representative :=
  funext coherent.apply_extend

theorem lt_of_look {id : ValueId} {v : Value} (present : b.look id = some v) :
    id < b.values.size := by
  obtain ⟨_, found, _⟩ := Option.map_eq_some_iff.mp present
  exact (Array.getElem?_eq_some_iff.mp found).1

theorem look_of_lt {id : ValueId} (inside : id < b.values.size) : ∃ v, b.look id = some v := by
  rw [look, Array.getElem?_eq_getElem inside]
  exact ⟨_, rfl⟩

theorem lt_of_block {c : BlockId} {k : Block} (present : b.blocks[c]? = some k) :
    c < b.blocks.size := (Array.getElem?_eq_some_iff.mp present).1

theorem block_of_lt {c : BlockId} (inside : c < b.blocks.size) : ∃ k, b.blocks[c]? = some k :=
  ⟨_, Array.getElem?_eq_getElem inside⟩

theorem definition_of_block {c : BlockId} {k : Block} (present : b.blocks[c]? = some k)
    (slot : Nat) : b.definition c slot = k.definitions[slot]?.map Definition.value := by
  rw [definition, present]
  rfl

theorem definition_eq_some {c : BlockId} {slot : Nat} {v : ValueId} :
    b.definition c slot = some v ↔
      ∃ k d, b.blocks[c]? = some k ∧ k.definitions[slot]? = some d ∧ d.value = v := by
  rw [definition]
  cases b.blocks[c]? <;> simp

theorem getElem?_insert (definitions : Std.TreeMap Nat Definition) (slot : Nat) (d : Definition)
    (s : Nat) : (definitions.insert slot d)[s]? = if s = slot then some d else definitions[s]? := by
  rw [Std.TreeMap.getElem?_insert]
  by_cases same : s = slot
  · simp [same]
  · have other : ¬ compare slot s = .eq := fun h => same (Std.LawfulEqOrd.eq_of_compare h).symm
    rw [if_neg other, if_neg same]

theorem definition_define {c : BlockId} (inside : c < b.blocks.size) (slot : Nat) (d : Definition)
    (e : BlockId) (s : Nat) :
    (b.onBlock c (Block.define slot d)).definition e s =
      if e = c ∧ s = slot then some d.value else b.definition e s := by
  simp only [definition, block_onBlock]
  by_cases same : e = c
  · obtain ⟨k, present⟩ := block_of_lt inside
    simp only [same, present, if_true, Option.map_some, Option.bind_some, Block.define,
      getElem?_insert, true_and]
    split <;> rfl
  · simp [same]

theorem definition_onBlock (c : BlockId) {change : Block → Block}
    (blind : ∀ k, (change k).definitions = k.definitions) :
    (b.onBlock c change).definition = b.definition := by
  funext e s
  simp only [definition, block_onBlock]
  split
  · cases b.blocks[e]? <;> simp [blind]
  · rfl

variable {type : ValueType} {home : Option BlockId} {content : Content}

theorem addValue_alone (b : Builder) :
    Ends (addValue type home content) b
      (fun id t => id = b.values.size ∧ t = b.withValue ⟨type, home, content⟩)
      fun e t => Exhausted e t ∧ t = b := by
  simp only [addValue, ends_bind, ends_get, ends_maintain, ends_modify, ends_pure]
  exact ⟨fun _ => ⟨trivial, rfl⟩, fun full => ⟨⟨rfl, Nat.le_of_not_lt full⟩, trivial⟩⟩

theorem addValue_ends (b : Builder) :
    Ends (addValue type home content) b
      (fun id t => id = b.values.size ∧ t = b.withValue ⟨type, home, content⟩) Exhausted :=
  (addValue_alone b).mono (fun _ _ => id) fun _ _ => And.left

@[simp] theorem ends_modifyBlock {c : BlockId} {change : Block → Block}
    {Q : Unit → Builder → Prop} {E : Fault → Builder → Prop} :
    Ends (modifyBlock c change) b Q E ↔ Q () (b.onBlock c change) := Iff.rfl

@[simp] theorem ends_modifyPhi {id : ValueId} {change : Phi → Phi} {Q : Unit → Builder → Prop}
    {E : Fault → Builder → Prop} :
    Ends (modifyPhi id change) b Q E ↔ Q () (b.onPhi id change) := Iff.rfl

@[simp] theorem ends_define {c : BlockId} {slot : Nat} {d : Definition}
    {Q : Unit → Builder → Prop} {E : Fault → Builder → Prop} :
    Ends (define c slot d) b Q E ↔ Q () (b.onBlock c (Block.define slot d)) := Iff.rfl

theorem ends_blockAt {c : BlockId} {Q : Block → Builder → Prop} {E : Fault → Builder → Prop}
    {k : Block} (present : b.blocks[c]? = some k) : Ends (blockAt c) b Q E ↔ Q k b := by
  simp only [blockAt, ends_bind, ends_get, present]
  exact Iff.rfl

theorem ends_checkBlock {c : BlockId} {Q : Unit → Builder → Prop} {E : Fault → Builder → Prop}
    (inside : c < b.blocks.size) : Ends (checkBlock c) b Q E ↔ Q () b := by
  simp only [checkBlock, ends_bind, ends_get, inside, if_true]
  exact Iff.rfl

def fed (b : Builder) (phi operand : ValueId) : Builder :=
  let operand := b.representative operand
  let next := b.onPhi phi (Phi.feed operand)
  if operand ≠ phi ∧ b.isPhi operand then next.onPhi operand (Phi.addUser phi) else next

theorem feed_ends (phi : ValueId) {operand : ValueId}
    (inside : b.representative operand < b.values.size) :
    Ends (feed phi operand) b (fun _ t => t = b.fed phi operand) fun _ _ => False := by
  simp only [feed, ends_bind, ends_get, ends_maintain, ends_modifyPhi]
  refine ⟨fun _ => ?_, fun out => out inside⟩
  rw [ends_ite]
  simp only [Bool.and_eq_true, decide_eq_true_eq, fed]
  refine ⟨fun use => ?_, fun idle => ?_⟩
  · rw [if_pos use, ends_modifyPhi]
    rfl
  · rw [if_neg idle, ends_pure]
    rfl

theorem fed_cases (b : Builder) (phi operand : ValueId) :
    b.fed phi operand = b.onPhi phi (Phi.feed (b.representative operand)) ∨
      b.fed phi operand = (b.onPhi phi (Phi.feed (b.representative operand))).onPhi
        (b.representative operand) (Phi.addUser phi) := by
  unfold fed
  dsimp only
  split
  · exact .inr rfl
  · exact .inl rfl

@[simp] theorem blocks_fed (phi operand : ValueId) : (b.fed phi operand).blocks = b.blocks := by
  obtain same | same := b.fed_cases phi operand <;> rw [same] <;> rfl

@[simp] theorem locals_fed (phi operand : ValueId) : (b.fed phi operand).locals = b.locals := by
  obtain same | same := b.fed_cases phi operand <;> rw [same] <;> rfl

@[simp] theorem paramCount_fed (phi operand : ValueId) :
    (b.fed phi operand).paramCount = b.paramCount := by
  obtain same | same := b.fed_cases phi operand <;> rw [same] <;> rfl

@[simp] theorem substitution_fed (phi operand : ValueId) :
    (b.fed phi operand).substitution = b.substitution := by
  obtain same | same := b.fed_cases phi operand <;> rw [same] <;> rfl

@[simp] theorem representative_fed (phi operand : ValueId) :
    (b.fed phi operand).representative = b.representative := by
  obtain same | same := b.fed_cases phi operand <;> rw [same] <;> rfl

@[simp] theorem definition_fed (phi operand : ValueId) :
    (b.fed phi operand).definition = b.definition := by
  obtain same | same := b.fed_cases phi operand <;> rw [same] <;> rfl

@[simp] theorem size_fed (phi operand : ValueId) :
    (b.fed phi operand).values.size = b.values.size := by
  obtain same | same := b.fed_cases phi operand <;> simp [same]

theorem look_fed (phi operand i : ValueId) :
    (b.fed phi operand).look i =
      if i = phi then (b.look i).map (Value.updatePhi (Phi.feed (b.representative operand)))
      else b.look i := by
  obtain same | same := b.fed_cases phi operand
  · rw [same]
    exact look_onPhi phi (Phi.feed _) (fun _ => rfl) i
  · rw [same, look_onPhi_uses _ (Phi.addUser phi) fun _ => rfl]
    exact look_onPhi phi (Phi.feed _) (fun _ => rfl) i

end Builder

end WasmFunclets.Ssa
