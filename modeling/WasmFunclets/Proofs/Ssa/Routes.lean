import WasmFunclets.Proofs.Ssa.Final
import WasmFunclets.Proofs.Ssa.Dominance
import WasmFunclets.Proofs.Ssa.Recalls

/-! What a value is at the end of a path from the entry, in a function whose blocks are all sealed: a phi
is the operand that belongs to the edge by which the path came to its block. What a block has been handed
has a value at the end of every path to it, and a local is there what was written last along the path. -/

namespace WasmFunclets.Ssa

/-- A block that a path comes to, and the place of the edge by which it does. -/
structure Visit where
  block : BlockId
  edge : Nat
  deriving DecidableEq, Repr

namespace Builder

variable {strict : Bool} {written : BlockId → Nat → Prop} {b t : Builder} {c e : BlockId} {i : Nat}
variable {slot : Nat} {k : Block} {pred : Predecessor} {route : List Visit} {u v id : ValueId}

/-- A path from the entry to a block by edges of the function: where it came to, the last block first. -/
inductive Route (b : Builder) : List Visit → BlockId → Prop where
  | entry : Route b [] entryId
  | step {c : BlockId} {k : Block} {i : Nat} {pred : Predecessor} {route : List Visit}
      (behind : Route b route pred.block) (present : b.blocks[c]? = some k)
      (edge : k.predecessors[i]? = some pred) : Route b (⟨c, i⟩ :: route) c

def endOf (route : List Visit) : BlockId := (route.head?.map Visit.block).getD entryId

theorem Route.endOf_eq (way : b.Route route c) : endOf route = c := by
  cases way <;> rfl

theorem Route.upto (way : b.Route route c) (member : ∃ visit ∈ route, visit.block = e) :
    ∃ i rest, b.Route (⟨e, i⟩ :: rest) e ∧ ⟨e, i⟩ :: rest <:+ route := by
  induction way with
  | entry => simp at member
  | @step c k i pred route behind present edge ih =>
      by_cases here : c = e
      · subst here
        exact ⟨i, route, .step behind present edge, List.suffix_refl _⟩
      · obtain ⟨j, rest, first, suffix⟩ := ih (by simpa [here] using member)
        exact ⟨j, rest, first, suffix.trans (List.suffix_cons _ _)⟩

theorem Route.once (way : b.Route (⟨c, i⟩ :: route) c) : ∃ j rest, b.Route (⟨c, j⟩ :: rest) c ∧
    ∀ visit ∈ rest, visit.block ≠ c := by
  induction size : route.length using Nat.strongRecOn generalizing i route with
  | ind n ih =>
      by_cases again : ∃ visit ∈ route, visit.block = c
      · cases way with
        | step behind _ _ =>
            obtain ⟨j, rest, first, suffix⟩ := behind.upto again
            have shorter := suffix.length_le
            rw [List.length_cons, size] at shorter
            exact ih rest.length shorter first rfl
      · exact ⟨i, route, way, fun visit member same => again ⟨visit, member, same⟩⟩

/-- What a value is at the end of a path. A phi is the operand of the edge by which the path last came to
its block, at the end of the path up to there; anything else stands for itself. -/
def valueAlong (b : Builder) : List Visit → ValueId → Option ValueId
  | [], id =>
      match b.values[b.representative id]? with
      | none => none
      | some v => if v.phi?.isSome then none else some (b.representative id)
  | visit :: route, id =>
      match b.values[b.representative id]? with
      | none => none
      | some v =>
          match v.phi? with
          | none => some (b.representative id)
          | some p =>
              if v.block = some visit.block then p.operands[visit.edge]?.bind (b.valueAlong route)
              else b.valueAlong route id

theorem valueAlong_congr (route : List Visit) (same : b.representative u = b.representative v) :
    b.valueAlong route u = b.valueAlong route v := by
  induction route with
  | nil => simp only [valueAlong, same]
  | cons visit route ih => simp only [valueAlong, same, ih]

theorem phi?_of_look {w : Value} (shown : b.look id = some w) :
    ∃ v, b.values[id]? = some v ∧ v.block = w.block ∧
      v.phi?.map Phi.operands = w.phi?.map Phi.operands := by
  obtain ⟨v, present, rfl⟩ := Option.map_eq_some_iff.mp shown
  refine ⟨v, present, (Value.block_updatePhi _ v).symm, ?_⟩
  obtain ⟨_, _, _ | _ | _ | _ | _ | _ | _⟩ := v <;> rfl

def Plain (b : Builder) (v : ValueId) : Prop :=
  ∃ w, b.look (b.representative v) = some w ∧ ∀ p, w.content ≠ .phi p

def PhiOf (b : Builder) (c : BlockId) (v : ValueId) (p : Phi) : Prop :=
  ∃ type, b.look (b.representative v) = some ⟨type, some c, .phi p⟩

theorem Plain.along (plain : b.Plain v) (route : List Visit) :
    b.valueAlong route v = some (b.representative v) := by
  obtain ⟨w, shown, noPhi⟩ := plain
  obtain ⟨x, present, _, same⟩ := phi?_of_look shown
  have none_ : x.phi? = none := by
    rw [← Option.map_eq_none_iff, same]
    obtain ⟨_, _, _ | _ | _ | _ | p | _ | _⟩ := w
    case phi => exact absurd rfl (noPhi p)
    all_goals rfl
  cases route <;> simp [valueAlong, present, none_]

theorem IsInitial.plain (value : b.IsInitial slot (b.representative v)) : b.Plain v := by
  obtain ⟨type, _, shown⟩ := value
  refine ⟨_, shown, fun p isPhi => ?_⟩
  dsimp only at isPhi
  split at isPhi <;> cases isPhi

theorem PhiOf.congr {p : Phi} (phi : b.PhiOf c v p) (same : b.representative u = b.representative v) :
    b.PhiOf c u p := by rwa [PhiOf, same]

theorem PhiOf.home_eq {p q : Phi} (phi : b.PhiOf c v p) (other : b.PhiOf e v q) : c = e := by
  obtain ⟨_, one⟩ := phi
  obtain ⟨_, two⟩ := other
  cases one.symm.trans two
  rfl

theorem Plain.not_phi {p : Phi} (plain : b.Plain v) : ¬ b.PhiOf c v p := by
  rintro ⟨type, isPhi⟩
  obtain ⟨w, shown, noPhi⟩ := plain
  cases shown.symm.trans isPhi
  exact noPhi p rfl

theorem PhiOf.value {p : Phi} (phi : b.PhiOf c v p) : ∃ x q,
    b.values[b.representative v]? = some x ∧ x.block = some c ∧ x.phi? = some q ∧
      q.operands = p.operands := by
  obtain ⟨type, shown⟩ := phi
  obtain ⟨x, present, home, same⟩ := phi?_of_look shown
  obtain ⟨q, found, operands⟩ := Option.map_eq_some_iff.mp same
  exact ⟨x, q, present, home, found, operands⟩

theorem PhiOf.along {p : Phi} (phi : b.PhiOf c v p) :
    b.valueAlong (⟨c, i⟩ :: route) v = p.operands[i]?.bind (b.valueAlong route) := by
  obtain ⟨x, q, present, home, found, operands⟩ := phi.value
  simp only [valueAlong, present, found, home, if_true, operands]

theorem PhiOf.along_other {p : Phi} (phi : b.PhiOf e v p) (other : e ≠ c) :
    b.valueAlong (⟨c, i⟩ :: route) v = b.valueAlong route v := by
  obtain ⟨x, q, present, home, found, _⟩ := phi.value
  have away : x.block ≠ some c := fun same => other (Option.some.inj (home.symm.trans same))
  simp only [valueAlong, present, found, if_neg away]

theorem plain_or_phi (formed : b.Formed strict) (known : b.valueAlong route v = some u) :
    b.Plain v ∨ ∃ e p, b.PhiOf e v p := by
  cases shown : b.look (b.representative v) with
  | none =>
      have missing : b.values[b.representative v]? = none := by
        rwa [look, Option.map_eq_none_iff] at shown
      cases route <;> simp [valueAlong, missing] at known
  | some w =>
      obtain ⟨type, home, content⟩ := w
      cases content with
      | phi p =>
          obtain ⟨c, rfl⟩ := Option.ne_none_iff_exists'.mp fun none_ => by
            cases (formed.home shown).mp none_
          exact .inr ⟨c, p, type, shown⟩
      | _ => exact .inl ⟨_, shown, by simp⟩

/-- A value that a block can hand on: no phi, an argument of the block, or what a local has at the start
of it. -/
inductive Comes (b : Builder) (c : BlockId) (v : ValueId) : Prop where
  | plain (plain : b.Plain v)
  | argument {a : ValueId} {type : ValueType} {j : Nat} {p : Phi}
      (own : b.ArgumentPhi a type c j p) (same : b.representative v = b.representative a)
  | starts {slot : Nat} (starts : b.StartsWith c slot v)

theorem Comes.congr (comes : b.Comes c u) (same : b.representative v = b.representative u) :
    b.Comes c v := by
  cases comes with
  | plain plain =>
      rw [Plain, ← same] at plain
      exact .plain plain
  | argument own toward => exact .argument own (same.trans toward)
  | starts starts => exact .starts (starts.congr same)

theorem Plain.later (plain : b.Plain v) (later : b.Later t) (formed : t.Formed strict) : t.Plain v := by
  obtain ⟨w, shown, noPhi⟩ := plain
  obtain ⟨x, found, kin⟩ := later.look shown
  obtain rfl := kin.eq noPhi
  have leads : t.representative (b.representative v) = b.representative v := by
    by_contra changed
    obtain ⟨_, _, p, _, isPhi, _⟩ := formed.replaced changed
    cases found.symm.trans isPhi
    exact noPhi p rfl
  rw [later.representative] at leads
  exact ⟨x, by rw [leads, found], noPhi⟩

theorem Comes.later (comes : b.Comes c v) (later : b.Later t) (formed : t.Formed strict) :
    t.Comes c v := by
  cases comes with
  | plain plain => exact .plain (plain.later later formed)
  | argument own same =>
      obtain ⟨q, still⟩ := later.argumentPhi own
      exact .argument still (later.same same)
  | starts starts => exact .starts (starts.later later formed)

/-- Edges and writes of locals hand on only what their blocks have been handed. -/
structure Honest (written : BlockId → Nat → Prop) (b : Builder) : Prop where
  edges : ∀ {c : BlockId} {o : BlockOutline}, b.outline c = some o → ∀ pred ∈ o.predecessors,
    ∀ arg ∈ pred.args, b.Comes pred.block arg
  written : ∀ {c : BlockId} {s : Nat}, written c s →
    ∃ d, b.definition c s = some d ∧ b.Comes c d

theorem Honest.definition_comes {d : ValueId} (honest : b.Honest written)
    (sound : b.Consistent strict written) (known : b.definition c slot = some d) : b.Comes c d := by
  rcases sound.flow.starts known with byClient | starts
  · obtain ⟨d', same, comes⟩ := honest.written byClient
    cases known.symm.trans same
    exact comes
  · exact .starts starts

def Brought (b : Builder) (c : BlockId) (v : ValueId) : Prop :=
  c ≠ entryId ∧ ∀ (k : Block) (i : Nat) (pred : Predecessor), b.blocks[c]? = some k →
    k.predecessors[i]? = some pred →
      ∃ d, b.Comes pred.block d ∧ b.representative d = b.representative v

/-- A function whose blocks are all sealed, built by an honest client. -/
structure Finished (strict : Bool) (written : BlockId → Nat → Prop) (b : Builder) : Prop where
  sound : b.Consistent strict written
  honest : b.Honest written
  final : b.Final

section Finished

variable (finished : b.Finished strict written)
include finished

theorem Finished.definition_comes {d : ValueId} (known : b.definition c slot = some d) :
    b.Comes c d :=
  finished.honest.definition_comes finished.sound known

/-- A phi has an operand for each edge of its block, which the predecessor can hand on: for the phi of a
local, its definition there. -/
theorem Finished.operand_comes {type : ValueType} {p : Phi}
    (shown : b.look u = some ⟨type, some c, .phi p⟩) (present : b.blocks[c]? = some k)
    (edge : k.predecessors[i]? = some pred) :
    ∃ o, p.operands[i]? = some o ∧ b.Comes pred.block o ∧ ∀ s, p.role = .local s →
      ∃ d, b.definition pred.block s = some d ∧ b.representative d = b.representative o := by
  have below := (Array.getElem?_eq_some_iff.mp edge).1
  cases role : p.role with
  | argument j =>
      obtain ⟨size, carried⟩ :=
        finished.sound.ledger.operands ⟨shown, role⟩ (outline_of_block present)
      have place := Array.getElem?_eq_getElem (Nat.lt_of_lt_of_eq below size.symm)
      obtain ⟨pred', arg, edge', passed, same⟩ := carried place
      cases edge.symm.trans edge'
      have comes := finished.honest.edges (outline_of_block present) pred
        (Array.mem_of_getElem? edge) arg (List.mem_of_getElem? passed)
      exact ⟨_, place, comes.congr same.symm, nofun⟩
  | «local» slot =>
      obtain ⟨x, found, home⟩ := value_of_look shown
      obtain ⟨type', block', content⟩ := x
      cases content with
      | phi q =>
          cases home
          have complete : q.complete = true := finished.final.complete_phi found rfl
          have size := (finished.sound.flow.complete ⟨shown, role⟩ present complete).1
          have place := Array.getElem?_eq_getElem (Nat.lt_of_lt_of_eq below size.symm)
          obtain ⟨pred', d, edge', known, same⟩ :=
            finished.sound.flow.operands ⟨shown, role⟩ present place
          cases edge.symm.trans edge'
          refine ⟨_, place, (finished.definition_comes known).congr same.symm, ?_⟩
          rintro s ⟨⟩
          exact ⟨d, known, same⟩
      | _ => cases home

theorem Finished.brought_of_replaced {type : ValueType} {p : Phi}
    (shown : b.look u = some ⟨type, some c, .phi p⟩) (replaced : b.representative u ≠ u) :
    b.Brought c u := by
  refine ⟨finished.sound.phi_inner shown, fun k i pred present edge => ?_⟩
  obtain ⟨_, _, p', _, isPhi, _, _, _, alike⟩ := finished.sound.formed.replaced replaced
  cases shown.symm.trans isPhi
  obtain ⟨o, place, comes, _⟩ := finished.operand_comes shown present edge
  exact ⟨o, comes, alike o (Array.mem_of_getElem? place)⟩

theorem Finished.cases_of_phi {type : ValueType} {p : Phi}
    (shown : b.look u = some ⟨type, some c, .phi p⟩)
    (same : b.representative v = b.representative u) :
    (∃ q, c ≠ entryId ∧ b.PhiOf c v q) ∨ b.Brought c v := by
  by_cases still : b.representative u = u
  · exact .inl ⟨p, finished.sound.phi_inner shown, type, by rw [same, still, shown]⟩
  · obtain ⟨inner, each⟩ := finished.brought_of_replaced shown still
    refine .inr ⟨inner, fun k i pred present edge => ?_⟩
    obtain ⟨d, comes, toward⟩ := each k i pred present edge
    exact ⟨d, comes, toward.trans same.symm⟩

theorem Comes.cases (comes : b.Comes c v) :
    b.Plain v ∨ (∃ p, c ≠ entryId ∧ b.PhiOf c v p) ∨ b.Brought c v := by
  cases comes with
  | plain plain => exact .inl plain
  | argument own same => exact .inr (finished.cases_of_phi own.1 same)
  | starts starts =>
      cases starts with
      | initial entry value => exact .inl value.plain
      | phi own role same => exact .inr (finished.cases_of_phi own same)
      | passed present inner isSealed each =>
          refine .inr (.inr ⟨inner, fun k i pred present' edge => ?_⟩)
          cases present.symm.trans present'
          obtain ⟨d, known, same⟩ := each pred (Array.mem_of_getElem? edge)
          exact ⟨d, finished.definition_comes known, same⟩

theorem Route.visits (way : b.Route route c) (comes : b.Comes c v) {p : Phi} (phi : b.PhiOf e v p) :
    ∃ visit ∈ route, visit.block = e := by
  induction way generalizing v with
  | entry =>
      rcases comes.cases finished with plain | ⟨_, inner, _⟩ | ⟨inner, _⟩
      · exact absurd phi plain.not_phi
      · exact absurd rfl inner
      · exact absurd rfl inner
  | @step c k i pred route behind present edge ih =>
      rcases comes.cases finished with plain | ⟨_, _, here⟩ | ⟨_, each⟩
      · exact absurd phi plain.not_phi
      · exact ⟨_, List.mem_cons_self, here.home_eq phi⟩
      · obtain ⟨d, comes', same⟩ := each k i pred present edge
        obtain ⟨visit, member, there⟩ := ih comes' (phi.congr same)
        exact ⟨visit, List.mem_cons_of_mem _ member, there⟩

theorem Brought.apart (brought : b.Brought c v) (way : b.Route (⟨c, i⟩ :: route) c) {p : Phi}
    (phi : b.PhiOf e v p) : e ≠ c := by
  rintro rfl
  obtain ⟨j, rest, first, fresh⟩ := way.once
  cases first with
  | step behind present edge =>
      obtain ⟨d, comes, same⟩ := brought.2 _ _ _ present edge
      obtain ⟨visit, member, there⟩ := behind.visits finished comes (phi.congr same)
      exact fresh visit member there

theorem Brought.along (brought : b.Brought c v) (way : b.Route (⟨c, i⟩ :: route) c)
    (defined : ∃ w, b.valueAlong route v = some w) :
    b.valueAlong (⟨c, i⟩ :: route) v = b.valueAlong route v := by
  obtain ⟨w, known⟩ := defined
  rcases plain_or_phi finished.sound.formed known with plain | ⟨e, p, phi⟩
  · rw [plain.along, plain.along]
  · exact phi.along_other (brought.apart finished way phi)

theorem Route.defined (way : b.Route route c) (comes : b.Comes c v) :
    ∃ w, b.valueAlong route v = some w := by
  induction way generalizing v with
  | entry =>
      rcases comes.cases finished with plain | ⟨_, inner, _⟩ | ⟨inner, _⟩
      · exact ⟨_, plain.along []⟩
      · exact absurd rfl inner
      · exact absurd rfl inner
  | @step c k i pred route behind present edge ih =>
      rcases comes.cases finished with plain | ⟨p, _, phi⟩ | brought
      · exact ⟨_, plain.along _⟩
      · obtain ⟨type, shown⟩ := phi
        obtain ⟨o, place, comes', _⟩ := finished.operand_comes shown present edge
        rw [PhiOf.along ⟨type, shown⟩, place]
        exact ih comes'
      · obtain ⟨d, comes', same⟩ := brought.2 k i pred present edge
        have defined := ih comes'
        rw [valueAlong_congr route same] at defined
        rw [brought.along finished (.step behind present edge) defined]
        exact defined

/-- What a local starts with in a block is its definition at the end of the block before. -/
theorem StartsWith.along (starts : b.StartsWith c slot v) (behind : b.Route route pred.block)
    (present : b.blocks[c]? = some k) (edge : k.predecessors[i]? = some pred) :
    ∃ d, b.definition pred.block slot = some d ∧
      b.valueAlong (⟨c, i⟩ :: route) v = b.valueAlong route d := by
  have defined {d : ValueId} (comes : b.Comes pred.block d)
      (same : b.representative d = b.representative v) : ∃ w, b.valueAlong route v = some w := by
    rw [← valueAlong_congr route same]
    exact behind.defined finished comes
  cases starts with
  | initial entry value =>
      obtain ⟨k', present', _, none_, _⟩ := finished.sound.flow.entry
      rw [entry, present'] at present
      cases present
      simp [none_] at edge
  | @phi q type p own role same =>
      obtain ⟨o, place, comes, each⟩ := finished.operand_comes own present edge
      obtain ⟨d, known, toward⟩ := each slot role
      refine ⟨d, known, ?_⟩
      by_cases still : b.representative q = q
      · have phi : b.PhiOf c v p := ⟨type, by rw [same, still, own]⟩
        rw [phi.along, place, Option.bind_some, valueAlong_congr route toward]
      · have brought := finished.brought_of_replaced own still
        obtain ⟨_, _, _, _, isPhi, _, _, _, alike⟩ := finished.sound.formed.replaced still
        cases own.symm.trans isPhi
        have alike := alike o (Array.mem_of_getElem? place)
        have defined := defined comes (alike.trans same.symm)
        rw [valueAlong_congr route same] at defined
        rw [valueAlong_congr _ same, brought.along finished (.step behind present edge) defined,
          valueAlong_congr route (alike.symm.trans toward.symm)]
  | @passed k' present' inner isSealed each =>
      cases present.symm.trans present'
      obtain ⟨d, known, same⟩ := each pred (Array.mem_of_getElem? edge)
      have brought : b.Brought c v := by
        refine ⟨inner, fun l j other found place => ?_⟩
        cases present.symm.trans found
        obtain ⟨d, known, same⟩ := each other (Array.mem_of_getElem? place)
        exact ⟨d, finished.definition_comes known, same⟩
      refine ⟨d, known, ?_⟩
      rw [brought.along finished (.step behind present edge)
        (defined (finished.definition_comes known) same), valueAlong_congr route same]

end Finished

/-- The last write of a local along a path, and the path up to the block of the write. What the last
block is written counts only so far as the value given for it, if there is one. -/
def lastWrite (writes : BlockId → Option ValueId) :
    Option ValueId → List Visit → Option (List Visit × ValueId)
  | some v, route => some (route, v)
  | none, [] => none
  | none, _ :: route => lastWrite writes (writes (endOf route)) route

/-- Whether a value is the one that a write left, at the end of the path up to the write, or if there is
none the initial value of the local. -/
def Left (b : Builder) (slot : Nat) (w : ValueId) : Option (List Visit × ValueId) → Prop
  | some (route, v) => b.valueAlong route v = some w
  | none => b.IsInitial slot w

/-- What a local starts with in a block is, at the end of every path, what was written last before. -/
theorem Finished.start_along (finished : b.Finished strict written)
    {writes : BlockId → Option ValueId}
    (settled : ∀ {c : BlockId} {v : ValueId}, writes c = some v → b.StandsFor c slot v)
    (all : ∀ {c : BlockId}, written c slot → writes c ≠ none) (way : b.Route route c)
    (starts : b.StartsWith c slot v) :
    ∃ w, b.valueAlong route v = some w ∧ b.Left slot w (lastWrite writes none route) := by
  induction way generalizing v with
  | entry =>
      cases starts with
      | initial _ value => exact ⟨_, value.plain.along [], value⟩
      | phi own _ _ => exact absurd rfl (finished.sound.phi_inner own)
      | passed _ inner _ _ => exact absurd rfl inner
  | @step c k i pred route behind present edge ih =>
      obtain ⟨d, known, along⟩ := starts.along finished behind present edge
      rw [along, lastWrite, behind.endOf_eq]
      cases last : writes pred.block with
      | some x =>
          obtain ⟨d', known', same⟩ := settled last
          cases known.symm.trans known'
          obtain ⟨w, value⟩ := behind.defined finished (finished.definition_comes known)
          exact ⟨w, value, by rwa [lastWrite, Left, ← valueAlong_congr route same]⟩
      | none =>
          rcases finished.sound.flow.starts known with byClient | starts'
          · exact absurd last (all byClient)
          · exact ih starts'

end Builder

end WasmFunclets.Ssa
