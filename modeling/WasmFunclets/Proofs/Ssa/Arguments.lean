import WasmFunclets.Proofs.Ssa.Declare
import WasmFunclets.Proofs.Ssa.Rereads

/-! The arguments of a block may be declared before, between or after its edges: whatever the position,
the same values get the same ids, and the block ends up with the same edges and the same phis. -/

namespace WasmFunclets.Ssa.Builder

open Attempt

variable {b s t : Builder} {c : BlockId} {k : Block} {types : List ValueType} {values : List Value}
variable {edge : Predecessor} {edges : List Predecessor} {arity m n : Nat}

def Room (b : Builder) (more : Nat) : Prop := more = 0 ∨ b.values.size + more ≤ arenaLimit

theorem room_zero (b : Builder) : b.Room 0 := .inl rfl

theorem Room.of_le (room : b.Room n) (le : m ≤ n) : b.Room m := by
  unfold Room at *
  omega

theorem room_add (size : t.values.size = b.values.size + m) :
    b.Room (m + n) ↔ b.Room m ∧ t.Room n := by
  unfold Room
  omega

def withValues (b : Builder) (values : List Value) : Builder := values.foldl withValue b

@[simp] theorem size_withValues (b : Builder) (values : List Value) :
    (b.withValues values).values.size = b.values.size + values.length := by
  induction values generalizing b with
  | nil => rfl
  | cons v values ih =>
      rw [withValues, List.foldl_cons, ← withValues, ih, size_withValue, List.length_cons]
      omega

theorem look_withValues (b : Builder) (values : List Value) (i : ValueId) :
    (b.withValues values).look i =
      if i < b.values.size then b.look i else values[i - b.values.size]?.map Value.plain := by
  induction values generalizing b with
  | nil =>
      split
      · rfl
      · rename_i out
        rw [List.getElem?_nil, Option.map_none]
        cases shown : b.look i with
        | none => exact shown
        | some v => exact absurd (lt_of_look shown) out
  | cons v values ih =>
      rw [withValues, List.foldl_cons, ← withValues, ih, size_withValue, look_withValue]
      rcases Nat.lt_trichotomy i b.values.size with old | rfl | new
      · rw [if_pos (Nat.lt_succ_of_lt old), if_neg (Nat.ne_of_lt old), if_pos old]
      · rw [if_pos (Nat.lt_succ_self _), if_pos rfl, if_neg (Nat.lt_irrefl _), Nat.sub_self]
        rfl
      · obtain ⟨j, rfl⟩ := Nat.exists_eq_add_of_lt new
        have after : ¬ b.values.size + j + 1 < b.values.size + 1 := by omega
        have first : b.values.size + j + 1 - b.values.size = j + 1 := by omega
        have rest : b.values.size + j + 1 - (b.values.size + 1) = j := by omega
        rw [if_neg after, if_neg (Nat.lt_asymm new), first, rest, List.getElem?_cons_succ]

theorem coherent_withValues (coherent : b.substitution.Coherent b.values.size)
    (values : List Value) :
    (b.withValues values).substitution.Coherent (b.withValues values).values.size ∧
      (b.withValues values).representative = b.representative := by
  induction values generalizing b with
  | nil => exact ⟨coherent, rfl⟩
  | cons v values ih =>
      obtain ⟨coherent', same⟩ := ih (b := b.withValue v) (by rw [size_withValue]; exact coherent.extend)
      exact ⟨coherent', same.trans (representative_withValue coherent v)⟩

theorem frame_withValues (b : Builder) (values : List Value) :
    (b.withValues values).blocks = b.blocks ∧ (b.withValues values).locals = b.locals ∧
      (b.withValues values).paramCount = b.paramCount ∧
      (b.withValues values).replacedPhis = b.replacedPhis := by
  induction values generalizing b with
  | nil => exact ⟨rfl, rfl, rfl, rfl⟩
  | cons v values ih => exact ih (b.withValue v)

theorem withValues_onBlock (b : Builder) (c : BlockId) (change : Block → Block)
    (values : List Value) :
    (b.onBlock c change).withValues values = (b.withValues values).onBlock c change := by
  induction values generalizing b with
  | nil => rfl
  | cons v values ih => exact ih (b.withValue v)

theorem withValues_reroute (b : Builder) (c : BlockId) (f : Array Predecessor → Array Predecessor)
    (values : List Value) : (b.reroute c f).withValues values = (b.withValues values).reroute c f :=
  withValues_onBlock b c _ values

theorem reroute_reroute (b : Builder) (c : BlockId) (f g : Array Predecessor → Array Predecessor) :
    (b.reroute c f).reroute c g = b.reroute c fun preds => g (f preds) :=
  onBlock_onBlock c _ _

theorem addValue_exact (b : Builder) {type : ValueType} {home : Option BlockId} {content : Content} :
    Ends (addValue type home content) b
      (fun id t => b.Room 1 ∧ id = b.values.size ∧ t = b.withValue ⟨type, home, content⟩)
      fun e _ => e = .broken .arenaExhausted ∧ ¬ b.Room 1 := by
  simp only [addValue, ends_bind, ends_get, ends_maintain, ends_modify, ends_pure]
  refine ⟨fun below => ⟨.inr below, trivial, rfl⟩, fun full => ⟨trivial, ?_⟩⟩
  rintro (absurd_ | below)
  · cases absurd_
  · exact full below

theorem onBlock_congr {f g : Block → Block} (same : ∀ k, b.blocks[c]? = some k → f k = g k) :
    b.onBlock c f = b.onBlock c g := by
  have blocks : b.blocks.modify c f = b.blocks.modify c g := by
    refine Array.ext_getElem? fun i => ?_
    simp only [Array.getElem?_modify]
    split
    · rename_i here
      exact Option.map_congr fun k present => same k (here ▸ present)
    · rfl
  simp only [onBlock, blocks]

theorem reroute_congr {f g : Array Predecessor → Array Predecessor}
    (same : ∀ k, b.blocks[c]? = some k → f k.predecessors = g k.predecessors) :
    b.reroute c f = b.reroute c g :=
  onBlock_congr fun k present => by rw [same k present]

theorem onBlock_self {f : Block → Block} (same : ∀ k, b.blocks[c]? = some k → f k = k) :
    b.onBlock c f = b := by
  have blocks : b.blocks.modify c f = b.blocks := by
    refine Array.ext_getElem? fun i => ?_
    rw [Array.getElem?_modify]
    split
    · rename_i here
      cases present : b.blocks[i]? with
      | none => rfl
      | some k => rw [Option.map_some, same k (here ▸ present)]
    · rfl
  simp only [onBlock, blocks]

def parameters (c : BlockId) : Nat → List ValueType → List Value
  | _, [] => []
  | index, type :: types =>
      ⟨type, some c, .phi (freshPhi (.argument index))⟩ :: parameters c (index + 1) types

theorem getElem?_parameters (c : BlockId) (index : Nat) (types : List ValueType) (j : Nat) :
    (parameters c index types)[j]? = types[j]?.map fun type =>
      ⟨type, some c, .phi (freshPhi (.argument (index + j)))⟩ := by
  induction types generalizing index j with
  | nil => rfl
  | cons type types ih =>
      cases j with
      | zero => rfl
      | succ j =>
          rw [parameters, List.getElem?_cons_succ, List.getElem?_cons_succ, ih, Nat.add_assoc,
            Nat.add_comm 1 j]

@[simp] theorem length_parameters (c : BlockId) (index : Nat) (types : List ValueType) :
    (parameters c index types).length = types.length := by
  induction types generalizing index with
  | nil => rfl
  | cons type types ih => rw [parameters, List.length_cons, ih, List.length_cons]

def addArgs (ids : List ValueId) (k : Block) : Block := { k with args := k.args.map (· ++ ids.toArray) }

theorem addArguments_exact (b : Builder) (c : BlockId) (index : Nat) (types : List ValueType) :
    Ends (addArguments c index types) b (fun _ t => b.Room types.length ∧
        t = (b.withValues (parameters c index types)).onBlock c
          (addArgs (List.range' b.values.size types.length)))
      fun e _ => e = .broken .arenaExhausted ∧ ¬ b.Room types.length := by
  induction types generalizing b index with
  | nil =>
      refine ⟨b.room_zero, (onBlock_self fun k _ => ?_).symm⟩
      obtain ⟨_, _, _, _ | ids, _, _, _⟩ := k <;> simp [addArgs]
  | cons type types ih =>
      rw [addArguments, ends_bind, addPhi]
      have split (v : Value) :
          b.Room (type :: types).length ↔ b.Room 1 ∧ (b.withValue v).Room types.length := by
        rw [List.length_cons, Nat.add_comm]
        exact room_add (size_withValue _)
      refine b.addValue_exact.mono ?_
        fun _ _ => And.imp_right fun no room => no ((split ⟨type, none, .undef⟩).mp room).1
      rintro _ _ ⟨room, rfl, rfl⟩
      rw [ends_bind, ends_modifyBlock]
      refine (ih _ (index + 1)).mono ?_
        fun _ _ => And.imp_right fun no room => no ((split _).mp room).2
      rintro _ _ ⟨room', rfl⟩
      refine ⟨(split _).mpr ⟨room, room'⟩, ?_⟩
      rw [withValues_onBlock, onBlock_onBlock]
      refine onBlock_congr fun k _ => ?_
      rw [values_onBlock, size_withValue, List.length_cons, List.range'_succ]
      cases args : k.args with
      | none => simp [addArgs, args]
      | some ids => simp [addArgs, args, ← Array.toList_inj]

def undefined (types : List ValueType) : List Value := types.map fun type => ⟨type, none, .undef⟩

@[simp] theorem length_undefined (types : List ValueType) : (undefined types).length = types.length :=
  List.length_map _

theorem undefs_exact (b : Builder) (types : List ValueType) :
    Ends (undefs types) b (fun ids t => b.Room types.length ∧
        ids = List.range' b.values.size types.length ∧ t = b.withValues (undefined types))
      fun e _ => e = .broken .arenaExhausted ∧ ¬ b.Room types.length := by
  rw [undefs]
  induction types generalizing b with
  | nil => exact ⟨b.room_zero, rfl, rfl⟩
  | cons type types ih =>
      have split : b.Room (type :: types).length ↔
          b.Room 1 ∧ (b.withValue ⟨type, none, .undef⟩).Room types.length := by
        rw [List.length_cons, Nat.add_comm]
        exact room_add (size_withValue _)
      rw [List.mapM_cons, ends_bind, undef]
      refine b.addValue_exact.mono ?_ fun _ _ => And.imp_right fun no room => no (split.mp room).1
      rintro _ _ ⟨room, rfl, rfl⟩
      rw [ends_bind]
      refine (ih (b.withValue ⟨type, none, .undef⟩)).mono ?_
        fun _ _ => And.imp_right fun no room => no (split.mp room).2
      rintro ids t ⟨room', rfl, rfl⟩
      rw [ends_pure]
      refine ⟨split.mpr ⟨room, room'⟩, ?_, rfl⟩
      rw [size_withValue, List.length_cons, List.range'_succ]

def missing (arity : Nat) : List Predecessor → Nat
  | [] => 0
  | edge :: edges => arity - edge.args.length + missing arity edges

theorem missing_append (arity : Nat) (first last : List Predecessor) :
    missing arity (first ++ last) = missing arity first + missing arity last := by
  induction first with
  | nil => rw [List.nil_append, missing, Nat.zero_add]
  | cons edge first ih => rw [List.cons_append, missing, missing, ih, Nat.add_assoc]

theorem missing_singleton (arity : Nat) (edge : Predecessor) :
    missing arity [edge] = arity - edge.args.length := rfl

structure Fillable (b : Builder) (arity : Nat) (edges : List Predecessor) : Prop where
  short : ∀ edge ∈ edges, edge.args.length ≤ arity
  room : b.Room (missing arity edges)

def RefusesEdges (b : Builder) (arity : Nat) (edges : List Predecessor) (e : Fault) : Prop :=
  e = .broken .edgeTooLong ∧ (∃ edge ∈ edges, arity < edge.args.length) ∨
    e = .broken .arenaExhausted ∧ ¬ b.Room (missing arity edges)

theorem fillable_nil (b : Builder) (arity : Nat) : b.Fillable arity [] := ⟨by simp, b.room_zero⟩

theorem fillable_append {first last : List Predecessor}
    (size : t.values.size = b.values.size + missing arity first) :
    b.Fillable arity (first ++ last) ↔ b.Fillable arity first ∧ t.Fillable arity last := by
  have room : b.Room (missing arity (first ++ last)) ↔ _ := missing_append .. ▸ room_add size
  constructor
  · rintro ⟨short, enough⟩
    exact ⟨⟨fun edge member => short edge (List.mem_append_left _ member), (room.mp enough).1⟩,
      fun edge member => short edge (List.mem_append_right _ member), (room.mp enough).2⟩
  · rintro ⟨one, two⟩
    refine ⟨fun edge member => ?_, room.mpr ⟨one.room, two.room⟩⟩
    exact (List.mem_append.mp member).elim (one.short edge) (two.short edge)

theorem RefusesEdges.before {e : Fault} {first : List Predecessor} (refuses : b.RefusesEdges arity first e)
    (last : List Predecessor) : b.RefusesEdges arity (first ++ last) e := by
  rcases refuses with ⟨rfl, edge, member, long⟩ | ⟨rfl, no⟩
  · exact .inl ⟨rfl, edge, List.mem_append_left _ member, long⟩
  · refine .inr ⟨rfl, fun room => no (room.of_le ?_)⟩
    rw [missing_append]
    exact Nat.le_add_right _ _

theorem RefusesEdges.later {e : Fault} {first last : List Predecessor}
    (size : t.values.size = b.values.size + missing arity first) (refuses : t.RefusesEdges arity last e) :
    b.RefusesEdges arity (first ++ last) e := by
  rcases refuses with ⟨rfl, edge, member, long⟩ | ⟨rfl, no⟩
  · exact .inl ⟨rfl, edge, List.mem_append_right _ member, long⟩
  · refine .inr ⟨rfl, fun room => no ?_⟩
    rw [missing_append, room_add size] at room
    exact room.2

def lacking (types : List ValueType) (edge : Predecessor) : List Value :=
  undefined (types.take (types.length - edge.args.length))

@[simp] theorem length_lacking (types : List ValueType) (edge : Predecessor) :
    (lacking types edge).length = types.length - edge.args.length := by
  rw [lacking, length_undefined, List.length_take]
  omega

def fill (arity : Nat) (first : ValueId) (edge : Predecessor) : Predecessor :=
  { edge with args := List.range' first (arity - edge.args.length) ++ edge.args }

theorem length_fill (first : ValueId) (short : edge.args.length ≤ arity) :
    (fill arity first edge).args.length = arity := by
  rw [fill, List.length_append, List.length_range']
  omega

theorem pad_exact (b : Builder) (types : List ValueType) (edge : Predecessor) :
    Ends (pad types edge.args) b (fun filled t => b.Fillable types.length [edge] ∧
        filled = (fill types.length b.values.size edge).args ∧ t = b.withValues (lacking types edge))
      fun e _ => b.RefusesEdges types.length [edge] e := by
  have length : (types.take (types.length - edge.args.length)).length = missing types.length [edge] := by
    rw [List.length_take, missing_singleton]
    omega
  rw [pad, ends_bind, ends_maintain]
  refine ⟨fun short => ?_, fun long =>
    .inl ⟨rfl, edge, List.mem_cons_self, Nat.lt_of_not_le long⟩⟩
  rw [ends_bind]
  refine (b.undefs_exact _).mono ?_ ?_
  · rintro _ _ ⟨room, rfl, rfl⟩
    refine ⟨⟨by simpa using short, length ▸ room⟩, ?_, rfl⟩
    rw [length, missing_singleton]
    rfl
  · rintro e _ ⟨rfl, no⟩
    exact .inr ⟨rfl, length ▸ no⟩

/-- A filled up edge: it is the last one of its block, and the phis have got its values. -/
def handed (b : Builder) (c : BlockId) (types : List ValueType) (phis : List ValueId)
    (edge : Predecessor) : Builder :=
  ((b.withValues (lacking types edge)).fedAll phis (fill types.length b.values.size edge).args).reroute c
    (·.push (fill types.length b.values.size edge))

theorem frame_fedAll (b : Builder) (phis values : List ValueId) :
    (b.fedAll phis values).values.size = b.values.size ∧
      (b.fedAll phis values).substitution = b.substitution ∧
      (b.fedAll phis values).blocks = b.blocks ∧ (b.fedAll phis values).locals = b.locals ∧
      (b.fedAll phis values).paramCount = b.paramCount ∧
      (b.fedAll phis values).replacedPhis = b.replacedPhis := by
  rw [fedAll]
  generalize phis.zip values = entries
  induction entries generalizing b with
  | nil => exact ⟨rfl, rfl, rfl, rfl, rfl, rfl⟩
  | cons entry rest ih =>
      obtain ⟨size, substitution, blocks, locals, paramCount, replaced⟩ := ih (b.fed entry.1 entry.2)
      refine ⟨size.trans (size_fed _ _), substitution.trans (substitution_fed _ _),
        blocks.trans (blocks_fed _ _), locals.trans (locals_fed _ _),
        paramCount.trans (paramCount_fed _ _), replaced.trans ?_⟩
      obtain same | same := b.fed_cases entry.1 entry.2 <;> rw [same] <;> rfl

theorem size_handed (b : Builder) (c : BlockId) (types : List ValueType) (phis : List ValueId)
    (edge : Predecessor) : (b.handed c types phis edge).values.size =
      b.values.size + missing types.length [edge] := by
  rw [handed, reroute, values_onBlock, (frame_fedAll _ _ _).1, size_withValues, length_lacking,
    missing_singleton]

/-- What a filled up edge leaves. -/
structure Hands (b : Builder) (c : BlockId) (types : List ValueType) (phis : List ValueId)
    (edge : Predecessor) (t : Builder) : Prop where
  locals : t.locals = b.locals
  paramCount : t.paramCount = b.paramCount
  replacedPhis : t.replacedPhis = b.replacedPhis
  coherent : t.substitution.Coherent t.values.size
  representative : t.representative = b.representative
  count : t.blocks.size = b.blocks.size
  block : ∀ e, t.blocks[e]? = if e = c then b.blocks[e]?.map fun k =>
    { k with predecessors := k.predecessors.push (fill types.length b.values.size edge) } else b.blocks[e]?
  others : ∀ i < b.values.size, i ∉ phis → t.look i = b.look i
  fed : ∀ (j : Nat) (i v : ValueId), phis[j]? = some i →
    (fill types.length b.values.size edge).args[j]? = some v →
    t.look i = (b.look i).map (Value.updatePhi (Phi.feed (b.representative v)))
  filler : ∀ j < types.length - edge.args.length,
    t.look (b.values.size + j) = types[j]?.map fun type => ⟨type, none, .undef⟩

theorem handed_hands {phis : List ValueId} (coherent : b.substitution.Coherent b.values.size)
    (nodup : phis.Nodup) (length : phis.length = types.length)
    (inside : ∀ phi ∈ phis, phi < b.values.size) (short : edge.args.length ≤ types.length) :
    b.Hands c types phis edge (b.handed c types phis edge) := by
  obtain ⟨blocks, locals, paramCount, replaced⟩ := frame_withValues b (lacking types edge)
  obtain ⟨coherent', representative⟩ := coherent_withValues coherent (lacking types edge)
  obtain ⟨size', substitution', blocks', locals', paramCount', replaced'⟩ :=
    frame_fedAll (b.withValues (lacking types edge)) phis (fill types.length b.values.size edge).args
  have feeds := (b.withValues (lacking types edge)).feeds_fedAll nodup
    (fill types.length b.values.size edge).args (by rw [length_fill _ short, length])
  have look := look_withValues b (lacking types edge)
  exact {
    locals := locals'.trans locals
    paramCount := paramCount'.trans paramCount
    replacedPhis := replaced'.trans replaced
    coherent := by
      rw [handed, reroute, substitution_onBlock, values_onBlock, substitution', size']
      exact coherent'
    representative := feeds.representative.trans representative
    count := by rw [handed, reroute, size_onBlock, blocks', blocks]
    block := fun e => by rw [handed, reroute, block_onBlock, blocks', blocks]
    others := fun i old apart => by
      rw [handed, reroute, look_onBlock, feeds.others apart, look, if_pos old]
    fed := fun j i v place value => by
      rw [handed, reroute, look_onBlock, feeds.own place value, look,
        if_pos (inside i (List.mem_of_getElem? place)), representative]
    filler := fun j below => by
      have apart : b.values.size + j ∉ phis := fun member =>
        absurd (inside _ member) (Nat.not_lt.mpr (Nat.le_add_right _ _))
      rw [handed, reroute, look_onBlock, feeds.others apart, look,
        if_neg (Nat.not_lt.mpr (Nat.le_add_right _ _)), Nat.add_sub_cancel_left, lacking, undefined,
        List.getElem?_map, List.getElem?_take, if_pos below, Option.map_map]
      rfl }

/-- Edges that are filled up one after the other, with ids from the given one on. -/
def fillAll (arity : Nat) : ValueId → List Predecessor → List Predecessor
  | _, [] => []
  | first, edge :: edges =>
      fill arity first edge :: fillAll arity (first + (arity - edge.args.length)) edges

@[simp] theorem length_fillAll (arity : Nat) (first : ValueId) (edges : List Predecessor) :
    (fillAll arity first edges).length = edges.length := by
  induction edges generalizing first with
  | nil => rfl
  | cons edge edges ih => rw [fillAll, List.length_cons, ih, List.length_cons]

theorem fillAll_concat (arity : Nat) (first : ValueId) (edges : List Predecessor)
    (edge : Predecessor) : fillAll arity first (edges ++ [edge]) =
      fillAll arity first edges ++ [fill arity (first + missing arity edges) edge] := by
  induction edges generalizing first with
  | nil => rfl
  | cons edge' edges ih =>
      rw [List.cons_append, fillAll, fillAll, ih, List.cons_append, ← List.singleton_append (l := edges),
        missing_append, missing_singleton, Nat.add_assoc]

/-- What a block leaves that takes arguments of these types from these edges: they are filled up in
front with new undefined values of the leading types, and each argument is a phi with an operand for
each edge. The first new ids are those of the phis. -/
structure Accepts (b : Builder) (c : BlockId) (k : Block) (types : List ValueType)
    (edges : List Predecessor) (t : Builder) : Prop where
  locals : t.locals = b.locals
  paramCount : t.paramCount = b.paramCount
  replacedPhis : t.replacedPhis = b.replacedPhis
  size : t.values.size = b.values.size + types.length + missing types.length edges
  coherent : t.substitution.Coherent t.values.size
  representative : t.representative = b.representative
  count : t.blocks.size = b.blocks.size
  others : ∀ e, e ≠ c → t.blocks[e]? = b.blocks[e]?
  block : t.blocks[c]? = some { k with
    args := some (List.range' b.values.size types.length).toArray
    predecessors := (fillAll types.length (b.values.size + types.length) edges).toArray }
  old : ∀ i < b.values.size, t.look i = b.look i
  argument : ∀ (j : Nat) (type : ValueType), types[j]? = some type → ∃ operands : Array ValueId,
    t.look (b.values.size + j) =
      some ⟨type, some c, .phi ⟨.argument j, operands, false, .empty, #[], none⟩⟩ ∧
    operands.toList.map some = (fillAll types.length (b.values.size + types.length) edges).map
      fun edge => edge.args[j]?.map t.representative
  filler : ∀ edge ∈ fillAll types.length (b.values.size + types.length) edges,
    ∀ (j : Nat) (v : ValueId), edge.args[j]? = some v → b.values.size + types.length ≤ v →
      ∃ type, types[j]? = some type ∧ t.look v = some ⟨type, none, .undef⟩

def declared (b : Builder) (c : BlockId) (types : List ValueType) : Builder :=
  ((b.onBlock c fun k => { k with args := some #[] }).withValues (parameters c 0 types)).onBlock c
    (addArgs (List.range' b.values.size types.length))

theorem accepts_declared (coherent : b.substitution.Coherent b.values.size)
    (present : b.blocks[c]? = some k) (bare : k.predecessors = #[]) (types : List ValueType) :
    b.Accepts c k types [] (b.declared c types) := by
  obtain ⟨blocks, locals, paramCount, replaced⟩ :=
    frame_withValues (b.onBlock c fun k => { k with args := some #[] }) (parameters c 0 types)
  obtain ⟨coherent', representative⟩ :=
    coherent_withValues (b := b.onBlock c fun k => { k with args := some #[] }) coherent
      (parameters c 0 types)
  have look := look_withValues (b.onBlock c fun k => { k with args := some #[] }) (parameters c 0 types)
  refine ⟨locals, paramCount, replaced, ?_, coherent', representative, ?_, fun e other => ?_, ?_,
    fun i old => ?_, fun j type type_ => ⟨#[], ?_, rfl⟩, by simp [fillAll]⟩
  · rw [declared, values_onBlock, size_withValues, length_parameters]
    rfl
  · rw [declared, size_onBlock, blocks, size_onBlock]
  · rw [declared, block_onBlock, if_neg other, blocks, block_onBlock, if_neg other]
  · rw [declared, block_onBlock, if_pos rfl, blocks, block_onBlock, if_pos rfl, present]
    simp [addArgs, fillAll, bare]
  · rw [declared, look_onBlock, look, if_pos (by exact old)]
    rfl
  · have out : ¬ b.values.size + j < b.values.size := Nat.not_lt.mpr (Nat.le_add_right _ _)
    rw [declared, look_onBlock, look, if_neg (by exact out), values_onBlock, Nat.add_sub_cancel_left,
      getElem?_parameters, type_, Nat.zero_add]
    rfl

/-- One more edge is filled up, and each argument gets its value. -/
theorem Accepts.hand (accepts : b.Accepts c k types edges s) (short : edge.args.length ≤ types.length)
    (valid : ∀ v ∈ edge.args, v < b.values.size + types.length) :
    b.Accepts c k types (edges ++ [edge])
      (s.handed c types (List.range' b.values.size types.length) edge) := by
  have grown : b.values.size + types.length ≤ s.values.size := accepts.size ▸ Nat.le_add_right _ _
  have hands := handed_hands (c := c) accepts.coherent List.nodup_range' List.length_range'
    (fun phi member => Nat.lt_of_lt_of_le (List.mem_range'_1.mp member).2 grown) short
  have reps := hands.representative.trans accepts.representative
  have last : fillAll types.length (b.values.size + types.length) (edges ++ [edge]) =
      fillAll types.length (b.values.size + types.length) edges ++
        [fill types.length s.values.size edge] := by
    rw [fillAll_concat, accepts.size]
  exact {
    locals := hands.locals.trans accepts.locals
    paramCount := hands.paramCount.trans accepts.paramCount
    replacedPhis := hands.replacedPhis.trans accepts.replacedPhis
    size := by rw [size_handed, accepts.size, missing_append, Nat.add_assoc]
    coherent := hands.coherent
    representative := reps
    count := hands.count.trans accepts.count
    others := fun e other => by rw [hands.block, if_neg other, accepts.others e other]
    block := by
      rw [hands.block, if_pos rfl, accepts.block, last]
      simp
    old := fun i old => by
      have apart : i ∉ List.range' b.values.size types.length := fun member =>
        absurd (List.mem_range'_1.mp member).1 (Nat.not_le.mpr old)
      rw [hands.others i (Nat.lt_of_lt_of_le old (Nat.le_trans (Nat.le_add_right _ _) grown)) apart,
        accepts.old i old]
    argument := fun j type type_ => by
      obtain ⟨operands, shown, values⟩ := accepts.argument j type type_
      have below : j < types.length := (List.getElem?_eq_some_iff.mp type_).1
      obtain ⟨v, value⟩ : ∃ v, (fill types.length s.values.size edge).args[j]? = some v :=
        ⟨_, List.getElem?_eq_getElem (Nat.lt_of_lt_of_eq below (length_fill _ short).symm)⟩
      have place : (List.range' b.values.size types.length)[j]? = some (b.values.size + j) := by
        rw [List.getElem?_range' below, Nat.one_mul]
      refine ⟨operands.push (s.representative v), ?_, ?_⟩
      · rw [hands.fed j _ v place value, shown]
        rfl
      · rw [last, List.map_append, reps, ← accepts.representative, ← values]
        simp [value]
    filler := fun edge' member j v value out => by
      rw [last] at member
      rcases List.mem_append.mp member with before | new
      · obtain ⟨type, type_, shown⟩ := accepts.filler edge' before j v value out
        have apart : v ∉ List.range' b.values.size types.length := fun member =>
          absurd (List.mem_range'_1.mp member).2 (Nat.not_lt.mpr out)
        exact ⟨type, type_, by rw [hands.others v (lt_of_look shown) apart, shown]⟩
      · obtain rfl := List.mem_singleton.mp new
        rw [fill, List.getElem?_append, List.length_range'] at value
        split at value
        · rename_i below
          rw [List.getElem?_range' below, Nat.one_mul] at value
          cases value
          have type_ := List.getElem?_eq_getElem (Nat.lt_of_lt_of_le below (Nat.sub_le _ _))
          exact ⟨_, type_, by rw [hands.filler j below, type_, Option.map_some]⟩
        · exact absurd (valid v (List.mem_of_getElem? value)) (Nat.not_lt.mpr out) }

theorem Accepts.handAll {more : List Predecessor} (accepts : b.Accepts c k types edges s)
    (short : ∀ edge ∈ more, edge.args.length ≤ types.length)
    (valid : ∀ edge ∈ more, ∀ v ∈ edge.args, v < b.values.size + types.length) :
    b.Accepts c k types (edges ++ more)
      (more.foldl (·.handed c types (List.range' b.values.size types.length)) s) := by
  induction more generalizing edges s with
  | nil => rwa [List.append_nil]
  | cons edge more ih =>
      have next := ih (accepts.hand (short edge List.mem_cons_self) (valid edge List.mem_cons_self))
        (fun edge' member => short edge' (List.mem_cons_of_mem _ member))
        fun edge' member => valid edge' (List.mem_cons_of_mem _ member)
      rwa [List.append_assoc] at next

theorem Accepts.typesOf (accepts : b.Accepts c k types edges s) :
    s.typesOf (List.range' b.values.size types.length) = types := by
  refine List.ext_getElem? fun j => ?_
  by_cases below : j < types.length
  · have type_ := List.getElem?_eq_getElem below
    obtain ⟨operands, shown, _⟩ := accepts.argument j _ type_
    have place : (List.range' b.values.size types.length)[j]? = some (b.values.size + j) := by
      rw [List.getElem?_range' below, Nat.one_mul]
    rw [getElem?_typesOf place shown, type_]
  · rw [List.getElem?_eq_none (by simpa using below), List.getElem?_eq_none (Nat.le_of_not_lt below)]

theorem Accepts.filled_lt (accepts : b.Accepts c k types edges s)
    (valid : ∀ v ∈ edge.args, v < b.values.size + types.length) :
    ∀ v ∈ (fill types.length s.values.size edge).args,
      (s.withValues (lacking types edge)).representative v <
        (s.withValues (lacking types edge)).values.size := by
  obtain ⟨coherent, _⟩ := coherent_withValues accepts.coherent (lacking types edge)
  intro v member
  refine coherent.apply_lt ?_
  rw [size_withValues, length_lacking]
  rcases List.mem_append.mp member with new | old
  · exact (List.mem_range'_1.mp new).2
  · exact Nat.lt_of_lt_of_le (Nat.lt_of_lt_of_le (valid v old)
      (accepts.size ▸ Nat.le_add_right _ _)) (Nat.le_add_right _ _)

theorem connect_raw (source : edge.block < b.blocks.size) (present : b.blocks[c]? = some k)
    (isOpen : k.isSealed = false) (undeclared : k.args = none) :
    Ends (connect edge.block c edge.args) b (fun _ t => t = b.reroute c (·.push edge))
      fun _ _ => False := by
  rw [connect, ends_bind, ends_checkBlock source, ends_bind, ends_blockAt present, ends_bind,
    ends_maintain]
  refine ⟨fun _ => ?_, fun absurd_ => absurd isOpen absurd_⟩
  rw [undeclared]
  exact rfl

theorem connects_raw (sources : ∀ edge ∈ edges, edge.block < b.blocks.size)
    (present : b.blocks[c]? = some k) (isOpen : k.isSealed = false) (undeclared : k.args = none) :
    Ends (edges.forM fun edge => connect edge.block c edge.args) b
      (fun _ t => t = b.reroute c (· ++ edges.toArray)) fun _ _ => False := by
  induction edges generalizing b k with
  | nil => exact (onBlock_self fun k _ => by simp).symm
  | cons edge edges ih =>
      change Ends (connect edge.block c edge.args >>= fun _ => edges.forM _) _ _ _
      rw [ends_bind]
      refine (connect_raw (sources edge List.mem_cons_self) present isOpen undeclared).mono ?_
        fun _ _ => False.elim
      rintro _ _ rfl
      have present' : (b.reroute c (·.push edge)).blocks[c]? =
          some { k with predecessors := k.predecessors.push edge } := by
        rw [reroute, block_onBlock, if_pos rfl, present, Option.map_some]
      refine (ih (fun edge' member => ?_) present' isOpen undeclared).imp ?_
      · rw [reroute, size_onBlock]
        exact sources edge' (List.mem_cons_of_mem _ member)
      · rintro _ _ rfl
        rw [reroute, reroute, onBlock_onBlock]
        exact onBlock_congr fun k _ => by simp

theorem Accepts.connect_ends (accepts : b.Accepts c k types edges s) (isOpen : k.isSealed = false)
    (source : edge.block < b.blocks.size)
    (valid : ∀ v ∈ edge.args, v < b.values.size + types.length) :
    Ends (connect edge.block c edge.args) s (fun _ t => s.Fillable types.length [edge] ∧
        t = s.handed c types (List.range' b.values.size types.length) edge)
      fun e _ => s.RefusesEdges types.length [edge] e := by
  rw [connect, ends_bind, ends_checkBlock (accepts.count ▸ source), ends_bind,
    ends_blockAt accepts.block, ends_bind, ends_maintain]
  refine ⟨fun _ => ?_, fun absurd_ => absurd isOpen absurd_⟩
  dsimp only
  rw [ends_bind, ends_get, ends_bind]
  change Ends (pad (s.typesOf (List.range' b.values.size types.length)) _) _ _ _
  rw [accepts.typesOf]
  refine (s.pad_exact types edge).imp ?_
  rintro _ _ ⟨fits, rfl, rfl⟩
  rw [ends_bind]
  refine (feedAll_ends _ _ (accepts.filled_lt valid)).mono ?_ fun _ _ => False.elim
  rintro _ _ rfl
  exact ⟨fits, rfl⟩

theorem Accepts.connects (accepts : b.Accepts c k types edges s) (isOpen : k.isSealed = false)
    {more : List Predecessor} (sources : ∀ edge ∈ more, edge.block < b.blocks.size)
    (valid : ∀ edge ∈ more, ∀ v ∈ edge.args, v < b.values.size + types.length) :
    Ends (more.forM fun edge => connect edge.block c edge.args) s (fun _ t =>
        s.Fillable types.length more ∧
        t = more.foldl (·.handed c types (List.range' b.values.size types.length)) s)
      fun e _ => s.RefusesEdges types.length more e := by
  induction more generalizing edges s with
  | nil => exact ⟨fillable_nil _ _, rfl⟩
  | cons edge more ih =>
      have size := s.size_handed c types (List.range' b.values.size types.length) edge
      change Ends (connect edge.block c edge.args >>= fun _ => more.forM _) _ _ _
      rw [ends_bind]
      refine (accepts.connect_ends isOpen (sources edge List.mem_cons_self)
        (valid edge List.mem_cons_self)).mono ?_ fun _ _ refuses => refuses.before more
      rintro _ _ ⟨fits, rfl⟩
      have short := fits.short edge List.mem_cons_self
      refine (ih (accepts.hand short (valid edge List.mem_cons_self))
        (fun edge' member => sources edge' (List.mem_cons_of_mem _ member))
        fun edge' member => valid edge' (List.mem_cons_of_mem _ member)).mono ?_
        fun _ _ refuses => refuses.later size
      rintro _ _ ⟨rest, rfl⟩
      exact ⟨(fillable_append size).mpr ⟨fits, rest⟩, rfl⟩

theorem modify_append_cons {α : Type} (front : Array α) (x : α) (back : List α) (f : α → α) :
    (front ++ (x :: back).toArray).modify front.size f = front.push (f x) ++ back.toArray := by
  refine Array.ext_getElem? fun i => ?_
  rw [Array.getElem?_modify]
  rcases Nat.lt_trichotomy i front.size with old | rfl | new
  · rw [if_neg (Nat.ne_of_gt old)]
    simp [Array.getElem?_append, old]
  · simp
  · obtain ⟨j, rfl⟩ := Nat.exists_eq_add_of_lt new
    have first : front.size + j + 1 - front.size = j + 1 := by omega
    have rest : front.size + j + 1 - (front.size + 1) = j := by omega
    rw [if_neg (Nat.ne_of_lt new), Array.getElem?_append_right (Nat.le_of_lt new),
      Array.getElem?_append_right (by rw [Array.size_push]; omega), Array.size_push, first, rest]
    simp

theorem Accepts.fill_first (accepts : b.Accepts c k types edges s) (more : List Predecessor) :
    ((((s.reroute c (· ++ (edge :: more).toArray)).withValues (lacking types edge)).reroute c
      (·.modify edges.length fun p =>
        { p with args := (fill types.length s.values.size edge).args })).fedAll
          (List.range' b.values.size types.length) (fill types.length s.values.size edge).args) =
      (s.handed c types (List.range' b.values.size types.length) edge).reroute c (· ++ more.toArray) := by
  obtain ⟨blocks, _⟩ := frame_withValues s (lacking types edge)
  obtain ⟨_, _, blocks', _⟩ := frame_fedAll
    (s.withValues (lacking types edge)) (List.range' b.values.size types.length)
    (fill types.length s.values.size edge).args
  rw [withValues_reroute, reroute_reroute, fedAll_reroute, handed, reroute_reroute]
  refine reroute_congr fun l present => ?_
  rw [blocks', blocks, accepts.block] at present
  cases present
  have size : (fillAll types.length (b.values.size + types.length) edges).toArray.size = edges.length := by
    simp
  rw [← size, modify_append_cons]
  rfl

/-- Recorded edges are filled up in their order, as if they came after the declaration. -/
theorem Accepts.adopts (accepts : b.Accepts c k types edges s)
    {more : List Predecessor}
    (valid : ∀ edge ∈ more, ∀ v ∈ edge.args, v < b.values.size + types.length) :
    Ends (adoptEdges c types (List.range' b.values.size types.length) edges.length more)
      (s.reroute c (· ++ more.toArray)) (fun _ t => s.Fillable types.length more ∧
        t = more.foldl (·.handed c types (List.range' b.values.size types.length)) s)
      fun e _ => s.RefusesEdges types.length more e := by
  induction more generalizing edges s with
  | nil => exact ⟨fillable_nil _ _, onBlock_self fun k _ => by simp⟩
  | cons edge more ih =>
      have size := s.size_handed c types (List.range' b.values.size types.length) edge
      rw [adoptEdges, ends_bind]
      refine ((s.reroute c (· ++ (edge :: more).toArray)).pad_exact types edge).mono ?_
        fun _ _ refuses => RefusesEdges.before (b := s) refuses more
      rintro _ _ ⟨fits, rfl, rfl⟩
      have short := fits.short edge List.mem_cons_self
      rw [ends_bind, ends_modifyBlock, ends_bind]
      refine (feedAll_ends _ _ ?_).mono ?_ fun _ _ => False.elim
      · rw [reroute, withValues_onBlock]
        exact accepts.filled_lt (valid edge List.mem_cons_self)
      · rintro _ t same
        obtain rfl : t = _ := same.trans (accepts.fill_first more)
        have next := ih (accepts.hand short (valid edge List.mem_cons_self))
          fun edge' member => valid edge' (List.mem_cons_of_mem _ member)
        rw [List.length_append] at next
        refine next.mono ?_ fun _ _ refuses => refuses.later size
        rintro _ _ ⟨rest, rfl⟩
        exact ⟨(fillable_append size).mpr ⟨⟨fits.short, fits.room⟩, rest⟩, rfl⟩

/-- The block takes arguments after some edges, and these are filled up. -/
theorem declareArguments_exact (coherent : b.substitution.Coherent b.values.size)
    (present : b.blocks[c]? = some k) (isOpen : k.isSealed = false) (undeclared : k.args = none)
    (bare : k.predecessors = #[])
    (valid : ∀ edge ∈ edges, ∀ v ∈ edge.args, v < b.values.size + types.length) :
    Ends (declareArguments c types) (b.reroute c (· ++ edges.toArray)) (fun _ t =>
        (b.Room types.length ∧ (b.declared c types).Fillable types.length edges) ∧
        t = edges.foldl (·.handed c types (List.range' b.values.size types.length)) (b.declared c types))
      fun e _ => e = .broken .arenaExhausted ∧ ¬ b.Room types.length ∨
        (b.declared c types).RefusesEdges types.length edges e := by
  have accepts := accepts_declared coherent present bare types
  have present' : (b.reroute c (· ++ edges.toArray)).blocks[c]? =
      some { k with predecessors := edges.toArray } := by
    rw [reroute, block_onBlock, if_pos rfl, present, Option.map_some, bare, Array.empty_append]
  rw [declareArguments, ends_bind, ends_blockAt present', ends_bind, ends_maintain]
  refine ⟨fun _ => ?_, fun absurd_ => absurd ⟨by rw [undeclared]; rfl, isOpen⟩ absurd_⟩
  rw [ends_bind, ends_modifyBlock, ends_bind]
  refine (addArguments_exact _ c 0 types).mono ?_ fun e _ exhausted => .inl exhausted
  rintro _ u ⟨room, same⟩
  -- the edges could as well be recorded after the declaration
  obtain rfl : u = (b.declared c types).reroute c (· ++ edges.toArray) := by
    simp only [same, declared, reroute, withValues_onBlock, onBlock_onBlock]
    rfl
  have present'' : ((b.declared c types).reroute c (· ++ edges.toArray)).blocks[c]? =
      some { k with
        args := some (List.range' b.values.size types.length).toArray
        predecessors := edges.toArray } := by
    rw [reroute, block_onBlock, if_pos rfl, accepts.block, Option.map_some]
    simp [fillAll]
  rw [ends_bind, ends_blockAt present'']
  refine (accepts.adopts valid).mono ?_ fun _ _ refuses => .inr refuses
  rintro _ _ ⟨fits, rfl⟩
  exact ⟨⟨room, fits⟩, rfl⟩

/-- Edges to a block that is given its arguments once there are so many of them. -/
def declareAfter (c : BlockId) (types : List ValueType) (edges : List Predecessor) (position : Nat) :
    Attempt Builder Unit := do
  (edges.take position).forM fun edge => connect edge.block c edge.args
  declareArguments c types
  (edges.drop position).forM fun edge => connect edge.block c edge.args

theorem declareAfter_exact (coherent : b.substitution.Coherent b.values.size)
    (present : b.blocks[c]? = some k) (isOpen : k.isSealed = false) (undeclared : k.args = none)
    (bare : k.predecessors = #[]) (sources : ∀ edge ∈ edges, edge.block < b.blocks.size)
    (valid : ∀ edge ∈ edges, ∀ v ∈ edge.args, v < b.values.size + types.length) (position : Nat) :
    Ends (declareAfter c types edges position) b (fun _ t =>
        (b.Room types.length ∧ (b.declared c types).Fillable types.length edges) ∧
        t = edges.foldl (·.handed c types (List.range' b.values.size types.length)) (b.declared c types))
      fun e _ => e = .broken .arenaExhausted ∧ ¬ b.Room types.length ∨
        (b.declared c types).RefusesEdges types.length edges e := by
  have both := List.take_append_drop position edges
  have early : ∀ edge ∈ edges.take position, edge ∈ edges := fun _ => List.mem_of_mem_take
  have late : ∀ edge ∈ edges.drop position, edge ∈ edges := fun _ => List.mem_of_mem_drop
  have accepts := accepts_declared coherent present bare types
  rw [declareAfter, ends_bind]
  refine (connects_raw (fun edge member => sources edge (early edge member)) present isOpen
    undeclared).mono ?_ fun _ _ => False.elim
  rintro _ _ rfl
  rw [ends_bind]
  refine (declareArguments_exact coherent present isOpen undeclared bare fun edge member =>
    valid edge (early edge member)).mono ?_ ?_
  · rintro _ _ ⟨⟨room, fits⟩, rfl⟩
    have accepts' := accepts.handAll fits.short fun edge member => valid edge (early edge member)
    have size : ((edges.take position).foldl (·.handed c types (List.range' b.values.size types.length))
        (b.declared c types)).values.size =
          (b.declared c types).values.size + missing types.length (edges.take position) := by
      rw [accepts'.size, accepts.size]
      rfl
    refine (accepts'.connects isOpen (fun edge member => sources edge (late edge member))
      fun edge member => valid edge (late edge member)).mono ?_ ?_
    · rintro _ _ ⟨rest, rfl⟩
      refine ⟨⟨room, ?_⟩, ?_⟩
      · rw [← both, fillable_append size]
        exact ⟨fits, rest⟩
      · rw [← List.foldl_append, both]
    · intro e _ refuses
      exact .inr (both ▸ refuses.later size)
  · rintro e _ (exhausted | refuses)
    · exact .inl exhausted
    · exact .inr (both ▸ refuses.before (edges.drop position))

theorem declareAfter_ends (coherent : b.substitution.Coherent b.values.size)
    (present : b.blocks[c]? = some k) (isOpen : k.isSealed = false) (undeclared : k.args = none)
    (bare : k.predecessors = #[]) (sources : ∀ edge ∈ edges, edge.block < b.blocks.size)
    (valid : ∀ edge ∈ edges, ∀ v ∈ edge.args, v < b.values.size + types.length) (position : Nat) :
    Ends (declareAfter c types edges position) b (fun _ t =>
        (∀ edge ∈ edges, edge.args.length ≤ types.length) ∧
        b.Room (types.length + missing types.length edges) ∧
        t = edges.foldl (·.handed c types (List.range' b.values.size types.length)) (b.declared c types))
      fun e _ => e = .broken .edgeTooLong ∧ (∃ edge ∈ edges, types.length < edge.args.length) ∨
        e = .broken .arenaExhausted ∧ ¬ b.Room (types.length + missing types.length edges) := by
  have room : b.Room (types.length + missing types.length edges) ↔ _ :=
    room_add (accepts_declared coherent present bare types).size
  refine (declareAfter_exact coherent present isOpen undeclared bare sources valid position).mono ?_ ?_
  · rintro _ t ⟨⟨first, fits⟩, same⟩
    exact ⟨fits.short, room.mpr ⟨first, fits.room⟩, same⟩
  · rintro e _ (⟨full, no⟩ | long | ⟨full, no⟩)
    · exact .inr ⟨full, fun enough => no (room.mp enough).1⟩
    · exact .inl long
    · exact .inr ⟨full, fun enough => no (room.mp enough).2⟩

/-- Declaring the arguments of a block commutes with its edges. Where all edges fit and there are ids
for all values, the declaration leaves the same before, between and after the edges. Otherwise it fails
at all positions, and an edge that carries too much is to blame unless ids are lacking. The edges may
also carry the arguments themselves, which have the next ids. -/
theorem arguments_commute (locals : Array ValueType) (paramCount : Nat) (requests : List Request)
    (reached : b = (ofLocals locals paramCount).endured requests)
    (present : b.blocks[c]? = some k) (isOpen : k.isSealed = false) (undeclared : k.args = none)
    (bare : k.predecessors = #[]) (sources : ∀ edge ∈ edges, edge.block < b.blocks.size)
    (valid : ∀ edge ∈ edges, ∀ v ∈ edge.args, v < b.values.size + types.length) :
    ((∃ edge ∈ edges, types.length < edge.args.length) → ∀ position, ∃ e t,
      declareAfter c types edges position b = .error e t ∧ (e = .broken .edgeTooLong ∨
        e = .broken .arenaExhausted ∧ ¬ b.Room (types.length + missing types.length edges))) ∧
    ((∀ edge ∈ edges, edge.args.length ≤ types.length) →
      (b.Room (types.length + missing types.length edges) → ∃ t, b.Accepts c k types edges t ∧
        ∀ position, declareAfter c types edges position b = .ok () t) ∧
      (¬ b.Room (types.length + missing types.length edges) → ∀ position, ∃ t,
        declareAfter c types edges position b = .error (.broken .arenaExhausted) t)) := by
  subst reached
  have coherent := ((edgesInside_ofLocals locals paramCount).endured requests).coherent
  have accepts := accepts_declared coherent present bare types
  have ends := declareAfter_ends coherent present isOpen undeclared bare sources valid
  refine ⟨fun ⟨edge, member, long⟩ position => ?_,
    fun short => ⟨fun enough => ?_, fun full position => ?_⟩⟩
  · cases outcome : declareAfter c types edges position _ with
    | ok _ t =>
        have short := ((ends position).of_ok outcome).1
        exact absurd (short edge member) (Nat.not_le.mpr long)
    | error e t => exact ⟨e, t, rfl, ((ends position).of_error outcome).imp_left And.left⟩
  · refine ⟨_, accepts.handAll short valid, fun position => ?_⟩
    cases outcome : declareAfter c types edges position _ with
    | ok _ t => rw [((ends position).of_ok outcome).2.2]
    | error e t =>
        rcases (ends position).of_error outcome with ⟨_, edge, member, long⟩ | ⟨_, full⟩
        · exact absurd (short edge member) (Nat.not_le.mpr long)
        · exact absurd enough full
  · cases outcome : declareAfter c types edges position _ with
    | ok _ t => exact absurd ((ends position).of_ok outcome).2.1 full
    | error e t =>
        rcases (ends position).of_error outcome with ⟨_, edge, member, long⟩ | ⟨rfl, _⟩
        · exact absurd (short edge member) (Nat.not_le.mpr long)
        · exact ⟨t, rfl⟩

/-- More arguments than there are ids cannot be declared, though no edge carries too much. -/
theorem arguments_exhausted :
    let b := (ofLocals #[] 0).endured [.addBlock .join]
    let types := List.replicate (arenaLimit + 1) ValueType.i32
    b.blocks[1]? = some (.fresh .join) ∧
      (¬ ∃ edge ∈ ([] : List Predecessor), types.length < edge.args.length) ∧
      ∀ position, ∃ t, declareAfter 1 types [] position b = .error (.broken .arenaExhausted) t := by
  intro b types
  have present : b.blocks[1]? = some (.fresh .join) := rfl
  have coherent := ((edgesInside_ofLocals #[] 0).endured [.addBlock .join]).coherent
  refine ⟨present, by simp, fun position => ?_⟩
  have ends : Ends (declareAfter 1 types [] position) b _ _ :=
    declareAfter_ends coherent present rfl rfl rfl (by simp) (by simp) position
  have full : ¬ b.Room (types.length + missing types.length []) := by
    rw [List.length_replicate, Room]
    omega
  cases outcome : declareAfter 1 types [] position b with
  | ok _ t => exact absurd (ends.of_ok outcome).2.1 full
  | error e t =>
      rcases ends.of_error outcome with ⟨_, edge, member, _⟩ | ⟨rfl, _⟩
      · cases member
      · exact ⟨t, rfl⟩

theorem arguments_commute_short :
    ∃ t, ((ofLocals #[] 0).endured [.addBlock .body, .addBlock .join, .constant 0 .i32 7]).Accepts 2
        (.fresh .join) [.i32] [⟨0, [0]⟩, ⟨1, []⟩] t ∧
      ∀ position, declareAfter 2 [.i32] [⟨0, [0]⟩, ⟨1, []⟩] position
        ((ofLocals #[] 0).endured [.addBlock .body, .addBlock .join, .constant 0 .i32 7]) = .ok () t := by
  have sources : ∀ edge ∈ [Predecessor.mk 0 [0], ⟨1, []⟩], edge.block <
      ((ofLocals #[] 0).endured [.addBlock .body, .addBlock .join, .constant 0 .i32 7]).blocks.size := by
    decide
  have valid : ∀ edge ∈ [Predecessor.mk 0 [0], ⟨1, []⟩], ∀ v ∈ edge.args, v <
      ((ofLocals #[] 0).endured [.addBlock .body, .addBlock .join, .constant 0 .i32 7]).values.size +
        [ValueType.i32].length := by
    decide
  have short : ∀ edge ∈ [Predecessor.mk 0 [0], ⟨1, []⟩],
      edge.args.length ≤ [ValueType.i32].length := by
    decide
  exact ((arguments_commute #[] 0 _ rfl rfl rfl rfl rfl sources valid).2 short).1 (.inr (by decide))

end WasmFunclets.Ssa.Builder
