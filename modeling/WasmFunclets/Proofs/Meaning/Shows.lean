import WasmFunclets.Proofs.Meaning.Unseen
import WasmFunclets.Proofs.Soundness
import WasmFunclets.Proofs.Ssa.Appended

/-! The machine and the function that is built side by side: while the validation carries out an
instruction, the operands at hand are the values that the machine has on its stack, and the function has
carried out what its block has got so far. -/

namespace WasmFunclets

namespace Validation

open Attempt

variable {α : Type} {s t : State} {a : α} {sources : BlockId → Prop}

theorem Requests.lasts {allowed : BlockId → List Ssa.Builder.Request → Prop} {m : Step α}
    (requests : Requests allowed m s) (ok : m s = .ok a t) (aliased : s.builder.Aliased) :
    s.builder.Lasts t.builder := by
  obtain ⟨_, performs, _⟩ := requests.of_ok ok
  exact performs.lasts aliased

theorem Requests.bodyOf {m : Step α} (requests : Requests (Each (LinksFrom sources)) m s)
    (ok : m s = .ok a t) (c : BlockId) : t.builder.bodyOf c = s.builder.bodyOf c := by
  obtain ⟨_, performs, links⟩ := requests.of_ok ok
  refine performs.bodyOf fun request member into => ?_
  rw [(links request member).1] at into
  cases into

end Validation

namespace Machine

open Validation Attempt
open Ssa (Forest Point)

variable {V : Type} {context : Context} {bytes : List UInt8} {code : List Located} {states : Nat → State}
variable {f : Forest} {b : Ssa.Builder} {k n m : Nat} {s t u : State} {c d e : Config V} {x y : Point V}
variable {types : List ValueType} {ids : List ValueId} {v : ValueId}

/-- A value is what the machine has, and known under a name that is older than a certain one. -/
structure Bears (b : Ssa.Builder) (f : Forest) (n : ValueId) (x : Point V) (a : Typed V) (v : ValueId) :
    Prop where
  read : x.read b v = some a.datum
  older : b.Older f n x.block v

def Matches (b : Ssa.Builder) (f : Forest) (n : ValueId) (x : Point V) (a : Typed V) (o : Operand) : Prop :=
  ∃ v, o.value = some v ∧ Bears b f n x a v

theorem Bears.mono {a : Typed V} (bears : Bears b f m x a v) (le : m ≤ n) : Bears b f n x a v :=
  ⟨bears.read, bears.older.mono le⟩

theorem Matches.mono {a : Typed V} {o : Operand} (same : Matches b f m x a o) (le : m ≤ n) :
    Matches b f n x a o := by
  obtain ⟨v, value, bears⟩ := same
  exact ⟨v, value, bears.mono le⟩

theorem reads_of_bears {args : List (Typed V)} (bears : List.Forall₂ (Bears b f n x) args ids) :
    List.Forall₂ (fun a v => x.read b v = some a.datum) args ids := bears.imp fun _ _ bears => bears.read

theorem reads_of_matches {front : List (Typed V)} {operands : List Operand}
    (same : List.Forall₂ (Matches b f n x) front operands) :
    List.Forall₂ (fun a o => ∃ v, o.value = some v ∧ x.read b v = some a.datum) front operands :=
  same.imp fun _ _ ⟨v, value, bears⟩ => ⟨v, value, bears.read⟩

theorem supply_bears {args : List (Typed V)} {operands : List Operand} {t u : Ssa.Builder}
    (each : List.Forall₂ (Matches b f n x) args operands) (ok : supply operands t = .ok ids u) :
    u = t ∧ List.Forall₂ (Bears b f n x) args ids := by
  induction each generalizing ids with
  | nil =>
      obtain ⟨rfl, rfl⟩ := pure_ok.mp ok
      exact ⟨rfl, .nil⟩
  | @cons a o args operands first _ ih =>
      obtain ⟨v, value, bears⟩ := first
      simp only [supply_cons, supplyOne, value, bind_ok, pure_ok] at ok
      obtain ⟨_, _, ⟨rfl, rfl⟩, rest, _, supplied, rfl, rfl⟩ := ok
      obtain ⟨rfl, others⟩ := ih supplied
      exact ⟨rfl, .cons bears others⟩

theorem operandsOf_eq (same : ids.length = types.length) :
    operandsOf types ids = List.zipWith Operand.mk types (ids.map some) := by
  simp [operandsOf, TypedStack.withValues, same]

theorem forall₂_operandsOf {R : Typed V → ValueId → Prop} {args : List (Typed V)}
    (same : ids.length = types.length) :
    List.Forall₂ (fun a o => ∃ v, o.value = some v ∧ R a v) args (operandsOf types ids) ↔
      List.Forall₂ R args ids := by
  rw [operandsOf_eq same]
  induction ids generalizing types args with
  | nil =>
      obtain rfl := List.eq_nil_of_length_eq_zero same.symm
      simp
  | cons v ids ih =>
      obtain ⟨type, types, rfl⟩ := List.exists_cons_of_length_eq_add_one same.symm
      have rest (args : List (Typed V)) : List.Forall₂ _ args _ ↔ List.Forall₂ R args ids := ih (Nat.succ.inj same)
      simp only [List.map_cons, List.zipWith_cons_cons, List.forall₂_cons_right_iff, rest]
      refine exists_congr fun a => exists_congr fun others => and_congr_left fun _ => ?_
      exact ⟨fun ⟨_, same, known⟩ => Option.some.inj same ▸ known, fun known => ⟨v, rfl, known⟩⟩

/-- While an instruction is carried out, before the validation goes on to another block, what the
machine has on its stack and in its locals is what the values stand for that the validation knows. -/
structure Shows (code : List Located) (states : Nat → State) (f : Forest) (k : Nat) (s : State)
    (d : Config V) (x : Point V) : Prop where
  pc : d.pc = k
  within : k < code.length
  agrees : Agrees d s.stack
  rests : (states k).stack.Rests s.stack
  lasts : (states k).builder.Lasts s.builder
  onward : s.builder.Lasts (finished code states)
  block : x.block = (states k).current
  current : s.current = (states k).current
  reachable : (finished code states).Reachable x.block
  position : x.position = (s.builder.bodyOf x.block).size
  history : x.history = d.history
  stack : List.Forall₂ (Matches (finished code states) f s.builder.values.size x) d.stack
    s.stack.operands.toList
  written : ∀ (slot : Nat) (a : Typed V), d.locals[slot]? = some a →
    Wrote code states k x.block slot → ∃ v, (states k).builder.definition x.block slot = some v ∧
      x.read (finished code states) v = some a.datum
  fresh : ∀ (slot : Nat) (a : Typed V), d.locals[slot]? = some a → ¬ Wrote code states k x.block slot →
    ∀ v, (finished code states).StartsWith x.block slot v → x.read (finished code states) v = some a.datum

/-- What the machine is at a point of the code, the function is at a point of its own. -/
def Meets (code : List Located) (states : Nat → State) (f : Forest) (c : Config V) (x : Point V) : Prop :=
  Shows code states f c.pc (states c.pc) c x

namespace Shows

variable (shows : Shows code states f k s d x)
include shows

theorem restack {k' : TypedStack} (agrees : Agrees e k') (rests : s.stack.Rests k')
    (stack : List.Forall₂ (Matches (finished code states) f s.builder.values.size x) e.stack
      k'.operands.toList)
    (pc : e.pc = d.pc) (locals : e.locals = d.locals) (history : e.history = d.history) :
    Shows code states f k { s with stack := k' } e x where
  pc := pc.trans shows.pc
  within := shows.within
  agrees := agrees
  rests := shows.rests.trans rests
  lasts := shows.lasts
  onward := shows.onward
  block := shows.block
  current := shows.current
  reachable := shows.reachable
  position := shows.position
  history := shows.history.trans history.symm
  stack := stack
  written := locals ▸ shows.written
  fresh := locals ▸ shows.fresh

theorem take (ok : takeValues types s = .ok ids u) :
    ∃ args, d.take types = .ok (args, d.without types.length) ∧
      u = { s with stack := s.stack.without types } ∧
      Shows code states f k u (d.without types.length) x ∧
      List.Forall₂ (Bears (finished code states) f s.builder.values.size x) args ids ∧
      ids.length = types.length := by
  obtain ⟨accepted, b', supplied, rfl⟩ := takeValues_ok.mp ok
  obtain ⟨args, taking, typed, split, rest⟩ := shows.agrees.take accepted
  have above := shows.agrees.above
  have enough := (shows.agrees.solid.accepts accepted).1
  have all : s.stack.reach types.length = types.length := Nat.min_eq_left enough
  have whole : s.stack.operands.toList =
      (s.stack.without types).operands.toList ++ s.stack.taken types := by
    rw [shows.agrees.solid.taken accepted, TypedStack.toList_without, TypedStack.height_without, all,
      List.take_append_drop]
  have stack := shows.stack
  rw [split, whole] at stack
  have low := List.forall₂_take_append _ _ _ stack
  have high := List.forall₂_drop_append _ _ _ stack
  have length : (s.stack.without types).operands.toList.length =
      (d.without types.length).stack.length := rest.length.symm
  rw [length, List.take_left] at low
  rw [length, List.drop_left] at high
  obtain ⟨rfl, bears⟩ := supply_bears high supplied
  refine ⟨args, taking, rfl, shows.restack rest (TypedStack.rests_without types above) low rfl rfl rfl,
    bears, ?_⟩
  rw [← bears.length_eq, ← typed, List.length_map]

theorem takeOne {type : ValueType} (ok : takeValue type s = .ok v u) :
    ∃ a, d.take [type] = .ok ([a], d.without 1) ∧ u = { s with stack := s.stack.without [type] } ∧
      Shows code states f k u (d.without 1) x ∧
      Bears (finished code states) f s.builder.values.size x a v := by
  obtain ⟨values, taken, rfl⟩ := takeValue_ok.mp ok
  obtain ⟨args, taking, same, later, bears, length⟩ := shows.take taken
  obtain ⟨v, rfl⟩ := List.length_eq_one_iff.mp length
  cases bears with
  | cons first rest =>
      cases rest
      exact ⟨_, taking, same, later, first⟩

theorem fetched (cursor : Cursor) : Shows code states f k (s.fetched cursor) d x :=
  { shows with }

theorem extend {args : List (Typed V)} (known : ∀ a ∈ args, a.type ≠ .any)
    (bears : List.Forall₂ (Bears (finished code states) f s.builder.values.size x) args ids) :
    Shows code states f k { s with stack := s.stack.extend (operandsOf (args.map Typed.type) ids) }
      { d with stack := d.stack ++ args } x := by
  have length : ids.length = (args.map Typed.type).length := by rw [List.length_map, bears.length_eq]
  refine shows.restack ⟨?_, ?_, shows.agrees.finite, shows.agrees.floor, ?_⟩
    (TypedStack.rests_extend _ shows.agrees.above) ?_ rfl rfl rfl
  · rw [TypedStack.toList_extend, List.map_append, List.map_append, shows.agrees.types, operandsOf,
      TypedStack.types_withValues]
  · intro a member
    rcases List.mem_append.mp member with old | new
    · exact shows.agrees.known a old
    · exact known a new
  · exact (TypedStack.rests_extend _ shows.agrees.above).above
  · rw [TypedStack.toList_extend]
    exact List.rel_append shows.stack ((forall₂_operandsOf length).mpr bears)

theorem put {type : ValueType} {datum : V} (known : type ≠ .any)
    (bears : Bears (finished code states) f s.builder.values.size x ⟨type, datum⟩ v)
    (ok : putValue type v s = .ok () u) : Shows code states f k u (d.push type datum) x := by
  obtain rfl := putValue_ok.mp ok
  have typed : ∀ a ∈ [(⟨type, datum⟩ : Typed V)], a.type ≠ .any := by simpa using known
  exact shows.extend typed (.cons bears .nil)

/-- Values that are put back where they were taken from. -/
theorem share (ok : shareValues types s = .ok ids u) :
    ∃ args, d.take types = .ok (args, d.without types.length) ∧
      u = { s with stack := (s.stack.without types).extend (operandsOf types ids) } ∧
      Shows code states f k u d x ∧
      List.Forall₂ (Bears (finished code states) f s.builder.values.size x) args ids ∧
      ids.length = types.length := by
  rw [shareValues, bind_ok] at ok
  obtain ⟨values, w, taken, ok⟩ := ok
  have accepted := (takeValues_ok.mp taken).1
  obtain ⟨args, taking, rfl, later, bears, length⟩ := shows.take taken
  obtain ⟨_, _, put, done⟩ := bind_ok.mp ok
  obtain rfl := putValues_ok.mp put
  obtain ⟨rfl, rfl⟩ := pure_ok.mp done
  obtain ⟨args', taking', typed, split, _⟩ := shows.agrees.take accepted
  rw [taking] at taking'
  cases taking'
  refine ⟨args, taking, rfl, ?_, bears, length⟩
  have known : ∀ a ∈ args, a.type ≠ .any := fun a member => shows.agrees.known a (by
    rw [split]
    exact List.mem_append_right _ member)
  have back := later.extend known bears
  rw [typed] at back
  have same : ({ d.without types.length with stack := (d.without types.length).stack ++ args } : Config V) = d := by
    rw [← split]
    rfl
  rwa [same] at back

theorem append (story : Story context bytes code states f) {type : ValueType} {content : Ssa.Content}
    {action : Action} {operands : List ValueId} {data : List V} {b' : Ssa.Builder}
    (meaning : List (Event V) → V)
    (ok : Ssa.Builder.append s.current type content s.builder = .ok v b')
    (inside : s.current < s.builder.blocks.size) (step : s.builder.Lasts b')
    (onward : b'.Aliased → b'.Lasts (finished code states))
    (acts : Ssa.Value.action? ⟨type, some s.current, content⟩ = some (action, operands))
    (values : List.Forall₂ (fun o datum => x.read (finished code states) o = some datum) operands data) :
    ∃ y, x.perform (finished code states) meaning = some y ∧
      Shows code states f k { s with builder := b' } { d with history := ⟨action, data⟩ :: d.history } y ∧
      Bears (finished code states) f b'.values.size y ⟨type, meaning (⟨action, data⟩ :: d.history)⟩ v ∧
      ∀ a u, Bears (finished code states) f s.builder.values.size x a u →
        Bears (finished code states) f b'.values.size y a u := by
  have later := onward step.aliased
  obtain ⟨_, sound, rooted, _⟩ := story.whole
  have here : s.current = x.block := shows.current.trans shows.block.symm
  rw [here] at ok inside acts
  obtain ⟨_, rfl, size⟩ := Ssa.Builder.append_ok.mp ok
  have plain := Ssa.Value.plain_of_action acts
  have present := later.value (size ▸ Ssa.Builder.value_appended _) plain
  obtain ⟨shown, home, listed⟩ : (finished code states).look s.builder.values.size =
      some ⟨type, some x.block, content⟩ ∧ True ∧ content.isInstruction = true := by
    rw [Ssa.Builder.look, present]
    cases content <;> cases acts <;> exact ⟨rfl, trivial, rfl⟩
  have self := later.aliased.representative_plain present plain
  have more : s.builder.values.size < b'.values.size := by
    rw [size]
    simp [Ssa.Builder.appended]
  have still {w : ValueId} (older : (finished code states).Older f s.builder.values.size x.block w) :
      (finished code states).representative w ≠ s.builder.values.size :=
    sound.older_other rooted shows.reachable shown rfl listed older
  have bears (a : Typed V) (w : ValueId) (bears : Bears (finished code states) f s.builder.values.size x a w) :
      Bears (finished code states) f b'.values.size
        (x.stepped meaning s.builder.values.size ⟨action, data⟩) a w :=
    ⟨(Point.read_stepped_other (still bears.older)).trans bears.read,
      bears.older.mono (Nat.le_of_lt more)⟩
  refine ⟨x.stepped meaning s.builder.values.size ⟨action, data⟩,
    Point.perform_appended inside ok later shows.position acts values, ?_, ?_, bears⟩
  · refine ⟨shows.pc, shows.within, shows.agrees.history _, shows.rests, shows.lasts.trans step, later, shows.block,
      shows.current, shows.reachable, ?_, ?_, ?_, fun slot a place wrote => ?_,
      fun slot a place unwritten w starts => ?_⟩
    · exact Point.position_appended inside ok shows.position
    · exact congrArg _ shows.history
    · refine shows.stack.imp ?_
      rintro a o ⟨w, value, old⟩
      exact ⟨w, value, bears a w old⟩
    · obtain ⟨w, known, read⟩ := shows.written slot a place wrote
      refine ⟨w, known, (Point.read_stepped_other (still ?_)).trans read⟩
      exact (story.older_definition (Nat.le_of_lt shows.within) known).mono shows.lasts.size
    · refine (Point.read_stepped_other ?_).trans (shows.fresh slot a place unwritten w starts)
      exact sound.startsWith_other rooted shows.reachable shown rfl listed starts
  · refine ⟨(Point.read_stepped_self self).trans (by rw [shows.history]), _, more, rfl, ?_⟩
    exact .inr ⟨x.block, .refl _, .inl ⟨_, shown, rfl⟩⟩

theorem emit (story : Story context bytes code states f) {opcode : UInt8} {type : ValueType}
    {immediate : UInt64} {args : List (Typed V)} (meaning : List (Event V) → V)
    (bears : List.Forall₂ (Bears (finished code states) f n x) args ids)
    (ok : Validation.emit opcode type ids immediate s = .ok v t)
    (onward : t.builder.Aliased → t.builder.Lasts (finished code states)) :
    let event : Event V := ⟨.operation opcode immediate, args.map Typed.datum⟩
    ∃ y, x.perform (finished code states) meaning = some y ∧
      Shows code states f k t { d with history := event :: d.history } y ∧
      Bears (finished code states) f t.builder.values.size y ⟨type, meaning (event :: d.history)⟩ v ∧
      ∀ a u, Bears (finished code states) f s.builder.values.size x a u →
        Bears (finished code states) f t.builder.values.size y a u := by
  have step := ((asks_emit opcode type ids immediate).requests s).lasts ok shows.lasts.aliased
  obtain ⟨b', emitted, rfl⟩ := emit_ok.mp ok
  obtain ⟨inside, added⟩ := Ssa.Builder.emit_appends emitted
  refine shows.append story meaning added inside step onward rfl ?_
  rw [List.forall₂_map_left_iff, List.forall₂_map_right_iff]
  refine (bears.imp ?_).flip
  intro a v bears
  change x.env _ = _
  rw [shows.onward.representative]
  exact bears.read

theorem statement (story : Story context bytes code states f) {opcode : UInt8} {immediate : Nat}
    {args : List (Typed V)} (p : Program V)
    (bears : List.Forall₂ (Bears (finished code states) f n x) args ids)
    (ok : emitStatement opcode ids immediate s = .ok () t)
    (onward : t.builder.Aliased → t.builder.Lasts (finished code states)) :
    ∃ y, x.perform (finished code states) p.meaning = some y ∧
      Shows code states f k t (p.state d opcode (args.map Typed.datum) immediate) y ∧
      ∀ a u, Bears (finished code states) f s.builder.values.size x a u →
        Bears (finished code states) f t.builder.values.size y a u := by
  obtain ⟨v, b', emitted, rfl⟩ := emitStatement_ok.mp ok
  obtain ⟨y, performs, next, _, kept⟩ := shows.emit story p.meaning bears (emit_ok.mpr ⟨b', emitted, rfl⟩) onward
  exact ⟨y, performs, next, kept⟩

theorem constant (story : Story context bytes code states f) {type : ValueType} {bits : UInt64}
    (meaning : List (Event V) → V) {b' : Ssa.Builder}
    (ok : Ssa.Builder.constant s.current type bits s.builder = .ok v b')
    (onward : b'.Aliased → b'.Lasts (finished code states)) :
    let event : Event V := ⟨.constant type bits, []⟩
    ∃ y, x.perform (finished code states) meaning = some y ∧
      Shows code states f k { s with builder := b' } { d with history := event :: d.history } y ∧
      Bears (finished code states) f b'.values.size y ⟨type, meaning (event :: d.history)⟩ v := by
  obtain ⟨inside, added⟩ := Ssa.Builder.constant_appends ok
  have step : s.builder.Lasts b' := Ssa.Builder.Request.lasts
    (.constant s.current type bits) shows.lasts.aliased (bind_ok.mpr ⟨v, b', ok, rfl⟩)
  obtain ⟨y, performs, next, bears, _⟩ := shows.append story meaning added inside step onward rfl .nil
  exact ⟨y, performs, next, bears⟩

theorem project (story : Story context bytes code states f) {type : ValueType} {index : Nat}
    {tuple : ValueId} {a : Typed V} (meaning : List (Event V) → V) {b' : Ssa.Builder}
    (bears : Bears (finished code states) f n x a tuple)
    (ok : Ssa.Builder.project s.current tuple index type s.builder = .ok v b')
    (onward : b'.Aliased → b'.Lasts (finished code states)) :
    let event : Event V := ⟨.project index, [a.datum]⟩
    ∃ y, x.perform (finished code states) meaning = some y ∧
      Shows code states f k { s with builder := b' } { d with history := event :: d.history } y ∧
      Bears (finished code states) f b'.values.size y ⟨type, meaning (event :: d.history)⟩ v ∧
      ∀ a u, Bears (finished code states) f s.builder.values.size x a u →
        Bears (finished code states) f b'.values.size y a u := by
  obtain ⟨inside, added⟩ := Ssa.Builder.project_appends ok
  have step : s.builder.Lasts b' := Ssa.Builder.Request.lasts
    (.project s.current tuple index type) shows.lasts.aliased (bind_ok.mpr ⟨v, b', ok, rfl⟩)
  refine shows.append story meaning added inside step onward rfl (.cons ?_ .nil)
  change x.env _ = _
  rw [shows.onward.representative]
  exact bears.read

theorem rebuild {b' : Ssa.Builder} (step : s.builder.Lasts b') (later : b'.Lasts (finished code states))
    (bodies : b'.bodyOf x.block = s.builder.bodyOf x.block) :
    Shows code states f k { s with builder := b' } d x where
  pc := shows.pc
  within := shows.within
  agrees := shows.agrees
  rests := shows.rests
  lasts := shows.lasts.trans step
  onward := later
  block := shows.block
  current := shows.current
  reachable := shows.reachable
  position := shows.position.trans (congrArg Array.size bodies.symm)
  history := shows.history
  stack := shows.stack.imp fun _ _ same => same.mono step.size
  written := shows.written
  fresh := shows.fresh

theorem shrink {o : Operand} {k' : TypedStack}
    (split : s.stack.operands.toList = k'.operands.toList ++ [o]) (agrees : Agrees (d.without 1) k')
    (rests : s.stack.Rests k') :
    ∃ a, d.stack = (d.without 1).stack ++ [a] ∧
      Matches (finished code states) f s.builder.values.size x a o ∧
      Shows code states f k { s with stack := k' } (d.without 1) x := by
  have stack := shows.stack
  rw [split] at stack
  have low := List.forall₂_take_append _ _ _ stack
  have high := List.forall₂_drop_append _ _ _ stack
  have whole := List.take_append_drop (d.stack.length - 1) d.stack
  change (d.without 1).stack ++ _ = _ at whole
  have length : k'.operands.toList.length = (d.without 1).stack.length := agrees.length.symm
  rw [length, ← whole, List.take_left] at low
  rw [length, ← whole, List.drop_left] at high
  generalize d.stack.drop (d.stack.length - 1) = rest at high whole
  cases high with
  | @cons a _ _ _ same others =>
      cases others
      exact ⟨a, whole.symm, same, shows.restack agrees rests low rfl rfl rfl⟩

theorem pop {o : Operand} (ok : onStack TypedStack.pop s = .ok o t) :
    ∃ a, d.stack = (d.without 1).stack ++ [a] ∧
      Matches (finished code states) f s.builder.values.size x a o ∧
      t.builder = s.builder ∧ Shows code states f k t (d.without 1) x := by
  obtain ⟨k', popped, rfl⟩ := onStack_ok.mp ok
  rcases TypedStack.pop_cases popped with ⟨polymorphic, _⟩ | ⟨some_, split, rfl⟩
  · cases shows.agrees.finite.symm.trans polymorphic
  · obtain ⟨a, whole, same, later⟩ := shows.shrink split (shows.agrees.drop some_).2
      (TypedStack.rests_pop shows.agrees.above some_)
    exact ⟨a, whole, same, rfl, later⟩

theorem popType {type : ValueType} {o : Operand} (ok : onStack (TypedStack.popType type) s = .ok o t) :
    ∃ a, d.stack = (d.without 1).stack ++ [a] ∧
      Matches (finished code states) f s.builder.values.size x a o ∧
      t.builder = s.builder ∧ Shows code states f k t (d.without 1) x := by
  obtain ⟨k', popped, rfl⟩ := onStack_ok.mp ok
  rcases (TypedStack.popType_cases popped).2 with
    ⟨polymorphic, _⟩ | ⟨some_, below, split, value, _, rfl⟩
  · cases shows.agrees.finite.symm.trans polymorphic
  · obtain ⟨a, whole, ⟨v, known, bears⟩, later⟩ := shows.shrink split (shows.agrees.drop some_).2
      (TypedStack.rests_pop shows.agrees.above some_)
    exact ⟨a, whole, ⟨v, value ▸ known, bears⟩, rfl, later⟩

end Shows

theorem Config.without_without (c : Config V) (m n : Nat) : (c.without m).without n = c.without (m + n) := by
  simp only [Config.without, List.length_take, List.take_take]
  congr 2
  omega

theorem take_ok {args : List (Typed V)} (taking : c.take types = .ok (args, d)) :
    d = c.without types.length ∧ c.stack = d.stack ++ args ∧ args.map Typed.type = types ∧
      c.floor ≤ d.stack.length := by
  unfold Config.take at taking
  dsimp only at taking
  split at taking
  · cases taking
  rename_i enough
  split at taking
  · rename_i typed
    cases taking
    refine ⟨rfl, (List.take_append_drop _ _).symm, typed, ?_⟩
    rw [List.length_take]
    omega
  · cases taking

theorem wrote_succ (within : k < code.length) {c : BlockId} {slot : Nat} :
    Wrote code states (k + 1) c slot ↔
      Wrote code states k c slot ∨ c = (states k).current ∧ code[k].instruction.Writes slot := by
  refine ⟨?_, .step within⟩
  rintro ⟨j, before, line, here, at_, writes⟩
  rcases Nat.lt_succ_iff_lt_or_eq.mp before with earlier | rfl
  · exact .inl ⟨j, earlier, line, here, at_, writes⟩
  · cases (List.getElem?_eq_getElem within).symm.trans here
    exact .inr ⟨at_.symm, writes⟩

/-- An instruction that stays in its block and writes no local leads to the next one. -/
theorem Shows.goOn (shows : Shows code states f k s d x) (story : Story context bytes code states f)
    (keeps : KeepsLocals code k) (more : k + 1 < code.length)
    (builder : (states (k + 1)).builder = s.builder) (current : (states (k + 1)).current = s.current)
    (pc : e.pc = k + 1) (locals : e.locals = d.locals) (history : e.history = d.history)
    (stack : List.Forall₂ (Matches (finished code states) f s.builder.values.size x) e.stack
      (states (k + 1)).stack.operands.toList) (agrees : Agrees e (states (k + 1)).stack) :
    Meets code states f e x := by
  have same {slot : Nat} : Wrote code states (k + 1) x.block slot ↔ Wrote code states k x.block slot := by
    rw [wrote_succ shows.within]
    exact or_iff_left fun both => keeps _ (List.getElem?_eq_getElem shows.within) slot both.2
  have onward : (states (k + 1)).builder.Lasts (finished code states) := builder ▸ shows.onward
  rw [Meets, pc]
  exact {
    pc := pc
    within := more
    agrees := agrees
    rests := .refl agrees.above
    lasts := .refl (builder ▸ shows.lasts.aliased)
    onward := onward
    block := shows.block.trans (shows.current.symm.trans current.symm)
    current := rfl
    reachable := shows.reachable
    position := builder ▸ shows.position
    history := shows.history.trans history.symm
    stack := builder ▸ stack
    written := fun slot a place wrote => by
      obtain ⟨v, known, read⟩ := shows.written slot a (locals ▸ place) (same.mp wrote)
      obtain ⟨w, found, alike⟩ := (story.grows k shows.within keeps).knows known
      refine ⟨w, found, ?_⟩
      rw [← read, Point.read, Point.read, ← onward.representative, alike, onward.representative]
    fresh := fun slot a place unwritten =>
      shows.fresh slot a (locals ▸ place) fun wrote => unwritten (same.mpr wrote) }

theorem Shows.next (shows : Shows code states f k (states (k + 1)) d x)
    (story : Story context bytes code states f)
    (keeps : KeepsLocals code k) (more : k + 1 < code.length)
    (agrees : Agrees d.next (states (k + 1)).stack) : Meets code states f d.next x :=
  shows.goOn story keeps more rfl rfl (congrArg (· + 1) shows.pc) rfl rfl shows.stack agrees

end Machine

end WasmFunclets
