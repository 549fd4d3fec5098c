import WasmFunclets.Proofs.Meaning.Shows
import WasmFunclets.Proofs.Ssa.Rereads

/-! The instructions that stay in their block: what the machine computes, the block computes. -/

namespace WasmFunclets.Machine

open Validation Attempt
open Ssa (Forest Point)

variable {V : Type} {context : Context} {bytes : List UInt8} {code : List Located} {states : Nat → State}
variable {f : Forest} {k n : Nat} {s t u : State} {c d e : Config V} {x y : Point V} {p : Program V}
variable {setting : Setting} {ids : List ValueId} {v : ValueId}

/-- The machine goes on to the next instruction, and the function carries out what the block has got. -/
def CarriesOut (p : Program V) (code : List Located) (states : Nat → State) (f : Forest) (k : Nat)
    (x : Point V) (result : Except Flaw (Outcome V)) : Prop :=
  ∀ outcome, result = .ok outcome → ∃ d y, outcome = .running d.next ∧
    x.Performs (finished code states) p.meaning y ∧ Shows code states f k (states (k + 1)) d y

theorem carriesOut_ok (performs : x.Performs (finished code states) p.meaning y)
    (shows : Shows code states f k (states (k + 1)) d y) :
    CarriesOut p code states f k x (.ok (.running d.next)) := by
  rintro _ ⟨⟩
  exact ⟨d, y, rfl, performs, shows⟩

theorem carriesOut_error {flaw : Flaw} : CarriesOut p code states f k x (.error flaw) := by
  rintro _ ⟨⟩

theorem putValue_builder {type : ValueType} (ok : putValue type v s = .ok () t) : t.builder = s.builder := by
  obtain rfl := putValue_ok.mp ok
  rfl

variable (story : Story context bytes code states f)
include story

theorem Shows.lasts_last (shows : Shows code states f k s d x)
    (same : (states (k + 1)).builder = t.builder) (_ : t.builder.Aliased) :
    t.builder.Lasts (finished code states) := same ▸ story.lasts shows.within (Nat.le_refl _)

theorem Shows.lasts_part (shows : Shows code states f k s d x)
    {allowed : BlockId → List Ssa.Builder.Request → Prop} {m : Step Unit}
    (requests : Requests allowed m t) (ok : m t = .ok () (states (k + 1))) (aliased : t.builder.Aliased) :
    t.builder.Lasts (finished code states) :=
  (requests.lasts ok aliased).trans (story.lasts shows.within (Nat.le_refl _))

theorem operation_carriesOut (shows : Shows code states f k s d x) {opcode : UInt8}
    {params : List ValueType} {result : ValueType} {immediate : UInt64} (known : result ≠ .any)
    (ok : operation opcode params result immediate s = .ok () (states (k + 1))) :
    CarriesOut p code states f k x (p.operation opcode params result immediate d) := by
  rw [operation, bind_ok] at ok
  obtain ⟨operands, u, taken, ok⟩ := ok
  obtain ⟨value, w, emitted, ok⟩ := bind_ok.mp ok
  obtain ⟨args, taking, _, inner, bears, _⟩ := shows.take taken
  have same : (states (k + 1)).builder = w.builder := by
    split at ok
    · exact congrArg State.builder (pure_ok.mp ok).2.symm
    · exact putValue_builder ok
  obtain ⟨y, performs, next, made, _⟩ :=
    inner.emit story p.meaning bears emitted (shows.lasts_last story same)
  rw [Program.operation, taking]
  split
  · exact carriesOut_error
  simp only [bind, Except.bind, Program.perform]
  split
  · rename_i none_
    rw [if_pos none_] at ok
    obtain rfl := (pure_ok.mp ok).2
    exact carriesOut_ok (.single performs) next
  · rename_i some_
    rw [if_neg some_] at ok
    exact carriesOut_ok (.single performs) (next.put known made ok)

theorem constant_carriesOut (shows : Shows code states f k s d x) {type : ValueType} {bits : UInt64}
    (known : type ≠ .any) (ok : constant type bits s = .ok () (states (k + 1))) :
    CarriesOut p code states f k x (do
      let (value, c) := p.perform d (.constant type bits) []
      return .running (c.push type value).next) := by
  rw [constant, get_bind_ok, bind_ok] at ok
  obtain ⟨value, w, made, put⟩ := ok
  obtain ⟨b', built, rfl⟩ := onBuilder_ok.mp made
  obtain ⟨y, performs, next, bears⟩ :=
    shows.constant story p.meaning built (shows.lasts_last story (putValue_builder put))
  exact carriesOut_ok (.single performs) (next.put known bears put)

theorem selectTyped_carriesOut (shows : Shows code states f k s d x) {type : ValueType} (known : type ≠ .any)
    (ok : selectTyped type s = .ok () (states (k + 1))) :
    CarriesOut p code states f k x (p.selectTyped type d) := by
  rw [selectTyped, bind_ok] at ok
  obtain ⟨condition, u, first, ok⟩ := ok
  obtain ⟨values, w, second, ok⟩ := bind_ok.mp ok
  obtain ⟨value, z, emitted, put⟩ := bind_ok.mp ok
  obtain ⟨a, taking, rfl, inner, bears⟩ := shows.takeOne first
  obtain ⟨args, taking', rfl, inner', others, _⟩ := inner.take second
  obtain ⟨y, performs, next, made, _⟩ := inner'.emit story p.meaning
    (List.rel_append others (.cons bears .nil)) emitted (shows.lasts_last story (putValue_builder put))
  rw [Program.selectTyped, taking]
  simp only [bind, Except.bind, taking', Program.perform]
  exact carriesOut_ok (.single performs) (next.put known made put)

theorem select_carriesOut (shows : Shows code states f k s d x) (ok : select s = .ok () (states (k + 1))) :
    CarriesOut p code states f k x (p.select d) := by
  rw [select, bind_ok] at ok
  obtain ⟨condition, u, taken, ok⟩ := ok
  obtain ⟨a, taking, rfl, inner, bears⟩ := shows.takeOne taken
  obtain ⟨second, v, popped, ok⟩ := bind_ok.mp ok
  obtain ⟨_, _, some_, back⟩ := drop_proceeds inner.agrees popped
  have known : second.type ≠ .any := inner.agrees.solid.known second (by
    rw [← Array.getLast?_toList] at back
    exact List.mem_of_getLast? back)
  have type : (d.without 1).topType = second.type := by
    rw [inner.agrees.topType some_, TypedStack.topType, if_neg some_, back]
    rfl
  obtain ⟨a₂, top, same₂, even, inner'⟩ := inner.pop popped
  simp only [known, if_false] at ok
  obtain ⟨first, w, popped', ok⟩ := bind_ok.mp ok
  obtain ⟨type', _⟩ := popType_proceeds inner'.agrees popped'
  obtain ⟨a₁, below, same₁, even', inner''⟩ := inner'.popType popped'
  obtain ⟨_, _, required, ok⟩ := bind_ok.mp ok
  obtain ⟨_, rfl⟩ := require_ok.mp required
  obtain ⟨values, z, supplied, ok⟩ := bind_ok.mp ok
  obtain ⟨b', known', rfl⟩ := valuesOf_ok.mp supplied
  rw [even] at same₁
  obtain ⟨rfl, others⟩ := supply_bears (.cons same₁ (.cons same₂ .nil)) known'
  obtain ⟨value, z, emitted, put⟩ := bind_ok.mp ok
  obtain ⟨y, performs, next, made, _⟩ := inner''.emit story p.meaning
    (List.rel_append others (.cons bears .nil)) emitted (shows.lasts_last story (putValue_builder put))
  rw [Program.select, taking]
  simp only [bind, Except.bind]
  cases both : (d.without 1).take [(d.without 1).topType, (d.without 1).topType] with
  | error _ => exact carriesOut_error
  | ok taken =>
      obtain ⟨operands, e⟩ := taken
      obtain rfl : e = ((d.without 1).without 1).without 1 := by
        rw [(take_ok both).1, Config.without_without (d.without 1)]
        rfl
      have split := (take_ok both).2.1
      rw [top, below, List.append_assoc] at split
      obtain rfl : [a₁] ++ [a₂] = operands := List.append_cancel_left split
      dsimp only
      split
      · exact carriesOut_error
      rw [type, ← type']
      refine carriesOut_ok (.single performs) (next.put ?_ made put)
      rw [type']
      exact known

theorem pushResults_carries {types : List ValueType} {tuple : ValueId} {a : Typed V} {index : Nat}
    (shows : Shows code states f k s d x) (known : ∀ t ∈ types, t ≠ .any)
    (bears : Bears (finished code states) f s.builder.values.size x a tuple)
    (ok : pushResults tuple index types s = .ok () (states (k + 1))) :
    ∃ y, x.Performs (finished code states) p.meaning y ∧
      Shows code states f k (states (k + 1)) (p.project a.datum index types d) y := by
  induction types generalizing d s index x with
  | nil =>
      obtain ⟨_, rfl⟩ := pure_ok.mp ok
      exact ⟨x, .refl x, shows⟩
  | cons type types ih =>
      rw [pushResults, get_bind_ok, bind_ok] at ok
      obtain ⟨value, _, made, ok⟩ := ok
      obtain ⟨b', built, rfl⟩ := onBuilder_ok.mp made
      obtain ⟨_, u, put, ok⟩ := bind_ok.mp ok
      have same : u.builder = b' := putValue_builder put
      obtain ⟨y, performs, next, new, kept⟩ := shows.project story p.meaning bears built fun aliased =>
        same ▸ shows.lasts_part story ((asks_pushResults tuple (index + 1) types).requests u) ok (same ▸ aliased)
      have pushed := next.put (known type List.mem_cons_self) new put
      obtain ⟨z, more, last⟩ := ih pushed (fun t member => known t (List.mem_cons_of_mem _ member))
        (same ▸ kept a tuple bears) ok
      exact ⟨z, .step performs more, last⟩

theorem call_carriesOut (shows : Shows code states f k s d x) {index : Nat} {callee : Signature}
    (known : ∀ t ∈ callee.results, t ≠ .any) (ok : call index callee s = .ok () (states (k + 1))) :
    CarriesOut p code states f k x (p.call index callee d) := by
  rw [call, bind_ok] at ok
  obtain ⟨operands, u, taken, ok⟩ := ok
  obtain ⟨args, taking, _, inner, bears, _⟩ := shows.take taken
  rw [Program.call, taking]
  split
  · exact carriesOut_error
  simp only [bind, Except.bind, Program.perform]
  have several (ok : (do
      let tuple ← emit Opcode.callByte .null operands (UInt64.ofNat index)
      pushResults tuple 0 callee.results : Step Unit) u = .ok () (states (k + 1))) :
      let called := p.perform (d.without callee.params.length)
        (.operation Opcode.callByte (UInt64.ofNat index)) (args.map Typed.datum)
      CarriesOut p code states f k x (.ok (.running (p.project called.1 0 callee.results called.2).next)) := by
    obtain ⟨tuple, v, emitted, ok⟩ := bind_ok.mp ok
    obtain ⟨y, performs, next, made, _⟩ := inner.emit story p.meaning bears emitted
      (shows.lasts_part story ((asks_pushResults tuple 0 callee.results).requests v) ok)
    obtain ⟨z, more, last⟩ := pushResults_carries story (p := p) next known made ok
    exact carriesOut_ok (.step performs more) last
  rcases shape : callee.results with _ | ⟨type, _ | ⟨more, others⟩⟩
  · rw [shape] at ok several
    exact several ok
  · rw [shape] at ok
    obtain ⟨value, v, emitted, put⟩ := bind_ok.mp ok
    obtain ⟨y, performs, next, made, _⟩ := inner.emit story p.meaning bears emitted
      (shows.lasts_last story (putValue_builder put))
    exact carriesOut_ok (.single performs) (next.put (known type (by simp [shape])) made put)
  · rw [shape] at ok several
    exact several ok

omit story in
theorem drop_carriesOut (shows : Shows code states f k s d x)
    (ok : execute setting .drop s = .ok () (states (k + 1))) :
    CarriesOut p code states f k x (do return .running (← d.drop).next) := by
  obtain ⟨operand, u, popped, done⟩ := bind_ok.mp ok
  have same : u = states (k + 1) := (pure_ok.mp done).2
  subst same
  obtain ⟨_, _, _, _, later⟩ := shows.pop popped
  rw [(drop_proceeds shows.agrees popped).1]
  exact carriesOut_ok (.refl x) later

/-- A local that is read is what the machine has for it. -/
theorem localGet_carriesOut {cursor : Cursor}
    (shows : Shows code states f k (states k) d x) {slot : Nat}
    {type : ValueType} (known : type ≠ .any) (within : k < code.length)
    (keeps : KeepsLocals code k)
    (ok : localGet slot type ((states k).fetched cursor) = .ok () (states (k + 1))) :
    CarriesOut p code states f k x (do
      return .running (d.push type (← Program.localOf slot type d).datum).next) := by
  rw [localGet, get_bind_ok, bind_ok] at ok
  obtain ⟨value, u, read, put⟩ := ok
  obtain ⟨b', got, rfl⟩ := onBuilder_ok.mp read
  have before := Nat.le_of_lt shows.within
  obtain ⟨_, _, _, _, aligned⟩ := story.linked k before
  obtain ⟨inside, _, locals⟩ := Ssa.Builder.getLocal_ok got
  obtain ⟨_, reads, ⟨e, found, stands⟩, _, _⟩ :=
    (Ssa.Builder.readLocal_ends aligned.built.sound inside locals).of_ok got
  have here : (states k).current = x.block := shows.block.symm
  change (states k).builder.Reads b' at reads
  change b'.definition (states k).current slot = some e at found
  rw [here] at found
  have same : (states (k + 1)).builder = b' := putValue_builder put
  have later := story.lasts shows.within (Nat.le_refl _)
  rw [same] at later
  have step : (states k).builder.Lasts b' := Ssa.Builder.Request.lasts
    (.getLocal (states k).current slot) shows.lasts.aliased
    (bind_ok.mpr ⟨value, b', got, rfl⟩)
  have alike : (finished code states).representative e = (finished code states).representative value := by
    rw [← stands, later.representative]
  rw [Program.localOf]
  cases place : d.locals[slot]? with
  | none => exact carriesOut_error
  | some a =>
      dsimp only
      split
      swap
      · exact carriesOut_error
      have datum : x.read (finished code states) value = some a.datum := by
        rw [Point.read, ← alike]
        by_cases wrote : Wrote code states k x.block slot
        · obtain ⟨w, written, read⟩ := shows.written slot a place wrote
          obtain ⟨e', found', same'⟩ := reads.definition written
          cases found.symm.trans found'
          rw [← read, Point.read, ← later.representative e, same', later.representative]
        · refine shows.fresh slot a place wrote e (story.startsWith_at shows.within (same ▸ found) ?_)
          rw [wrote_succ within, not_or]
          exact ⟨wrote, fun both => keeps _ (List.getElem?_eq_getElem within) slot both.2⟩
      have older := (story.older_definition shows.within (same ▸ found)).congr alike
      rw [same] at older
      refine carriesOut_ok (.refl x) ?_
      have bodies : b'.bodyOf = (states k).builder.bodyOf := (Ssa.Builder.getLocal_leaves _ slot).of_ok got
      have next := (shows.fetched cursor).rebuild step later (congrFun bodies x.block)
      exact next.put known ⟨datum, older⟩ put

omit story in
/-- A local that is written is from then on what the machine has for it. -/
theorem Shows.wrote (shows : Shows code states f k (states (k + 1)) d x) (within : k < code.length)
    {slot : Nat} {a : Typed V} (writes : ∀ other, code[k].instruction.Writes other ↔ other = slot)
    (known : (states (k + 1)).builder.definition x.block slot = some v)
    (read : x.read (finished code states) v = some a.datum)
    (others : ∀ other ≠ slot, (states (k + 1)).builder.definition x.block other =
      (states k).builder.definition x.block other)
    (locals : e.locals = d.locals.set slot a) (pc : e.pc = d.pc) (stack : e.stack = d.stack)
    (history : e.history = d.history) (more : k + 1 < code.length)
    (agrees : Agrees e.next (states (k + 1)).stack) : Meets code states f e.next x := by
  obtain rfl := shows.pc
  have split (other : Nat) : Wrote code states (d.pc + 1) x.block other ↔
      Wrote code states d.pc x.block other ∨ other = slot := by
    rw [wrote_succ within, writes, shows.block]
    exact or_congr_right (and_iff_right rfl)
  have pc : e.next.pc = d.pc + 1 := congrArg (· + 1) pc
  have place (other : Nat) (y : Typed V) (here : e.next.locals[other]? = some y) :
      other = slot ∧ y = a ∨ other ≠ slot ∧ d.locals[other]? = some y := by
    change e.locals[other]? = some y at here
    rw [locals, List.getElem?_set] at here
    grind
  rw [Meets, pc]
  exact {
    pc := pc
    within := more
    agrees := agrees
    rests := .refl agrees.above
    lasts := .refl shows.lasts.aliased
    onward := shows.onward
    block := shows.block.trans shows.current.symm
    current := rfl
    reachable := shows.reachable
    position := shows.position
    history := shows.history.trans history.symm
    stack := stack ▸ shows.stack
    written := fun other y here wrote => by
      rcases place other y here with ⟨rfl, rfl⟩ | ⟨apart, before⟩
      · exact ⟨v, known, read⟩
      · rw [others other apart]
        exact shows.written other y before (((split other).mp wrote).resolve_right apart)
    fresh := fun other y here unwritten w starts => by
      rw [split, not_or] at unwritten
      exact shows.fresh other y (((place other y here).resolve_left fun both => unwritten.2 both.1).2)
        unwritten.1 w starts }

theorem localSet_shows {slot : Nat} {type : ValueType} (shows : Shows code states f k s d x)
    (ok : localSet slot type s = .ok v t) (same : s.builder = (states k).builder)
    (after : (states (k + 1)).builder = t.builder) : ∃ a, d.take [type] = .ok ([a], d.without 1) ∧
      Shows code states f k t (d.without 1) x ∧
      Bears (finished code states) f t.builder.values.size x a v ∧
      t.builder.definition x.block slot = some v ∧
      ∀ other ≠ slot, t.builder.definition x.block other = (states k).builder.definition x.block other := by
  rw [localSet, bind_ok] at ok
  obtain ⟨w, u, taken, ok⟩ := ok
  obtain ⟨a, taking, rfl, inner, bears⟩ := shows.takeOne taken
  simp only [get_bind_ok] at ok
  obtain ⟨_, _, written, done⟩ := bind_ok.mp ok
  obtain ⟨b', set_, rfl⟩ := onBuilder_ok.mp written
  obtain ⟨rfl, rfl⟩ := pure_ok.mp done
  have here : s.current = x.block := shows.current.trans shows.block.symm
  change Ssa.Builder.setLocal s.current slot w s.builder = _ at set_
  rw [here] at set_
  have step : s.builder.Lasts b' := Ssa.Builder.Request.lasts
    (.setLocal x.block slot w) shows.lasts.aliased set_
  have bodies : b'.bodyOf = s.builder.bodyOf := (Ssa.Builder.setLocal_leaves _ slot w).of_ok set_
  have defines (other : Nat) : b'.definition x.block other =
      if other = slot then some w else s.builder.definition x.block other := by
    obtain ⟨inside, rfl⟩ := (Ssa.Builder.setLocal_writes s.builder x.block slot w).of_ok set_
    rw [Ssa.Builder.definition_define inside]
    simp only [true_and]
    rfl
  refine ⟨a, taking, inner.rebuild step (shows.lasts_last story after step.aliased)
    (congrFun bodies x.block), bears.mono step.size, ?_, fun other apart => ?_⟩
  · exact (defines slot).trans (if_pos rfl)
  · exact (defines other).trans ((if_neg apart).trans (by rw [same]))

omit story in
theorem localSet_locals {slot : Nat} {type : ValueType} {a : Typed V}
    (taking : d.take [type] = .ok ([a], d.without 1)) (ok : Program.localSet slot type d = .ok e) :
    e = { d.without 1 with locals := d.locals.set slot a } := by
  rw [Program.localSet, taking, Program.localOf] at ok
  cases place : d.locals[slot]? with
  | none => simp [place, bind, Except.bind] at ok
  | some y =>
      obtain ⟨inside, _⟩ := List.getElem?_eq_some_iff.mp place
      rw [place] at ok
      dsimp only at ok
      split at ok
      swap
      · simp [bind, Except.bind] at ok
      simp only [bind, Except.bind, pure, Except.pure, Except.ok.injEq] at ok
      subst ok
      simp [Config.without, List.set_eq_take_append_cons_drop, inside]

theorem localSet_meets {cursor : Cursor} (shows : Shows code states f k (states k) d x) {slot : Nat}
    {type : ValueType} (within : k < code.length)
    (writes : ∀ other, code[k].instruction.Writes other ↔ other = slot)
    (ok : localSet slot type ((states k).fetched cursor) = .ok v (states (k + 1)))
    (machine : Program.localSet slot type d = .ok e) (more : k + 1 < code.length)
    (agrees : Agrees e.next (states (k + 1)).stack) : Meets code states f e.next x := by
  obtain ⟨a, taking, later, bears, known, others⟩ :=
    localSet_shows story (shows.fetched cursor) ok rfl rfl
  obtain rfl := localSet_locals taking machine
  exact later.wrote within writes known bears.read others rfl rfl rfl rfl more agrees

theorem localTee_meets {cursor : Cursor} (shows : Shows code states f k (states k) d x) {slot : Nat}
    {type : ValueType} (within : k < code.length) (isValue : type ≠ .any)
    (writes : ∀ other, code[k].instruction.Writes other ↔ other = slot)
    (ok : (do putValue type (← localSet slot type) : Step Unit) ((states k).fetched cursor) =
      .ok () (states (k + 1)))
    {a : Typed V} (machine : Program.localSet slot type d = .ok e)
    (read : Program.localOf slot type e = .ok a) (more : k + 1 < code.length)
    (agrees : Agrees (e.push type a.datum).next (states (k + 1)).stack) :
    Meets code states f (e.push type a.datum).next x := by
  obtain ⟨value, u, written, put⟩ := bind_ok.mp ok
  have same := putValue_builder put
  obtain ⟨y, taking, later, bears, known, others⟩ :=
    localSet_shows story (shows.fetched cursor) written rfl same
  obtain rfl := localSet_locals taking machine
  have here : y = a := by
    rw [Program.localOf] at read
    dsimp only at read
    rw [List.getElem?_set_self'] at read
    cases place : d.locals[slot]? with
    | none => simp [place] at read
    | some z =>
        simp only [place, Option.map_eq_map, Option.map_some, Function.const] at read
        split at read
        · exact Except.ok.inj read
        · cases read
  subst here
  have typed : Bears (finished code states) f u.builder.values.size x ⟨type, y.datum⟩ value :=
    ⟨bears.read, bears.older⟩
  have next := later.put isValue typed put
  refine next.wrote within writes (same ▸ known) bears.read (same ▸ others) rfl rfl ?_ rfl more agrees
  rfl

end WasmFunclets.Machine
