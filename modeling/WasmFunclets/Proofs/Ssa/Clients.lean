import WasmFunclets.Proofs.Ssa.Fulfils
import WasmFunclets.Proofs.Ssa.Routes

/-! What a client of a builder reads. Whatever it builds, with any control flow, the value that it reads of
a local is on every path from the entry the one that was written last. The client keeps to a few rules: no
request is refused, a block is not written after it has got a successor, and a block writes and hands on
only what is no phi or comes from the block itself. -/

namespace WasmFunclets.Ssa.Builder

open Attempt

variable {written : BlockId → Nat → Prop} {b t start : Builder} {c : BlockId} {slot s : Nat}
variable {v : ValueId} {request : Request} {requests earlier later_ : List Request}

def Request.write? (c : BlockId) (slot : Nat) : Request → Option ValueId
  | .setLocal e s v => if e = c ∧ s = slot then some v else none
  | _ => none

def lastSet (requests : List Request) (slot : Nat) (c : BlockId) : Option ValueId :=
  requests.reverse.findSome? (Request.write? c slot)

/-- A value that is no phi, was read from a block or is an argument of it, under whatever name. -/
def Obtained (start : Builder) (earlier : List Request) (c : BlockId) (v : ValueId) : Prop :=
  ∃ u, (start.endured earlier).representative v = (start.endured earlier).representative u ∧
    ((∃ w, (start.endured earlier).values[u]? = some w ∧ w.phi? = none) ∨
      (∃ before s between t, earlier = before ++ .getLocal c s :: between ∧
        getLocal c s (start.endured before) = .ok u t) ∨
      ∃ k, (start.endured earlier).blocks[c]? = some k ∧ u ∈ k.argIds)

structure Regular (start : Builder) (earlier : List Request) (request : Request) : Prop where
  served : ∃ t, request.attempt (start.endured earlier) = .ok () t
  inner : request ≠ .addBlock .entry
  unused : ∀ c s v, request = .setLocal c s v → ∀ target carried, .connect c target carried ∉ earlier
  written : ∀ c s v, request = .setLocal c s v → start.Obtained earlier c v
  carried : ∀ c target carried, request = .connect c target carried →
    ∀ v ∈ carried, start.Obtained earlier c v

theorem regular_of_idle (served : ∃ t, request.attempt (start.endured earlier) = .ok () t)
    (inner : request ≠ .addBlock .entry) (silent : ∀ c s v, request ≠ .setLocal c s v)
    (empty : ∀ c target v carried, request ≠ .connect c target (v :: carried)) :
    start.Regular earlier request where
  served := served
  inner := inner
  unused c s v same := absurd same (silent c s v)
  written c s v same := absurd same (silent c s v)
  carried c target carried same v member := by
    cases carried with
    | nil => cases member
    | cons x xs => exact absurd same (empty c target x xs)

def Complies (start : Builder) : List Request → List Request → Prop
  | _, [] => True
  | earlier, request :: later =>
      start.Regular earlier request ∧ start.Complies (earlier ++ [request]) later

theorem lastSet_concat (requests : List Request) (request : Request) (slot : Nat) (c : BlockId) :
    lastSet (requests ++ [request]) slot c = (request.write? c slot).or (lastSet requests slot c) := by
  rw [lastSet, List.reverse_append, List.reverse_singleton, List.singleton_append, List.findSome?_cons]
  cases request.write? c slot <;> rfl

theorem lastSet_silent (requests : List Request)
    (silent : ∀ c slot v, request ≠ .setLocal c slot v) :
    lastSet (requests ++ [request]) = lastSet requests := by
  funext slot c
  rw [lastSet_concat]
  cases request with
  | setLocal c slot v => exact absurd rfl (silent c slot v)
  | _ => rfl

theorem endured_concat (ok : request.attempt (start.endured requests) = .ok () t) :
    start.endured (requests ++ [request]) = t := by
  rw [endured, List.foldl_append, List.foldl_cons, List.foldl_nil, ← endured, Attempt.after, ok]

theorem complies_append : start.Complies earlier (requests ++ later_) ↔
    start.Complies earlier requests ∧ start.Complies (earlier ++ requests) later_ := by
  induction requests generalizing earlier with
  | nil => simp [Complies]
  | cons request requests ih =>
      rw [List.cons_append, Complies, Complies, ih, List.append_assoc, List.singleton_append, and_assoc]

/-- What holds after requests that keep to the rules: of the function, and of what the client has written,
connected and read. -/
structure Tended (start : Builder) (requests : List Request) : Prop where
  sound : (start.endured requests).Consistent false fun c s => lastSet requests s c ≠ none
  honest : (start.endured requests).Honest fun c s => lastSet requests s c ≠ none
  settled : ∀ {c : BlockId} {s : Nat} {v : ValueId}, lastSet requests s c = some v →
    (start.endured requests).StandsFor c s v
  used : ∀ {c : BlockId}, (start.endured requests).Used c →
    ∃ target carried, .connect c target carried ∈ requests
  read : ∀ {earlier later : List Request} {c : BlockId} {s : Nat} {v : ValueId} {t : Builder},
    requests = earlier ++ .getLocal c s :: later → getLocal c s (start.endured earlier) = .ok v t →
      v < (start.endured requests).values.size ∧ (start.endured requests).Comes c v

theorem plain_of_value (formed : b.Formed false) {w : Value} (present : b.values[v]? = some w)
    (noPhi : w.phi? = none) : b.Plain v := by
  have shown := look_of_value present
  have plain : ∀ p, w.plain.content ≠ .phi p := by
    obtain ⟨_, _, _ | _ | _ | _ | _ | _ | _⟩ := w
    case phi => cases noPhi
    all_goals exact nofun
  have still : b.representative v = v := by
    by_contra replaced
    obtain ⟨_, _, p, _, isPhi, _⟩ := formed.replaced replaced
    exact plain p (congrArg Value.content (Option.some.inj (shown.symm.trans isPhi)))
  exact ⟨w.plain, by rw [still, shown], plain⟩

theorem Obtained.comes (obtained : start.Obtained earlier c v) (tended : start.Tended earlier) :
    v < (start.endured earlier).values.size ∧ (start.endured earlier).Comes c v := by
  obtain ⟨u, same, kind⟩ := obtained
  have formed := tended.sound.formed
  obtain ⟨inside, comes⟩ : u < (start.endured earlier).values.size ∧
      (start.endured earlier).Comes c u := by
    rcases kind with ⟨w, present, noPhi⟩ | ⟨before, s, between, t, split, read⟩ | ⟨k, present, member⟩
    · exact ⟨lt_of_look (look_of_value present), .plain (plain_of_value formed present noPhi)⟩
    · exact tended.read split read
    · cases given : k.args with
      | none => simp [Block.argIds, given] at member
      | some phis =>
          obtain ⟨j, place⟩ := List.mem_iff_getElem?.mp member
          rw [Block.argIds, given, Option.getD_some, Array.getElem?_toList] at place
          obtain ⟨type, p, own⟩ := tended.sound.ledger.argument (outline_of_block present) given place
          exact ⟨lt_of_look own.1, .argument own rfl⟩
  refine ⟨?_, comes.congr same⟩
  by_contra out
  rw [formed.representative_of_le (Nat.le_of_not_lt out)] at same
  exact out (same ▸ formed.representative_lt inside)

theorem attempt_getLocal (read : getLocal c s b = .ok v t) :
    (Request.getLocal c s).attempt b = .ok () t :=
  bind_ok.mpr ⟨v, t, read, rfl⟩

theorem read_comes {u : Builder} (sound : b.Consistent false written) (read : getLocal c slot b = .ok v u)
    (sound' : u.Consistent false written) (honest : u.Honest written) :
    v < u.values.size ∧ u.Comes c v ∧
      ∃ d, u.definition c slot = some d ∧ u.representative d = u.representative v := by
  obtain ⟨inside, type, typed⟩ := getLocal_ok read
  obtain ⟨_, _, ⟨d, known, same⟩, bound, still⟩ := (readLocal_ends sound inside typed).of_ok read
  have same : u.representative d = u.representative v := same.trans still.symm
  exact ⟨bound, (honest.definition_comes sound' known).congr same.symm, d, known, same⟩

theorem Fulfils.used (fulfils : b.Fulfils written request t) (used : t.Used c) :
    b.Used c ∨ ∃ target carried, request = .connect c target carried := by
  obtain ⟨e, k, present, pred, member, rfl⟩ := used
  obtain ⟨args, ⟨o, before, old⟩ | new, _⟩ := fulfils.edges (outline_of_block present) pred member
  · obtain ⟨l, found, rfl⟩ := block_of_outline before
    exact .inl ⟨e, l, found, _, old, rfl⟩
  · exact .inr ⟨e, args, new⟩

theorem Honest.fulfil (honest : b.Honest written) (fulfils : b.Fulfils written request t)
    (carried : ∀ source c args, request = .connect source c args → ∀ v ∈ args, b.Comes source v) :
    t.Honest written where
  edges {c o} present pred member arg listed := by
    have later := fulfils.grows.toLater
    have formed := fulfils.sound.formed
    obtain ⟨args, from_, each⟩ := fulfils.edges present pred member
    rcases each arg listed with old | ⟨type, shown⟩
    · rcases from_ with ⟨o', before, edge⟩ | new
      · exact (honest.edges before _ edge arg old).later later formed
      · exact (carried _ _ _ new arg old).later later formed
    · obtain ⟨w, present, same⟩ := value_of_look shown
      refine .plain (plain_of_value formed present ?_)
      obtain ⟨_, _, _ | _ | _ | _ | _ | _ | _⟩ := w <;> first | rfl | cases same
  written known := by
    obtain ⟨d, defined, comes⟩ := honest.written known
    obtain ⟨d', found, same⟩ := fulfils.grows.knows defined
    exact ⟨d', found, (comes.later fulfils.grows.toLater fulfils.sound.formed).congr same⟩

theorem read_of_concat (split : requests ++ [request] = earlier ++ .getLocal c s :: later_) :
    requests = earlier ∧ request = .getLocal c s ∨
      ∃ rest, requests = earlier ++ .getLocal c s :: rest := by
  rcases List.eq_nil_or_concat later_ with rfl | ⟨rest, end_, rfl⟩
  · exact .inl ((List.append_inj' split rfl).imp_right fun same => (List.cons.inj same).1)
  · rw [List.concat_eq_append, ← List.cons_append, ← List.append_assoc] at split
    exact .inr ⟨rest, (List.append_inj' split rfl).1⟩

theorem Tended.read_later (tended : start.Tended requests)
    (later : (start.endured requests).Later t) (formed : t.Formed false)
    (size : (start.endured requests).values.size ≤ t.values.size)
    (split : requests = earlier ++ .getLocal c s :: later_)
    {u : Builder} (read : getLocal c s (start.endured earlier) = .ok v u) :
    v < t.values.size ∧ t.Comes c v :=
  (tended.read split read).imp (Nat.lt_of_lt_of_le · size) (·.later later formed)

theorem Tended.fulfil (tended : start.Tended requests) (regular : start.Regular requests request)
    (silent : ∀ c slot v, request ≠ .setLocal c slot v) :
    start.Tended (requests ++ [request]) ∧
      (start.endured requests).Later (start.endured (requests ++ [request])) := by
  obtain ⟨t, ok⟩ := regular.served
  have same := lastSet_silent requests silent
  have fulfils := attempt_fulfils tended.sound ok regular.inner silent
    fun source c args asked v member => ((regular.carried source c args asked v member).comes tended).1
  have honest := tended.honest.fulfil fulfils
    fun source c args asked v member => ((regular.carried source c args asked v member).comes tended).2
  rw [← endured_concat ok] at fulfils honest
  refine ⟨⟨?_, ?_, fun {c s v} last => ?_, fun {c} used => ?_,
    fun {earlier later c s v u} split read => ?_⟩, fulfils.grows.toLater⟩
  · rw [same]
    exact fulfils.sound
  · rw [same]
    exact honest
  · rw [same] at last
    obtain ⟨d, known, toward⟩ := tended.settled last
    obtain ⟨d', found, alike⟩ := fulfils.grows.knows known
    exact ⟨d', found, alike.trans (fulfils.grows.toLater.same toward)⟩
  · rcases fulfils.used used with before | ⟨target, carried, asked⟩
    · obtain ⟨target, carried, member⟩ := tended.used before
      exact ⟨target, carried, List.mem_append_left _ member⟩
    · exact ⟨target, carried, by simp [asked]⟩
  · rcases read_of_concat split with ⟨rfl, rfl⟩ | ⟨rest, earlier_⟩
    · rw [endured_concat (attempt_getLocal read)] at fulfils honest ⊢
      exact (read_comes tended.sound read fulfils.sound honest).imp_right And.left
    · exact tended.read_later fulfils.grows.toLater fulfils.sound.formed fulfils.grows.size earlier_
        read

theorem lastSet_write (requests : List Request) (c : BlockId) (slot : Nat) (v : ValueId) (e : BlockId)
    (s : Nat) : lastSet (requests ++ [.setLocal c slot v]) s e =
      if e = c ∧ s = slot then some v else lastSet requests s e := by
  rw [lastSet_concat, Request.write?]
  by_cases here : e = c ∧ s = slot
  · rw [if_pos here, if_pos ⟨here.1.symm, here.2.symm⟩]
    rfl
  · rw [if_neg here, if_neg fun same => here ⟨same.1.symm, same.2.symm⟩]
    rfl

theorem Redefines.used {e : BlockId} (writes : b.Redefines c slot v t) (used : t.Used e) : b.Used e := by
  obtain ⟨e', k, present, pred, member, rfl⟩ := used
  have shown := outline_of_block present
  rw [writes.outline] at shown
  obtain ⟨l, found, same⟩ := block_of_outline shown
  have edges : l.predecessors = k.predecessors := congrArg BlockOutline.predecessors same
  exact ⟨e', l, found, pred, edges ▸ member, rfl⟩

theorem Honest.write (honest : b.Honest written) (writes : b.Redefines c slot v t)
    (formed : t.Formed false) (comes : b.Comes c v) :
    t.Honest fun e s => written e s ∨ e = c ∧ s = slot where
  edges present pred member arg listed := by
    rw [writes.outline] at present
    exact (honest.edges present pred member arg listed).later writes.later formed
  written {e s} given := by
    rw [writes.definition]
    split
    · rename_i here
      exact ⟨v, rfl, here.1 ▸ comes.later writes.later formed⟩
    · rename_i other
      obtain ⟨d, defined, comes⟩ := honest.written (given.resolve_right other)
      exact ⟨d, defined, comes.later writes.later formed⟩

theorem Tended.write (tended : start.Tended requests)
    (regular : start.Regular requests (.setLocal c slot v)) :
    start.Tended (requests ++ [.setLocal c slot v]) ∧
      (start.endured requests).Later (start.endured (requests ++ [.setLocal c slot v])) := by
  obtain ⟨t, ok⟩ := regular.served
  obtain ⟨inside, known, bound⟩ := setLocal_ok ok
  have unused : ¬ (start.endured requests).Used c := fun used => by
    obtain ⟨target, carried, member⟩ := tended.used used
    exact regular.unused c slot v rfl target carried member
  obtain ⟨sound, writes⟩ := (setLocal_ends tended.sound inside unused (Array.getElem?_eq_getElem known)
    bound nofun).of_ok ok
  have honest := tended.honest.write writes sound.formed ((regular.written c slot v rfl).comes tended).2
  have written : (fun e s => lastSet (requests ++ [.setLocal c slot v]) s e ≠ none) =
      fun e s => lastSet requests s e ≠ none ∨ e = c ∧ s = slot := by
    funext e s
    rw [lastSet_write]
    split <;> simp [*]
  rw [← written, ← endured_concat ok] at sound honest
  rw [← endured_concat ok] at writes
  refine ⟨⟨sound, honest, fun {e s w} last => ?_, fun {e} used => ?_,
    fun {before after_ e s w u} split read => ?_⟩, writes.later⟩
  · rw [lastSet_write] at last
    rw [StandsFor, writes.definition]
    split at last
    · rename_i here
      cases last
      exact ⟨v, if_pos here, rfl⟩
    · rename_i other
      obtain ⟨d, defined, same⟩ := tended.settled last
      exact ⟨d, by rw [if_neg other, defined], writes.later.same same⟩
  · obtain ⟨target, carried, member⟩ := tended.used (writes.used used)
    exact ⟨target, carried, List.mem_append_left _ member⟩
  · rcases read_of_concat split with ⟨_, absurd_⟩ | ⟨rest, earlier_⟩
    · cases absurd_
    · exact tended.read_later writes.later sound.formed
        (Nat.le_of_eq (congrArg Array.size writes.values).symm) earlier_ read

theorem Tended.step (tended : start.Tended requests) (regular : start.Regular requests request) :
    start.Tended (requests ++ [request]) ∧
      (start.endured requests).Later (start.endured (requests ++ [request])) := by
  by_cases write : ∃ c slot v, request = .setLocal c slot v
  · obtain ⟨c, slot, v, rfl⟩ := write
    exact tended.write regular
  · exact tended.fulfil regular fun c slot v same => write ⟨c, slot, v, same⟩

theorem tended_ofLocals (locals : Array ValueType) (paramCount : Nat) :
    (ofLocals locals paramCount).Tended [] where
  sound := ⟨formed_ofLocals, flow_ofLocals, ledger_ofLocals⟩
  honest := {
    edges := fun present pred member => by
      obtain ⟨_, rfl⟩ := outline_ofLocals present
      simp [Block.entry, Block.fresh, Block.outline] at member
    written := fun given => absurd rfl given }
  settled last := by cases last
  used used := by
    exact absurd used (not_used_ofLocals _)
  read split _ := by simp at split

theorem Tended.run (tended : start.Tended earlier) (complies : start.Complies earlier later_) :
    start.Tended (earlier ++ later_) ∧
      (start.endured earlier).Later (start.endured (earlier ++ later_)) := by
  induction later_ generalizing earlier with
  | nil =>
      rw [List.append_nil]
      exact ⟨tended, (Reads.refl tended.sound.formed).later⟩
  | cons request later_ ih =>
      obtain ⟨next, first⟩ := tended.step complies.1
      obtain ⟨last, rest⟩ := ih next complies.2
      rw [List.append_assoc, List.singleton_append] at last rest
      exact ⟨last, first.trans rest⟩

theorem Complies.tended {locals : Array ValueType} {paramCount : Nat}
    (complies : (ofLocals locals paramCount).Complies [] requests) :
    (ofLocals locals paramCount).Tended requests :=
  ((tended_ofLocals locals paramCount).run complies).1

theorem Tended.reads (tended : start.Tended earlier)
    (regular : start.Regular earlier (.getLocal c slot))
    (read : getLocal c slot (start.endured earlier) = .ok v t) :
    (∀ x, lastSet earlier slot c = some x → t.representative v = t.representative x) ∧
      (lastSet earlier slot c = none → t.StartsWith c slot v) := by
  have behind := (tended.step regular).1
  obtain ⟨sound, honest, settled, _, _⟩ := behind
  have same : lastSet (earlier ++ [.getLocal c slot]) = lastSet earlier :=
    lastSet_silent earlier nofun
  simp only [same, endured_concat (attempt_getLocal read)] at sound honest settled
  obtain ⟨_, _, d, known, same⟩ := read_comes tended.sound read sound honest
  refine ⟨fun x last => ?_, fun none_ => ?_⟩
  · obtain ⟨d', known', toward⟩ := settled last
    cases known.symm.trans known'
    exact same.symm.trans toward
  · rcases sound.flow.starts known with byClient | starts
    · exact absurd none_ byClient
    · exact starts.congr same.symm

theorem Tended.finished (tended : start.Tended requests)
    (closed : ∀ k ∈ (start.endured requests).blocks, k.isSealed = true) :
    (start.endured requests).Finished false fun c s => lastSet requests s c ≠ none where
  sound := tended.sound
  honest := tended.honest
  final := tended.sound.final fun c x shown => by
    obtain ⟨o, present, rfl⟩ := Option.map_eq_some_iff.mp shown
    obtain ⟨k, found, rfl⟩ := block_of_outline present
    exact closed k (Array.mem_of_getElem? found)

variable {route : List Visit}

/-- Whatever function a client builds that keeps to the rules and seals all blocks: a value that it has
read of a local is defined at the end of every path to the block that it has read it from, and is what the
local was written last along the path, before the read, or else its initial value. -/
theorem reads_resolve (locals : Array ValueType) (paramCount : Nat) (requests : List Request)
    (complies : (ofLocals locals paramCount).Complies [] requests)
    (closed : ∀ k ∈ ((ofLocals locals paramCount).endured requests).blocks, k.isSealed = true)
    (split : requests = earlier ++ .getLocal c slot :: later_)
    (read : getLocal c slot ((ofLocals locals paramCount).endured earlier) = .ok v t)
    (way : ((ofLocals locals paramCount).endured requests).Route route c) :
    ∃ w, ((ofLocals locals paramCount).endured requests).valueAlong route v = some w ∧
      ((ofLocals locals paramCount).endured requests).Left slot w
        (lastWrite (lastSet requests slot) (lastSet earlier slot c) route) := by
  have tended := complies.tended
  have finished := tended.finished closed
  obtain ⟨w, value⟩ := way.defined finished (tended.read split read).2
  -- what has just been read, and what becomes of it
  subst split
  obtain ⟨before, regular, behind⟩ := complies_append.mp complies
  obtain ⟨written, unwritten⟩ := before.tended.reads regular read
  have later := ((before.tended.step regular).1.run behind).2
  simp only [List.append_assoc, List.singleton_append,
    endured_concat (attempt_getLocal read)] at later
  cases last : lastSet earlier slot c with
  | some x =>
      refine ⟨w, value, ?_⟩
      rw [lastWrite, Left, ← valueAlong_congr route (later.same (written x last)), value]
  | none =>
      exact finished.start_along tended.settled id way
        ((unwritten last).later later finished.sound.formed)

/-- A loop: the entry writes a local, the head reads it and the body writes it again. -/
def loopRequests : List Request :=
  [.constant 0 .i32 7, .setLocal 0 0 0, .addBlock .loopHeader, .connect 0 1 [], .getLocal 1 0,
    .addBlock .body, .connect 1 2 [], .sealBlock 2, .constant 2 .i32 9, .setLocal 2 0 2, .connect 2 1 [],
    .sealBlock 1]

theorem complies_loop : (ofLocals #[.i32] 0).Complies [] loopRequests := by
  have entry : (ofLocals #[.i32] 0).Obtained [.constant 0 .i32 7] 0 0 :=
    ⟨0, rfl, .inl ⟨_, rfl, rfl⟩⟩
  have body : (ofLocals #[.i32] 0).Obtained (loopRequests.take 9) 2 2 :=
    ⟨2, rfl, .inl ⟨_, rfl, rfl⟩⟩
  refine ⟨regular_of_idle ⟨_, rfl⟩ nofun nofun nofun, ⟨⟨_, rfl⟩, nofun, ?_, ?_, nofun⟩,
    regular_of_idle ⟨_, rfl⟩ nofun nofun nofun, regular_of_idle ⟨_, rfl⟩ nofun nofun nofun,
    regular_of_idle ⟨_, rfl⟩ nofun nofun nofun, regular_of_idle ⟨_, rfl⟩ nofun nofun nofun,
    regular_of_idle ⟨_, rfl⟩ nofun nofun nofun, regular_of_idle ⟨_, rfl⟩ nofun nofun nofun,
    regular_of_idle ⟨_, rfl⟩ nofun nofun nofun, ⟨⟨_, rfl⟩, nofun, ?_, ?_, nofun⟩,
    regular_of_idle ⟨_, rfl⟩ nofun nofun nofun, regular_of_idle ⟨_, rfl⟩ nofun nofun nofun, trivial⟩
  · rintro _ _ _ ⟨⟩
    simp
  · rintro _ _ _ ⟨⟩
    exact entry
  · rintro _ _ _ ⟨⟩
    simp
  · rintro _ _ _ ⟨⟩
    exact body

theorem reads_resolve_loop :
    (ofLocals #[.i32] 0).Complies [] loopRequests ∧
      (∀ k ∈ ((ofLocals #[.i32] 0).endured loopRequests).blocks, k.isSealed = true) ∧
      (∃ t, getLocal 1 0 ((ofLocals #[.i32] 0).endured (loopRequests.take 4)) = .ok 1 t) ∧
      ((ofLocals #[.i32] 0).endured loopRequests).Route [⟨1, 1⟩, ⟨2, 0⟩, ⟨1, 0⟩] 1 ∧
      ((ofLocals #[.i32] 0).endured loopRequests).valueAlong [⟨1, 1⟩, ⟨2, 0⟩, ⟨1, 0⟩] 1 = some 2 := by
  have closed : ∀ k ∈ ((ofLocals #[.i32] 0).endured loopRequests).blocks, k.isSealed = true := by
    decide
  have read : getLocal 1 0 ((ofLocals #[.i32] 0).endured (loopRequests.take 4)) = .ok 1
      (after (getLocal 1 0) ((ofLocals #[.i32] 0).endured (loopRequests.take 4))) := rfl
  have way : ((ofLocals #[.i32] 0).endured loopRequests).Route [⟨1, 1⟩, ⟨2, 0⟩, ⟨1, 0⟩] 1 :=
    @Route.step _ 1 _ 1 ⟨2, []⟩ _ (@Route.step _ 2 _ 0 ⟨1, []⟩ _
      (@Route.step _ 1 _ 0 ⟨0, []⟩ _ .entry rfl rfl) rfl rfl) rfl rfl
  refine ⟨complies_loop, closed, ⟨_, read⟩, way, ?_⟩
  have split : loopRequests = loopRequests.take 4 ++ .getLocal 1 0 :: loopRequests.drop 5 := rfl
  obtain ⟨w, value, left⟩ :=
    reads_resolve #[.i32] 0 loopRequests complies_loop closed split read way
  have same : ((ofLocals #[.i32] 0).endured loopRequests).valueAlong [⟨2, 0⟩, ⟨1, 0⟩] 2 = some 2 :=
    rfl
  cases same.symm.trans left
  exact value

end WasmFunclets.Ssa.Builder
