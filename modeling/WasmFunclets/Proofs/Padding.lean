import WasmFunclets.Proofs.Prefixes
import WasmFunclets.Proofs.Ssa.Lasts

/-! Constants that are dropped again leave nothing behind but their values. Put in front of the end of a
function, they use up as many ids as one likes. -/

namespace WasmFunclets

open Attempt
open Encoding (Piece join)
open Ssa.Builder (arenaLimit)

namespace Ssa.Builder

variable {b : Builder} {c source : BlockId} {k : Block}

theorem connect_bare (inside : source < b.blocks.size) (present : b.blocks[c]? = some k)
    (isOpen : k.isSealed = false) (bare : k.args = some #[]) : connect source c [] b =
      .ok () (b.onBlock c fun k => { k with predecessors := k.predecessors.push ⟨source, []⟩ }) := by
  have fetched : blockAt c b = .ok k b := by simp [blockAt, present]
  have checked : checkBlock source b = .ok () b := by simp [checkBlock, inside]
  simp only [connect, bind, EStateM.bind, checked, fetched, bare]
  simp [maintain, isOpen, pad, undefs, feedAll, modifyBlock, onBlock]
  rfl

theorem sealBlock_bare (present : b.blocks[c]? = some k) (isOpen : k.isSealed = false)
    (bare : k.args = some #[]) (still : k.pending = #[]) : ∃ t, sealBlock c b = .ok () t := by
  have fetched : blockAt c b = .ok k b := by simp [blockAt, present]
  simp only [sealBlock, bind, EStateM.bind, fetched, isOpen, still, Block.argIds, bare]
  simp [modifyBlock]
  exact ⟨_, rfl⟩

end Ssa.Builder

namespace Validation

variable {setting : Setting} {context : Context} {bytes rest : List UInt8} {s t : State}
variable {front : List Piece} {p : Piece} {i : Instruction} {frame : Frame} {exit : Ssa.Block} {m n made : Nat}

theorem instruction_of_piece (next : s.cursor.rest = p.bytes ++ rest)
    (found : Decode.resolve (scopeOf setting s) p.line = some i)
    (plain : p.line.opcode.form ≠ .funcletRegion) :
    Decode.instruction (scopeOf setting s) s.cursor = .ok i ⟨s.cursor.offset + p.bytes.length, rest⟩ :=
  Decode.instruction_ok.mpr ⟨⟨p.bytes, .inl ⟨p.line, p.written, found⟩, next, rfl⟩,
    fun _ _ _ same => absurd (Decode.region_of_resolve (same ▸ found)) plain⟩

theorem walk_of_piece (isOpen : s.control ≠ #[]) (next : s.cursor.rest = p.bytes ++ rest)
    (found : Decode.resolve (scopeOf setting s) p.line = some i)
    (plain : p.line.opcode.form ≠ .funcletRegion)
    (ok : execute setting i (s.fetched ⟨s.cursor.offset + p.bytes.length, rest⟩) = .ok () t)
    (cursor : t.cursor = ⟨s.cursor.offset + p.bytes.length, rest⟩) (decoded : t.decoded = s.decoded + 1) :
    LineWalk setting s [p] t := by
  have stepped := step_ok_iff.mpr ⟨i, _, instruction_of_piece next found plain, ok⟩
  have consumes : Consumes [p] s t :=
    ⟨by simpa [cursor] using next, by simp [cursor], decoded⟩
  exact @LineWalk.step setting s t t p none [] isOpen stepped (by simp) consumes (.here t)

def constantPiece : Piece := ⟨_, _, Encoding.constant_written⟩

def dropPiece : Piece := ⟨_, _, Encoding.drop_written⟩

def endPiece : Piece := ⟨_, _, Encoding.end_written⟩

def fillers : Nat → List Piece
  | 0 => []
  | n + 1 => constantPiece :: dropPiece :: fillers n

theorem fillers_add (m n : Nat) : fillers (m + n) = fillers m ++ fillers n := by
  induction m with
  | zero => rw [Nat.zero_add, fillers, List.nil_append]
  | succ m ih => rw [Nat.add_right_comm, fillers, ih, fillers, List.cons_append, List.cons_append]

/-- The end is all that is missing of a function without results. -/
structure State.Closable (s : State) (frame : Frame) (exit : Ssa.Block) : Prop where
  control : s.control = #[frame]
  construct : frame.construct = .function
  results : frame.signature.results = []
  emptied : s.stack.height = s.stack.floor
  inside : s.current < s.builder.blocks.size
  apart : s.current ≠ frame.target
  present : s.builder.blocks[frame.target]? = some exit
  isOpen : exit.isSealed = false
  bare : exit.args = some #[]
  still : exit.pending = #[]

def State.isClosable (s : State) : Bool :=
  match s.control.toList with
  | [frame] =>
      frame.construct = .function && frame.signature.results.isEmpty && s.stack.height = s.stack.floor &&
        s.current < s.builder.blocks.size && s.current ≠ frame.target &&
        (s.builder.blocks[frame.target]?).any fun exit =>
          !exit.isSealed && exit.args = some #[] && exit.pending.isEmpty
  | _ => false

theorem closable_of_isClosable (isClosable : s.isClosable = true) :
    ∃ frame exit, s.Closable frame exit := by
  unfold State.isClosable at isClosable
  split at isClosable
  · rename_i frame only
    simp only [Bool.and_eq_true, decide_eq_true_eq, Option.any_eq_true, Bool.not_eq_true',
      List.isEmpty_iff, Array.isEmpty_iff] at isClosable
    obtain ⟨⟨⟨⟨⟨construct, results⟩, emptied⟩, inside⟩, apart⟩, exit, present, ⟨isOpen, bare⟩, still⟩ :=
      isClosable
    have control : s.control = #[frame] := Array.toList_inj.mp only
    exact ⟨frame, exit, control, construct, results, emptied, inside, apart, present, isOpen, bare, still⟩
  · cases isClosable

def State.filled (s : State) (rest : List UInt8) : State :=
  { s.fetched ⟨s.cursor.offset + 2, rest⟩ with
    builder := s.builder.appended s.current ⟨.i32, some s.current, .constant 0⟩ }

namespace State.Closable

theorem control_ne (closable : s.Closable frame exit) : s.control ≠ #[] := by
  simp [closable.control]

theorem constant_ends (closable : s.Closable frame exit) (setting : Setting) :
    Ends (execute setting (.constant .i32 0)) s
      (fun _ t => s.builder.values.size < arenaLimit ∧ t = { s with
        builder := s.builder.appended s.current ⟨.i32, some s.current, .constant 0⟩
        stack := s.stack.extend [⟨.i32, some s.builder.values.size⟩] })
      fun e _ => e = .broken .arenaExhausted ∧ arenaLimit ≤ s.builder.values.size := by
  have added : Ends (Ssa.Builder.constant s.current .i32 0) s.builder
      (fun id b => s.builder.values.size < arenaLimit ∧ id = s.builder.values.size ∧
        b = s.builder.appended s.current ⟨.i32, some s.current, .constant 0⟩)
      fun e _ => e = .broken .arenaExhausted ∧ arenaLimit ≤ s.builder.values.size := by
    have checked : Ssa.Builder.checkBlock s.current s.builder = .ok () s.builder := by
      simp [Ssa.Builder.checkBlock, closable.inside]
    refine ends_bind_of_ok checked ?_
    simp only [Ssa.Builder.append, Ssa.Builder.addValue, Ssa.Builder.modifyBlock, ends_bind, ends_get,
      ends_maintain, ends_modify, ends_pure]
    exact ⟨fun room => ⟨room, trivial, rfl⟩, fun full => ⟨trivial, Nat.le_of_not_lt full⟩⟩
  refine ends_bind_of_ok rfl ?_
  rw [ends_bind]
  refine ends_within.mpr (added.imp ?_)
  rintro _ _ ⟨room, rfl, rfl⟩
  exact ⟨room, rfl⟩

theorem fetched (closable : s.Closable frame exit) (c : Cursor) : (s.fetched c).Closable frame exit :=
  { closable with }

theorem walk_constant (closable : s.Closable frame exit) (room : s.builder.values.size < arenaLimit)
    (next : s.cursor.rest = constantPiece.bytes ++ rest) :
    LineWalk setting s [constantPiece] { s.filled rest with
      stack := s.stack.extend [⟨.i32, some s.builder.values.size⟩] } := by
  have ends := (closable.fetched ⟨s.cursor.offset + 2, rest⟩).constant_ends setting
  cases executed : execute setting (.constant .i32 0) (s.fetched ⟨s.cursor.offset + 2, rest⟩) with
  | error e u => exact absurd (ends.of_error executed).2 (Nat.not_le.mpr room)
  | ok _ u =>
    obtain ⟨_, rfl⟩ := ends.of_ok executed
    exact walk_of_piece closable.control_ne next rfl (by decide) executed rfl rfl

end State.Closable

theorem pop_extend (stack : TypedStack) (o : Operand) (bounded : stack.floor ≤ stack.height) :
    TypedStack.pop (stack.extend [o]) = .ok o stack := by
  have above : (stack.extend [o]).height ≠ (stack.extend [o]).floor := by
    have height : (stack.extend [o]).height = stack.height + 1 := Array.size_push ..
    have floor : (stack.extend [o]).floor = stack.floor := rfl
    omega
  rw [TypedStack.pop_ok, if_neg above]
  simp [TypedStack.extend]

theorem walk_drop (isOpen : s.control ≠ #[]) (bounded : s.stack.floor ≤ s.stack.height) (o : Operand)
    (next : s.cursor.rest = dropPiece.bytes ++ rest) :
    LineWalk setting { s with stack := s.stack.extend [o] } [dropPiece]
      (s.fetched ⟨s.cursor.offset + 1, rest⟩) := by
  refine walk_of_piece isOpen next rfl (by decide) ?_ rfl rfl
  exact bind_ok.mpr ⟨o, _, onStack_ok.mpr ⟨s.stack, pop_extend s.stack o bounded, rfl⟩, rfl⟩

namespace State.Closable

theorem fill (closable : s.Closable frame exit) (room : s.builder.values.size < arenaLimit)
    (next : s.cursor.rest = constantPiece.bytes ++ (dropPiece.bytes ++ rest)) :
    ∃ t, LineWalk setting s [constantPiece, dropPiece] t ∧ t.Closable frame exit ∧
      t.builder.values.size = s.builder.values.size + 1 ∧ t.cursor.rest = rest := by
  have first := @walk_constant setting (dropPiece.bytes ++ rest) s frame exit closable room next
  have second := @walk_drop setting rest (s.filled (dropPiece.bytes ++ rest)) closable.control_ne
    (Nat.le_of_eq closable.emptied.symm) ⟨.i32, some s.builder.values.size⟩ rfl
  refine ⟨_, first.append second, { closable with inside := ?_, present := ?_ }, ?_, rfl⟩
  · change s.current < (s.builder.appended _ _).blocks.size
    simpa [Ssa.Builder.appended] using closable.inside
  · change (s.builder.appended _ _).blocks[frame.target]? = some exit
    rw [Ssa.Builder.appended, Ssa.Builder.block_onBlock, if_neg (Ne.symm closable.apart)]
    exact closable.present
  · change (s.builder.appended _ _).values.size = _
    simp [Ssa.Builder.appended]

theorem walk_fillers (closable : s.Closable frame exit) (room : s.builder.values.size + n ≤ arenaLimit)
    (next : s.cursor.rest = join (fillers n) ++ rest) :
    ∃ t, LineWalk setting s (fillers n) t ∧ t.Closable frame exit ∧
      t.builder.values.size = s.builder.values.size + n ∧ t.cursor.rest = rest := by
  -- A constant and its drop take one id and leave the operands as they were.
  induction n generalizing s with
  | zero => exact ⟨s, .here s, closable, rfl, next⟩
  | succ n ih =>
    have split : s.cursor.rest =
        constantPiece.bytes ++ (dropPiece.bytes ++ (join (fillers n) ++ rest)) := by
      simp only [next, fillers, Encoding.join_cons, List.append_assoc]
    obtain ⟨u, first, closable', count, next'⟩ := @fill setting _ _ _ _ closable (by omega) split
    obtain ⟨t, later, closed, total, last⟩ := ih closable' (by omega) next'
    exact ⟨t, first.append later, closed, by omega, last⟩

theorem close (closable : s.Closable frame exit) (next : s.cursor.rest = endPiece.bytes) :
    ∃ t, LineWalk setting s [endPiece] t ∧ t.control = #[] ∧ t.cursor.rest = [] := by
  have innermost : (s.fetched ⟨s.cursor.offset + 1, []⟩).frame? 0 = some frame := by
    rw [State.frame?_eq, State.frames, (closable.fetched _).control]
    rfl
  have exactly : s.stack.holdsExactly [] = true := by
    simp [TypedStack.holdsExactly, TypedStack.available, closable.emptied, TypedStack.accepts,
      TypedStack.fits]
  have connected := Ssa.Builder.connect_bare closable.inside closable.present closable.isOpen closable.bare
  have present : (s.builder.onBlock frame.target fun k =>
      { k with predecessors := k.predecessors.push ⟨s.current, []⟩ }).blocks[frame.target]? =
        some { exit with predecessors := exit.predecessors.push ⟨s.current, []⟩ } := by
    rw [Ssa.Builder.block_onBlock, if_pos rfl, closable.present, Option.map_some]
  obtain ⟨b, closed⟩ :=
    Ssa.Builder.sealBlock_bare present closable.isOpen closable.bare closable.still
  have executed : execute setting .close (s.fetched ⟨s.cursor.offset + 1, []⟩) =
      .ok () { s.fetched ⟨s.cursor.offset + 1, []⟩ with
        stack := s.stack.without [], builder := b, control := s.control.pop } := by
    refine bind_ok.mpr ⟨frame, _, innermost_ok.mpr ⟨innermost, rfl⟩, ?_⟩
    simp only [closable.construct]
    rw [closable.results]
    exact bind_ok.mpr ⟨[], _, takeAll_ok.mpr ⟨exactly, s.builder, rfl, rfl⟩,
      bind_ok.mpr ⟨(), _, branchTo_ok.mpr ⟨_, connected, rfl⟩,
        bind_ok.mpr ⟨(), _, onBuilder_ok.mpr ⟨b, closed, rfl⟩, popFrame_ok.mpr rfl⟩⟩⟩
  refine ⟨_, walk_of_piece closable.control_ne (next.trans (List.append_nil _).symm) rfl (by decide)
    executed rfl rfl, ?_, rfl⟩
  simp [closable.control]

end State.Closable

theorem LineWalk.followed (walk : LineWalk setting s front t) (ahead : t.cursor.rest ≠ []) (extra : List UInt8) :
    LineWalk setting (s.followed extra) front (t.followed extra) := by
  induction walk with
  | here s => exact .here _
  | @step s u t p header front isOpen ok isHeader consumes walk ih =>
    have further : u.cursor.rest ≠ [] := by simp [walk.consumes.rest, ahead]
    refine .step isOpen (step_followed ok (fun _ => further) extra) isHeader ⟨?_, consumes.offset,
      consumes.decoded⟩ (ih ahead)
    change s.cursor.rest ++ extra = _ ++ (u.cursor.rest ++ extra)
    rw [consumes.rest, List.append_assoc]

theorem walk_of_stateAfter (after : stateAfter setting bytes n = some t) :
    ∃ s pieces, openFunction setting.context (initial bytes) = .ok () s ∧ LineWalk setting s pieces t := by
  induction n generalizing t with
  | zero =>
      unfold stateAfter at after
      split at after
      · rename_i opened
        cases after
        exact ⟨_, [], opened, .here _⟩
      · cases after
  | succ n ih =>
      rw [stateAfter] at after
      obtain ⟨u, before, after⟩ := Option.bind_eq_some_iff.mp after
      obtain ⟨s, pieces, opened, walk⟩ := ih before
      split at after
      · cases after
      · rename_i isOpen
        split at after
        · rename_i stepped
          cases after
          obtain ⟨_, _, _, _, _, _, _, _, isHeader, consumes⟩ := step_consumes stepped
          exact ⟨s, _, opened, walk.append (.step (mt Array.isEmpty_iff.mpr isOpen) stepped isHeader
            consumes (.here _))⟩
        · cases after

/-- Whether a closable state comes after so many values and in front of one more constant for nothing. -/
def State.awaitsEnd (s : State) (made : Nat) : Bool :=
  s.isClosable && s.builder.values.size = made && s.cursor.rest = join (fillers 1)

/-- With constants for nothing in front of its end, a body without results is accepted just as long as
there are ids for them. -/
theorem padded (opened : openFunction context (initial (bytes ++ join (fillers 1))) = .ok () s)
    (walk : LineWalk ⟨context, true⟩ s front t) (awaits : t.awaitsEnd made = true)
    (bounded : made ≤ arenaLimit) (n : Nat) :
    (made + (n + 1) ≤ arenaLimit →
      ∃ valid, validate context (bytes ++ join (fillers (n + 1) ++ [endPiece])) = .ok valid) ∧
    (arenaLimit < made + (n + 1) →
      validate context (bytes ++ join (fillers (n + 1) ++ [endPiece])) =
        .error (.broken .arenaExhausted)) := by
  obtain ⟨⟨isClosable, rfl⟩, next⟩ : (t.isClosable = true ∧ t.builder.values.size = made) ∧
      t.cursor.rest = join (fillers 1) := by
    simpa [State.awaitsEnd] using awaits
  obtain ⟨frame, exit, closable⟩ := closable_of_isClosable isClosable
  have whole : bytes ++ join (fillers (n + 1) ++ [endPiece]) =
      bytes ++ join (fillers 1) ++ (join (fillers n) ++ endPiece.bytes) := by
    rw [Nat.add_comm, fillers_add]
    simp only [Encoding.join_append, Encoding.join_cons, Encoding.join_nil, List.append_nil,
      List.append_assoc]
  rw [whole]
  have opened' := openFunction_followed opened (join (fillers n) ++ endPiece.bytes)
  have walk' := walk.followed (by rw [next]; exact List.cons_ne_nil _ _) (join (fillers n) ++ endPiece.bytes)
  have closable' : (t.followed (join (fillers n) ++ endPiece.bytes)).Closable frame exit :=
    { closable with }
  have next' : (t.followed (join (fillers n) ++ endPiece.bytes)).cursor.rest =
      join (fillers (n + 1)) ++ endPiece.bytes := by
    change t.cursor.rest ++ _ = _
    rw [next, Nat.add_comm, fillers_add, Encoding.join_append, List.append_assoc]
  constructor
  · intro room
    obtain ⟨u, filled, closable, _, last⟩ := closable'.walk_fillers room next'
    obtain ⟨v, ended, closed, nothing⟩ := closable.close last
    exact ⟨_, validateWith_of_walk opened' (walk'.append (filled.append ended)) closed nothing⟩
  · intro full
    -- the first constant that finds the arena full
    obtain ⟨m, size⟩ := Nat.exists_eq_add_of_le bounded
    obtain ⟨k, rfl⟩ : ∃ k, n = m + k := Nat.exists_eq_add_of_le (by omega)
    have split : fillers (m + k + 1) = fillers m ++ constantPiece :: dropPiece :: fillers k := by
      rw [Nat.add_assoc, fillers_add, fillers]
    rw [split, Encoding.join_append, List.append_assoc] at next'
    obtain ⟨u, filled, closable, count, next⟩ := closable'.walk_fillers (Nat.le_of_eq size.symm) next'
    rw [Encoding.join_cons, List.append_assoc] at next
    have decoded : Decode.instruction (scopeOf ⟨context, true⟩ u) u.cursor = .ok (.constant .i32 0) _ :=
      instruction_of_piece next rfl (by decide)
    have ends := ends_step decoded ((closable.fetched _).constant_ends ⟨context, true⟩)
    cases failed : step ⟨context, true⟩ u with
    | ok _ v =>
      have room := (ends.of_ok failed).1
      exact absurd (count.trans size.symm) (Nat.ne_of_lt room)
    | error e v =>
      obtain ⟨rfl, _⟩ := ends.of_error failed
      have refused := body_of_failure opened' (walk'.append filled) closable.control_ne failed
      simp only [validate, validateWith, refused]

theorem padded_bare (n : Nat) :
    (n + 1 ≤ arenaLimit →
      ∃ valid, validate bareContext ([0x00] ++ join (fillers (n + 1) ++ [endPiece])) = .ok valid) ∧
    (arenaLimit < n + 1 →
      validate bareContext ([0x00] ++ join (fillers (n + 1) ++ [endPiece])) =
        .error (.broken .arenaExhausted)) := by
  obtain ⟨t, after, awaits⟩ : ∃ t, stateAfter ⟨bareContext, true⟩ ([0x00] ++ join (fillers 1)) 0 =
      some t ∧ t.awaitsEnd 0 = true := (Option.any_eq_true ..).mp (by decide +kernel)
  obtain ⟨s, front, opened, walk⟩ := walk_of_stateAfter after
  simpa using padded opened walk awaits (Nat.zero_le _) n

end Validation

end WasmFunclets
