import WasmFunclets.Proofs.Alternative
import WasmFunclets.Proofs.Calls
import WasmFunclets.Proofs.Openings

/-! The stack machine runs accepted bodies without a flaw: every step takes it from a point that
the validation found to another one. -/

namespace WasmFunclets

namespace Machine

open Validation Attempt

variable {V : Type} {p : Program V} {setting : Setting} {states : Nat → State} {c d : Config V}
variable {cursor : Cursor} {u v w : State}

theorem Live.goOn (described : Described p setting states) (live : Live p states c)
    (quiet : Quiet ((states c.pc).fetched cursor) (states (c.pc + 1))) (beside : Beside c d)
    (agrees : Agrees d (states (c.pc + 1)).stack) : Live p states d.next := by
  obtain ⟨pc, stack, locals, labels, history⟩ := d
  obtain ⟨rfl, rfl, types⟩ := beside
  have same := quiet.layers.length_eq
  change (states c.pc).layers.length = (states (c.pc + 1)).layers.length at same
  have some_ := (live.mid.framed described).nested.ne_nil
  refine live.mid.arrive (e := 0) described live.inside ?_ rfl same.symm ?_
    (types.trans live.locals) agrees.types agrees.known agrees.finite
  · intro empty
    change (states (c.pc + 1)).layers = [] at empty
    rw [empty, List.length_nil] at same
    exact some_ (List.eq_nil_of_length_eq_zero same)
  · intro m from_ upto
    change min (c.pc + 1) c.pc ≤ m at from_
    change m ≤ max (c.pc + 1) c.pc at upto
    change (states (c.pc + 1)).layers.length ≤ _
    rcases (by omega : m = c.pc ∨ m = c.pc + 1) with rfl | rfl
    · exact Nat.le_of_eq same.symm
    · exact Nat.le_refl _

theorem Live.proceed (described : Described p setting states) (live : Live p states c)
    (quiet : Quiet ((states c.pc).fetched cursor) (states (c.pc + 1)))
    {result : Except Flaw (Outcome V)}
    (proceeds : RunsOn c (states (c.pc + 1)).stack result) : LiveOrEnded p states result := by
  obtain ⟨d, rfl, beside, agrees⟩ := proceeds
  exact live.goOn described quiet beside agrees

theorem Live.middle (live : Live p states c)
    (quiet : Quiet ((states c.pc).fetched cursor) u) (beside : Beside c d)
    (agrees : Agrees d u.stack) : Mid p states d := live.mid_of beside agrees quiet.stack

theorem Quiet.frame? {s t : State} (quiet : Quiet s t) (depth : Nat) :
    t.frame? depth = s.frame? depth := by
  rw [State.frame?_eq, quiet.frames, State.frame?_eq]

theorem Live.branch (described : Described p setting states) (live : Live p states c)
    (quiet : Quiet ((states c.pc).fetched cursor) u) (beside : Beside c d)
    (agrees : Agrees d u.stack) {depth : Nat} {frame : Frame} (found : u.frame? depth = some frame)
    (accepted : u.stack.accepts frame.labelTypes = true) :
    LiveOrEnded p states (p.branch depth d) := by
  refine (live.middle quiet beside agrees).branch described ?_ agrees accepted
  rw [beside.pc, ← found, Quiet.frame? quiet]
  rfl

theorem br_sound (described : Described p setting states) (live : Live p states c) {depth : Nat}
    (ok : br setting depth ((states c.pc).fetched cursor) = .ok () (states (c.pc + 1))) :
    LiveOrEnded p states (p.branch depth c) := by
  obtain ⟨frame, _, looked, ok⟩ := bind_ok.mp ok
  obtain ⟨found, rfl⟩ := labelled_ok.mp looked
  obtain ⟨_, _, shared, _⟩ := bind_ok.mp ok
  obtain ⟨accepted, _⟩ := shareValues_ok.mp shared
  exact live.branch described (.refl live.agrees.above) (.refl c) live.agrees found accepted

theorem brIf_sound (described : Described p setting states) (live : Live p states c) (decision : Nat)
    {depth : Nat}
    (ok : brIf depth ((states c.pc).fetched cursor) = .ok () (states (c.pc + 1))) :
    LiveOrEnded p states (do
      let c ← p.condition c Opcode.brIfByte depth
      if decision = 0 then return .running c.next else p.branch depth c) := by
  have framed := (live.mid.framed described).fetched cursor
  have quiet := (brIf_staysInFrame depth).quiet framed ok
  obtain ⟨value, u, taken, ok⟩ := bind_ok.mp ok
  obtain ⟨d, stated, beside, agrees⟩ := condition_agrees (p := p)
    (s := (states c.pc).fetched cursor) Opcode.brIfByte depth live.agrees taken
  have before := (takeValue_staysInFrame _).quiet framed taken
  obtain ⟨frame, _, looked, ok⟩ := bind_ok.mp ok
  obtain ⟨found, rfl⟩ := labelled_ok.mp looked
  obtain ⟨args, v, shared, ok⟩ := bind_ok.mp ok
  obtain ⟨accepted, _⟩ := shareValues_ok.mp shared
  have same := shareValues_agrees agrees shared
  obtain ⟨_, w, emitted, ok⟩ := bind_ok.mp ok
  obtain ⟨_, _, connected, ok⟩ := bind_ok.mp ok
  obtain ⟨b, _, rfl⟩ := branchTo_ok.mp connected
  obtain ⟨block, b', _, later⟩ := followBlock_ok.mp (fallThrough_ok.mp ok)
  have stack : (states (c.pc + 1)).stack = v.stack := by
    rw [← later, ← emitStatement_stack emitted]
  rw [stated]
  change LiveOrEnded p states (if decision = 0 then _ else _)
  split
  · exact live.goOn described quiet beside (stack ▸ same)
  · exact live.branch described before beside agrees found accepted

/-- Every label that a table lists is one that the validation knows. -/
theorem brTargets_known {expected : List ValueType} {depths : List Nat}
    {seen : Std.HashSet BlockId} (agrees : Agrees d u.stack)
    (ok : brTargets expected depths seen u = .ok () v) :
    ∀ depth ∈ depths, ∃ frame s, u.frame? depth = some frame ∧ Agrees d s ∧
      s.accepts frame.labelTypes = true := by
  induction depths generalizing u seen with
  | nil => simp
  | cons first rest ih =>
      obtain ⟨frame, _, looked, ok⟩ := bind_ok.mp ok
      obtain ⟨found, rfl⟩ := labelled_ok.mp looked
      obtain ⟨_, _, required, ok⟩ := bind_ok.mp ok
      obtain ⟨_, rfl⟩ := require_ok.mp required
      obtain ⟨args, w, shared, ok⟩ := bind_ok.mp ok
      have same := shareValues_agrees agrees shared
      obtain ⟨accepted, b, _, rfl⟩ := shareValues_ok.mp shared
      have later : ∃ b', brTargets expected rest (seen.insert frame.target)
          { u with
            stack := (u.stack.without frame.labelTypes).extend (operandsOf frame.labelTypes args)
            builder := b' } = .ok () v := by
        split at ok
        · exact ⟨b, ok⟩
        · obtain ⟨_, x, connected, ok⟩ := bind_ok.mp ok
          obtain ⟨b', _, rfl⟩ := branchTo_ok.mp connected
          exact ⟨b', ok⟩
      obtain ⟨b', ok⟩ := later
      intro depth member
      rcases List.mem_cons.mp member with rfl | later
      · exact ⟨frame, u.stack, found, agrees, accepted⟩
      · exact ih (u := { u with
          stack := (u.stack.without frame.labelTypes).extend (operandsOf frame.labelTypes args)
          builder := b' }) same ok depth later

theorem brTable_sound (described : Described p setting states) (live : Live p states c)
    (decision : Nat) {depths : List Nat} {default : Nat}
    (ok : brTable setting depths default ((states c.pc).fetched cursor) =
      .ok () (states (c.pc + 1))) :
    LiveOrEnded p states (do
      let c ← p.condition c Opcode.brTableByte depths.length
      p.branch (depths[decision]?.getD default) c) := by
  have framed := (live.mid.framed described).fetched cursor
  obtain ⟨value, u, taken, ok⟩ := bind_ok.mp ok
  have before := (takeValue_staysInFrame _).quiet framed taken
  obtain ⟨d, stated, beside, agrees⟩ := condition_agrees (p := p)
    (s := (states c.pc).fetched cursor) Opcode.brTableByte depths.length live.agrees taken
  obtain ⟨_, v, emitted, ok⟩ := bind_ok.mp ok
  have quiet := before.trans ((emitStatement_staysInFrame _ _ _).quiet (framed.quiet before) emitted)
  obtain ⟨frame, _, looked, ok⟩ := bind_ok.mp ok
  obtain ⟨_, rfl⟩ := labelled_ok.mp looked
  obtain ⟨_, _, listed, _⟩ := bind_ok.mp ok
  rw [← emitStatement_stack emitted] at agrees
  have member : depths[decision]?.getD default ∈ depths ++ [default] := by
    cases present : depths[decision]? with
    | none => simp
    | some depth => simp [List.mem_of_getElem? present]
  obtain ⟨target, s, found, same, accepted⟩ := brTargets_known agrees listed _ member
  rw [stated]
  change LiveOrEnded p states (p.branch _ d)
  refine (live.middle quiet beside agrees).branch described ?_ same accepted
  rw [beside.pc, ← found, Quiet.frame? quiet]
  rfl

theorem Live.function (described : Described p setting states) (live : Live p states c)
    {function : Frame} (present : (states c.pc).control[0]? = some function) :
    function.construct = .function ∧ (states c.pc).frame? (c.labels.length - 1) = some function ∧
      ∃ l, (states c.pc).layers.drop (c.labels.length - 1) = [l] ∧ l.frame = function := by
  obtain ⟨l, last, construct⟩ := Nested.last (live.mid.framed described).nested
  have size : c.labels.length = (states c.pc).layers.length := live.labelled.length
  have frames : (states c.pc).frames.drop (c.labels.length - 1) = [l.frame] := by
    rw [← State.map_frame_layers, ← List.map_drop, size, last, List.map_singleton]
  have found : (states c.pc).frame? (c.labels.length - 1) = some l.frame := by
    rw [State.frame?_eq, ← List.head?_drop, frames, List.head?_cons]
  have same : l.frame = function := by
    have whole : c.labels.length = (states c.pc).control.size :=
      size.trans (states c.pc).layers_length
    have first := found
    rw [State.frame?] at first
    split at first
    · rw [whole, Nat.sub_self] at first
      exact Option.some.inj (first.symm.trans present)
    · cases first
  exact ⟨same ▸ construct, same ▸ found, l, size ▸ last, same⟩

theorem ret_sound (described : Described p setting states) (live : Live p states c)
    (ok : ret setting ((states c.pc).fetched cursor) = .ok () (states (c.pc + 1))) :
    LiveOrEnded p states (p.branch (c.labels.length - 1) c) := by
  rw [ret, get_bind_ok] at ok
  cases present : ((states c.pc).fetched cursor).control[0]? with
  | none => simp [present] at ok
  | some function =>
      simp only [present, get_bind_ok] at ok
      obtain ⟨_, _, shared, _⟩ := bind_ok.mp ok
      obtain ⟨accepted, _⟩ := shareValues_ok.mp shared
      obtain ⟨construct, found, _⟩ := live.function described present
      refine live.branch (u := (states c.pc).fetched cursor) described (.refl live.agrees.above)
        (.refl c) live.agrees found ?_
      rw [Frame.labelTypes, construct]
      exact accepted

theorem endBlock_shift {s t : State} (framed : Framed s) (ok : endBlock setting s = .ok () t) :
    Shift s .unreachable t :=
  (endBlock_moves framed (.refl framed.above) (by simp) ok
    (fun _ _ _ nests => by rw [nests]; rfl) fun _ nests => by rw [nests]; rfl).shift

theorem gathered_ok {f : List Operand → Bool → Step Unit} {s t : State}
    (ok : (do
      let args ← regionOperands
      let polymorphic ← operandsUnreachable
      f args polymorphic : Step Unit) s = .ok () t) :
    ∃ args polymorphic, regionOperands s = .ok args s ∧
      operandsUnreachable s = .ok polymorphic s ∧ f args polymorphic s = .ok () t := by
  obtain ⟨args, u, operands, later⟩ := bind_ok.mp ok
  obtain ⟨_, _, _, rfl⟩ := regionOperands_ok.mp operands
  obtain ⟨polymorphic, v, unreachable, last⟩ := bind_ok.mp later
  obtain ⟨_, _, _, rfl⟩ := operandsUnreachable_ok.mp unreachable
  exact ⟨args, polymorphic, operands, unreachable, last⟩

theorem funcletCall_sound (described : Described p setting states) (live : Live p states c)
    {index : Nat}
    (ok : funcletCall setting index ((states c.pc).fetched cursor) = .ok () (states (c.pc + 1))) :
    LiveOrEnded p states (p.transfer index (p.state c Opcode.funcletCallByte [] index)) := by
  have framed := (live.mid.framed described).fetched cursor
  obtain ⟨_, u, emitted, ok⟩ := bind_ok.mp ok
  have quiet := (emitStatement_staysInFrame _ _ _).quiet framed emitted
  obtain ⟨args, polymorphic, operands, unreachable, ok⟩ := gathered_ok ok
  obtain ⟨_, v, transferred, ended⟩ := bind_ok.mp ok
  have inner := framed.quiet quiet
  have outer := inner.quiet ((transferTo_staysInFrame _ _ _).quiet inner transferred)
  have agrees : Agrees (p.state c Opcode.funcletCallByte [] index) u.stack := by
    rw [emitStatement_stack emitted]
    exact live.agrees.history _
  have beside : Beside c (p.state c Opcode.funcletCallByte [] index) := ⟨rfl, rfl, rfl⟩
  exact (live.middle quiet beside agrees).call described quiet agrees operands unreachable
    (.refl inner.above) transferred (.refl outer.above) (endBlock_shift outer ended)

theorem funcletCallIf_sound (described : Described p setting states) (live : Live p states c)
    (decision : Nat) {index : Nat}
    (ok : funcletCallIf index ((states c.pc).fetched cursor) = .ok () (states (c.pc + 1))) :
    LiveOrEnded p states (do
      let c ← p.condition c Opcode.funcletCallIfByte index
      if decision = 0 then return .running c.next else p.transfer index c) := by
  have framed := (live.mid.framed described).fetched cursor
  have whole := (funcletCallIf_staysInFrame index).quiet framed ok
  obtain ⟨value, t, taken, ok⟩ := bind_ok.mp ok
  have before := (takeValue_staysInFrame _).quiet framed taken
  obtain ⟨d, stated, beside, agrees⟩ := condition_agrees (p := p)
    (s := (states c.pc).fetched cursor) Opcode.funcletCallIfByte index live.agrees taken
  obtain ⟨_, u, emitted, ok⟩ := bind_ok.mp ok
  have quiet := before.trans ((emitStatement_staysInFrame _ _ _).quiet (framed.quiet before) emitted)
  rw [← emitStatement_stack emitted] at agrees
  obtain ⟨args, polymorphic, operands, unreachable, ok⟩ := gathered_ok ok
  obtain ⟨_, v, transferred, passed⟩ := bind_ok.mp ok
  have inner := framed.quiet quiet
  have outer := inner.quiet ((transferTo_staysInFrame _ _ _).quiet inner transferred)
  rw [stated]
  change LiveOrEnded p states (if decision = 0 then _ else _)
  split
  · refine live.goOn described whole beside ?_
    obtain ⟨r, rest, regions⟩ : ∃ r rest, u.regions = r :: rest := by
      obtain ⟨r, head, _⟩ := regionOperands_ok.mp operands
      cases open_ : u.regions with
      | nil => simp [open_] at head
      | cons r rest => exact ⟨r, rest, rfl⟩
    obtain ⟨_, _, same, _⟩ :=
      transferTo_callsAdded regions (inner.settled r (by rw [regions]; exact List.mem_cons_self))
        transferred
    obtain ⟨block, b, _, later⟩ := followBlock_ok.mp (fallThrough_ok.mp passed)
    have stack : (states (c.pc + 1)).stack = u.stack := by rw [← later, same]
    rw [stack]
    exact agrees
  · have quiet' := fallThrough_staysInFrame.quiet outer passed
    exact (live.middle quiet beside agrees).call described (beside.pc ▸ quiet) agrees operands
      unreachable (.refl inner.above) transferred quiet'
      (i := .nop) (by rw [beside.pc]; exact .stays (.refl (outer.quiet quiet').above) (by simp))

/-- Every target that a table lists is called at some point. -/
theorem callTargets_split {args : List Operand} {polymorphic : Bool} {targets : List Nat}
    {seen : Std.HashSet Nat} (ok : callTargets args polymorphic targets seen u = .ok () w) :
    ∀ target ∈ targets, seen.contains target = false → ∃ front rest seen' u' v,
      callTargets args polymorphic front seen u = .ok () u' ∧
      transferTo target args polymorphic u' = .ok () v ∧
      callTargets args polymorphic rest seen' v = .ok () w := by
  induction targets generalizing u seen with
  | nil => simp
  | cons first rest ih =>
      intro target member unseen
      have deeper {v : State} (ok : callTargets args polymorphic rest (seen.insert first) v = .ok () w)
          (started : ∀ front u', callTargets args polymorphic front (seen.insert first) v = .ok () u' →
            callTargets args polymorphic (first :: front) seen u = .ok () u')
          (other : first ≠ target) : ∃ front rest seen' u' v,
            callTargets args polymorphic front seen u = .ok () u' ∧
            transferTo target args polymorphic u' = .ok () v ∧
            callTargets args polymorphic rest seen' v = .ok () w := by
        obtain ⟨front, back, seen', u', v', before, called, behind⟩ :=
          ih ok target ((List.mem_cons.mp member).resolve_left (Ne.symm other)) (by
            rw [Std.HashSet.contains_insert, unseen, Bool.or_false, beq_eq_false_iff_ne]
            exact other)
        exact ⟨first :: front, back, seen', u', v', started front u' before, called, behind⟩
      rw [callTargets] at ok
      split at ok
      · -- The first target has been called before.
        rename_i known
        refine deeper ok (fun front u' before => ?_) ?_
        · rw [callTargets, if_pos known]
          exact before
        · rintro rfl
          rw [known] at unseen
          cases unseen
      · rename_i fresh
        obtain ⟨_, v, transferred, ok⟩ := bind_ok.mp ok
        by_cases same : first = target
        · subst same
          exact ⟨[], rest, _, u, v, rfl, transferred, ok⟩
        · refine deeper ok (fun front u' before => ?_) same
          rw [callTargets, if_neg fresh]
          exact bind_ok.mpr ⟨(), v, transferred, before⟩

theorem funcletCallTable_sound (described : Described p setting states) (live : Live p states c)
    (decision : Nat) {targets : List Nat} {default : Nat}
    (ok : funcletCallTable setting targets default ((states c.pc).fetched cursor) =
      .ok () (states (c.pc + 1))) :
    LiveOrEnded p states (do
      let c ← p.condition c Opcode.funcletCallTableByte targets.length
      p.transfer (targets[decision]?.getD default) c) := by
  have framed := (live.mid.framed described).fetched cursor
  obtain ⟨value, t, taken, ok⟩ := bind_ok.mp ok
  have before := (takeValue_staysInFrame _).quiet framed taken
  obtain ⟨d, stated, beside, agrees⟩ := condition_agrees (p := p)
    (s := (states c.pc).fetched cursor) Opcode.funcletCallTableByte targets.length live.agrees taken
  obtain ⟨_, u, emitted, ok⟩ := bind_ok.mp ok
  have quiet := before.trans ((emitStatement_staysInFrame _ _ _).quiet (framed.quiet before) emitted)
  rw [← emitStatement_stack emitted] at agrees
  obtain ⟨args, polymorphic, operands, unreachable, ok⟩ := gathered_ok ok
  obtain ⟨_, w, listed, ended⟩ := bind_ok.mp ok
  have inner := framed.quiet quiet
  have outer := inner.quiet ((callTargets_staysInFrame _ _ _ _).quiet inner listed)
  have member : targets[decision]?.getD default ∈ targets ++ [default] := by
    cases present : targets[decision]? with
    | none => simp
    | some target => simp [List.mem_of_getElem? present]
  obtain ⟨front, rest, seen, u', v, first, transferred, later⟩ :=
    callTargets_split listed _ member (by simp)
  have before := (callTargets_staysInFrame _ _ _ _).quiet inner first
  have called := (inner.quiet before).quiet ((transferTo_staysInFrame _ _ _).quiet (inner.quiet before) transferred)
  rw [stated]
  change LiveOrEnded p states (p.transfer _ d)
  exact (live.middle quiet beside agrees).call described (beside.pc ▸ quiet) agrees operands
    unreachable before transferred ((callTargets_staysInFrame _ _ _ _).quiet called later)
    (beside.pc ▸ endBlock_shift outer ended)

theorem enter_sound (described : Described p setting states) (live : Live p states c)
    {i : Instruction} {signature : Signature} {frame : Frame} {target : Target}
    (moves : Moves ((states c.pc).fetched cursor) i (states (c.pc + 1)))
    (opening : Opening ((states c.pc).fetched cursor) (states (c.pc + 1)) (states c.pc).stack
      signature frame)
    (fits : TargetFits target frame.construct (c.pc + 1) (states c.pc).cursor.offset) :
    LiveOrEnded p states (do return .running (← Program.enter c signature target).next) := by
  obtain ⟨_, _, _, _, entered, _, _, later, _⟩ :=
    live.enter described moves opening (.refl c) live.agrees target fits
  rw [entered]
  exact later

theorem leave_at (c : Config V) (pc behind : Nat) :
    Program.leave { c with pc } behind = Program.leave c behind := by
  have taking (types : List ValueType) : ({ c with pc } : Config V).takeAll types =
      (c.takeAll types).map fun taken => (taken.1, { taken.2 with pc }) := by
    by_cases exactly : c.floor ≤ c.stack.length ∧ (c.stack.drop c.floor).map Typed.type = types
    · have here : ({ c with pc } : Config V).takeAll types = .ok _ := if_pos exactly
      have there : c.takeAll types = .ok _ := if_pos exactly
      rw [here, there]
      rfl
    · have here : ({ c with pc } : Config V).takeAll types = .error _ := if_neg exactly
      have there : c.takeAll types = .error _ := if_neg exactly
      rw [here, there]
      rfl
  obtain ⟨_, stack, locals, labels, history⟩ := c
  cases labels with
  | nil => rfl
  | cons label outer =>
      dsimp only at taking
      simp only [Program.leave, taking]
      generalize Config.takeAll _ label.signature.results = taken
      cases taken <;> rfl

theorem ifThen_sound (described : Described p setting states) (live : Live p states c)
    (decision : Nat) {signature : Signature}
    (moves : Moves ((states c.pc).fetched cursor) (.ifThen signature) (states (c.pc + 1)))
    (ok : openIf signature ((states c.pc).fetched cursor) = .ok () (states (c.pc + 1))) :
    LiveOrEnded p states (do
      let c ← p.condition c Opcode.ifThenByte 0
      if decision = 0 then p.skip c signature
      else return .running (← Program.enter c signature .behind).next) := by
  have framed := (live.mid.framed described).fetched cursor
  obtain ⟨value, u, frame, condition, params, taken, opening, construct⟩ := openIf_opening framed ok
  obtain ⟨d, stated, beside, agrees⟩ := condition_agrees (p := p)
    (s := (states c.pc).fetched cursor) Opcode.ifThenByte 0 live.agrees taken
  obtain ⟨l, e, layers, top, entered, same, typed, later, _⟩ :=
    live.enter described moves opening beside agrees .behind
      (by simp [TargetFits, construct])
  rw [stated]
  change LiveOrEnded p states (if decision = 0 then _ else _)
  split
  case isFalse =>
    rw [entered]
    exact later
  case isTrue =>
    have pc : e.next.pc = c.pc + 1 := by rw [Config.next, same]
    have isIf : l.frame.construct = .ifThen condition params := by rw [top, construct]
    have nested := (later.mid.framed described).nested
    rw [pc, layers] at nested
    have plain : l.region = none :=
      nested.plain_iff.mp fun isRegion => by cases isIf.symm.trans isRegion
    have inner := (live.mid.framed described).nested.ne_nil
    have skipped := later.skip described (k := c.pc) pc (by rw [pc]; exact layers) isIf plain inner
      rfl (by rw [top, opening.typed]; exact typed)
    rw [Config.next, leave_at] at skipped
    rw [Program.skip, entered]
    change LiveOrEnded p states (if p.instructionAt (p.alternative e.pc) = _ then _ else
      Program.leave e (p.alternative e.pc + 1))
    rw [same]
    exact skipped

theorem elseThen_sound (described : Described p setting states) (live : Live p states c)
    (ok : openElse ((states c.pc).fetched cursor) = .ok () (states (c.pc + 1))) :
    LiveOrEnded p states (Program.leave c (p.behind c.pc (c.labels.length - 1))) := by
  obtain ⟨frame, _, looked, ok⟩ := bind_ok.mp ok
  obtain ⟨found, rfl⟩ := innermost_ok.mp looked
  obtain ⟨l, outer, layers, rfl⟩ := layer_of_frame found
  change (states c.pc).layers = _ at layers
  have size : c.labels.length - 1 = outer.length := by
    rw [live.labelled.length, layers, List.length_cons]
    rfl
  cases construct : l.frame.construct with
  | ifThen condition params =>
      simp only [construct] at ok
      obtain ⟨_, _, taken, _⟩ := bind_ok.mp ok
      obtain ⟨holds, _⟩ := takeAll_ok.mp taken
      rw [size]
      exact live.mid.leave described layers (live.agrees.exactly holds)
  | _ => simp [construct] at ok

theorem Described.behind_end (described : Described p setting states) {k : Nat} {l : Layer}
    {outer : List Layer} (inside : k < p.code.length) (layers : (states k).layers = l :: outer)
    (low : (states (k + 1)).layers.length = outer.length) : p.behind k outer.length = k + 1 := by
  refine described.behind_eq (Nat.le_refl _) inside low fun m from_ upto => ?_
  obtain rfl := Nat.le_antisymm upto from_
  rw [layers]
  exact Nat.lt_succ_self _

theorem end_sound (described : Described p setting states) (live : Live p states c) {l : Layer}
    {outer : List Layer} (layers : (states c.pc).layers = l :: outer)
    (low : (states (c.pc + 1)).layers.length = outer.length)
    (holds : (states c.pc).stack.holdsExactly l.frame.signature.results = true) :
    LiveOrEnded p states (Program.leave c (c.pc + 1)) := by
  have left := live.mid.leave described layers (live.agrees.exactly holds)
  rwa [described.behind_end live.inside layers low] at left

theorem closeFunclet_sound (described : Described p setting states) (live : Live p states c)
    {l : Layer} {outer : List Layer} {r : OpenRegion}
    (layers : (states c.pc).layers = l :: outer) (region : l.region = some r)
    (moves : Moves ((states c.pc).fetched cursor) .close (states (c.pc + 1)))
    (ok : closeFunclet setting l.frame ((states c.pc).fetched cursor) =
      .ok () (states (c.pc + 1))) : LiveOrEnded p states (p.close c) := by
  have framed := (live.mid.framed described).fetched cursor
  have nest : (states c.pc).nests =
      .region r.graph.current r.graph.size :: outer.map Layer.nest := by
    rw [State.nests, layers, List.map_cons, Layer.nest, region]
  obtain ⟨q, _, opened, ok⟩ := bind_ok.mp ok
  obtain ⟨head, rfl⟩ := openRegion_ok.mp opened
  obtain rfl : r = q := by
    have regions := (live.mid.framed described).region_cons layers
    rw [region] at regions
    change (states c.pc).regions.head? = _ at head
    rw [regions] at head
    exact Option.some.inj head
  rw [Program.close, described.nestAt (Nat.le_of_lt live.inside), nest]
  dsimp only
  by_cases more : r.graph.current + 1 < r.graph.size
  · simp only [more, if_true] at ok ⊢
    obtain ⟨args, polymorphic, operands, unreachable, later⟩ := gathered_ok
      (f := fun args polymorphic => do
        transferTo (r.graph.current + 1) args polymorphic
        nextFunclet setting) ok
    obtain ⟨_, v, transferred, ended⟩ := bind_ok.mp later
    have quiet := (transferTo_staysInFrame _ _ _).quiet framed transferred
    have outside := framed.quiet quiet
    have nested := layers ▸ (live.mid.framed described).nested
    have frames : v.frames = l.frame :: outer.map Layer.frame := by
      rw [quiet.frames]
      exact Framed.frames_cons (s := (states c.pc).fetched cursor) layers
    obtain ⟨q, rest, regions, _⟩ := outside.region_on_top frames
      (nested.region_iff.mpr (by rw [region]; rfl))
    have shift := (nextFunclet_moves (i := .close) outside (.refl outside.above) frames
      (nested.region_iff.mpr (by rw [region]; rfl)) regions ended).1
    exact live.mid.call described (.refl framed.above) live.agrees operands unreachable
      (.refl framed.above) transferred (.refl outside.above) shift
  · simp only [more, if_false] at ok ⊢
    obtain ⟨results, _, taken, _⟩ := bind_ok.mp ok
    obtain ⟨holds, _⟩ := takeAll_ok.mp taken
    have low := congrArg List.length moves.nests
    change _ = (Nest.advance (states c.pc).nests _).length at low
    rw [nest, Nest.advance, Nest.nextFunclet, if_neg more, State.nests, List.length_map,
      List.length_map] at low
    exact end_sound described live layers low holds

theorem close_sound (described : Described p setting states) (live : Live p states c)
    (moves : Moves ((states c.pc).fetched cursor) .close (states (c.pc + 1)))
    (ok : close setting ((states c.pc).fetched cursor) = .ok () (states (c.pc + 1))) :
    LiveOrEnded p states (p.close c) := by
  obtain ⟨frame, _, looked, ok⟩ := bind_ok.mp ok
  obtain ⟨found, rfl⟩ := innermost_ok.mp looked
  obtain ⟨l, outer, layers, rfl⟩ := layer_of_frame found
  change (states c.pc).layers = _ at layers
  have nested := layers ▸ (live.mid.framed described).nested
  cases region : l.region with
  | some r =>
      have isRegion : l.frame.construct = .region := nested.region_iff.mpr (by rw [region]; rfl)
      simp only [isRegion] at ok
      exact closeFunclet_sound described live layers region moves ok
  | none =>
      have nest : (states c.pc).nests = .plain :: outer.map Layer.nest := by
        rw [State.nests, layers, List.map_cons, Layer.nest, region]
      have low := congrArg List.length moves.nests
      change _ = (Nest.advance (states c.pc).nests _).length at low
      rw [nest, Nest.advance, State.nests, List.length_map, List.length_map] at low
      -- Every other construct first takes its results.
      have holds : (states c.pc).stack.holdsExactly l.frame.signature.results = true := by
        have plain : l.frame.construct ≠ .region := by
          rw [Ne, nested.region_iff, region]
          simp
        cases construct : l.frame.construct with
        | region => exact absurd construct plain
        | _ =>
            simp only [construct] at ok
            obtain ⟨_, _, taken, _⟩ := bind_ok.mp ok
            exact (takeAll_ok.mp taken).1
      rw [Program.close, described.nestAt (Nat.le_of_lt live.inside), nest]
      exact end_sound described live layers low holds

/-- Where a validation opens a region, the machine enters it, and can call its first funclet there. -/
theorem Live.enterRegion (described : Described p setting states) (live : Live p states c)
    {signature : Signature} {funclets : Nat}
    (moves : Moves ((states c.pc).fetched cursor) (.funcletRegion signature funclets)
      (states (c.pc + 1)))
    (ok : funcletRegion setting signature funclets ((states c.pc).fetched cursor) =
      .ok () (states (c.pc + 1))) :
    ∃ l r label e, (states (c.pc + 1)).layers = l :: (states c.pc).layers ∧ l.region = some r ∧
      e = { c with labels := label :: c.labels } ∧
      Program.enter c signature (.funclets (c.pc + 1) (states c.pc).cursor.offset) = .ok e ∧
      Live p states e.next ∧ p.params r.offset 0 = some signature.params ∧
      (e.stack.drop l.frame.mark.height).map Typed.type = signature.params ∧ 0 < r.graph.size := by
  have framed := (live.mid.framed described).fetched cursor
  obtain ⟨frame, opening, construct⟩ := funcletRegion_opening framed ok
  obtain ⟨l, e, layers, top, entered, same, typed, later, label, shape, _⟩ :=
    live.enter described moves opening (.refl c) live.agrees
      (.funclets (c.pc + 1) (states c.pc).cursor.offset) ⟨construct, rfl, rfl⟩
  have pc : e.next.pc = c.pc + 1 := by rw [Config.next, same]
  have nested := (later.mid.framed described).nested
  rw [pc, layers] at nested
  have inside : c.pc + 1 < p.code.length := pc ▸ later.inside
  obtain ⟨r, region⟩ := Option.isSome_iff_exists.mp
    (nested.region_iff.mp (by rw [top, construct]))
  have opened : Course.OpenSince states (c.pc + 1) (states c.pc).layers.length (c.pc + 1) :=
    .here (by rw [layers, List.length_cons])
  obtain ⟨l', layers', _, _, _, first, _⟩ := described.course.started opened (Nat.le_of_lt inside)
  rw [layers] at layers'
  obtain ⟨rfl, _⟩ := List.cons.inj layers'
  obtain ⟨_, node, present, parameters⟩ := first r region
  -- What the region records of its first funclet.
  obtain ⟨t, taken⟩ := described.course.taken inside
  obtain ⟨g, keeps, _, all⟩ := described.course.recorded
    ((described.course.framed inside).fetched t) taken.moves.shift inside
    (m := (states c.pc).layers.length) (by
      change _ < (states (c.pc + 1)).layers.length
      rw [layers]
      exact Nat.lt_succ_self _) (by
      change lowest _ (states (c.pc + 1)).layers = _
      rw [layers, ← List.length_cons (a := l), lowest_length]) region
  obtain ⟨node', present', parameters'⟩ := keeps.params present parameters
  have known := all 0 node' _ present' parameters'
  rw [← described.params, top, opening.typed] at known
  have floor : e.floor = l.frame.mark.height := by
    have same := later.mid.floor
    rw [pc, (described.course.framed inside).floor l _ layers] at same
    exact same
  exact ⟨l, r, label, e, layers, region, shape, entered, later, known, floor ▸ typed,
    (Array.getElem?_eq_some_iff.mp present).1⟩

theorem funcletRegion_sound (described : Described p setting states) (live : Live p states c)
    {signature : Signature} {funclets : Nat}
    (moves : Moves ((states c.pc).fetched cursor) (.funcletRegion signature funclets)
      (states (c.pc + 1)))
    (ok : funcletRegion setting signature funclets ((states c.pc).fetched cursor) =
      .ok () (states (c.pc + 1))) :
    LiveOrEnded p states (do
      p.transfer 0 (← Program.enter c signature
        (.funclets (c.pc + 1) (states c.pc).cursor.offset)).next) := by
  obtain ⟨l, r, label, e, layers, region, rfl, entered, later, known, typed, within⟩ :=
    live.enterRegion described moves ok
  have split : (states (c.pc + 1)).layers = [] ++ l :: (states c.pc).layers := layers
  rw [entered]
  exact later.mid.transfer described split (by simp) region known typed within

theorem Live.local_typed (described : Described p setting states) (live : Live p states c)
    {slot : Nat} {type : ValueType}
    (known : (scopeOf setting (states c.pc)).locals[slot]? = some type) :
    (c.locals.map Typed.type)[slot]? = some type ∧ type ≠ .any := by
  have locals : p.locals[slot]? = some type := by
    change (states c.pc).builder.locals[slot]? = _ at known
    rw [described.course.locals (Nat.le_of_lt live.inside)] at known
    rw [described.locals, Array.getElem?_toList]
    exact known
  refine ⟨by rw [live.locals, locals], ?_⟩
  exact ValueType.ne_any (described.localsTyped type (List.mem_of_getElem? locals))

theorem Described.knowsGlobal (described : Described p setting states) {s : State} {opcode : UInt8}
    {params : List ValueType} {result : ValueType} {immediate : UInt64}
    (knows : Decode.Knows (scopeOf setting s) (.operation opcode params result immediate)) :
    p.knowsGlobal opcode immediate = true ∧ result ≠ .any := by
  obtain ⟨typed, global⟩ := knows
  constructor
  · rw [Program.knowsGlobal, described.context]
    split
    · exact decide_eq_true (global (.inl ‹_›))
    · exact decide_eq_true (global (.inr ‹_›))
    · rfl
  · rcases typed with rfl | isValue | ⟨g, member, rfl⟩
    · simp
    · exact ValueType.ne_any isValue
    · exact ValueType.ne_any (described.valueTyped.globals g member)

/-- A step leads to a point that the validation found, or ends without a flaw. -/
theorem execute_sound (described : Described p setting states) (live : Live p states c)
    {line : Located} (decision : Nat)
    (taken : Taken setting (states c.pc) line (states (c.pc + 1)) cursor) :
    LiveOrEnded p states (p.execute decision line c) := by
  obtain ⟨offset, instruction⟩ := line
  have framed := (live.mid.framed described).fetched cursor
  have ok := taken.executed
  have knows := taken.knows
  have moves := taken.moves
  have agrees : Agrees c ((states c.pc).fetched cursor).stack := live.agrees
  -- What stays in its frame goes on with the next instruction; only the others need the labels.
  cases instruction with
  | unreachable => trivial
  | nop =>
      have same : (states c.pc).fetched cursor = states (c.pc + 1) := (pure_ok.mp ok).2
      have quiet : Quiet ((states c.pc).fetched cursor) (states (c.pc + 1)) :=
        same ▸ .refl framed.above
      refine live.goOn described quiet (.refl c) ?_
      rw [← same]
      exact agrees
  | block signature =>
      obtain ⟨frame, opening, construct⟩ := openBlock_opening ok
      exact enter_sound described live moves opening (by simp [TargetFits, construct])
  | loop signature =>
      obtain ⟨frame, opening, construct⟩ := openLoop_opening framed ok
      exact enter_sound described live moves opening ⟨construct, rfl⟩
  | ifThen signature => exact ifThen_sound described live decision moves ok
  | elseThen => exact elseThen_sound described live ok
  | close => exact close_sound described live moves ok
  | br depth => exact br_sound described live ok
  | brIf depth => exact brIf_sound described live decision ok
  | brTable depths default => exact brTable_sound described live decision ok
  | ret => exact ret_sound described live ok
  | call index callee =>
      have present : p.context.functions[index]? = some callee := by
        rw [described.context]
        exact knows
      refine live.proceed described ((call_staysInFrame _ _).quiet framed ok) (call_runsOn agrees present ?_ ok)
      intro t member
      have typed := described.valueTyped.functions callee
        (by rw [← described.context]; exact Array.mem_of_getElem? present)
      exact ValueType.ne_any (typed t (List.mem_append_right _ member))
  | drop =>
      obtain ⟨operand, u, popped, rest⟩ := bind_ok.mp ok
      have same : u = states (c.pc + 1) := (pure_ok.mp rest).2
      subst same
      obtain ⟨dropped, later, _⟩ := drop_proceeds agrees popped
      change LiveOrEnded p states (do return .running (← c.drop).next)
      rw [dropped]
      exact live.goOn described (drop_staysInFrame.quiet framed ok) ⟨rfl, rfl, rfl⟩ later
  | select =>
      exact live.proceed described (select_staysInFrame.quiet framed ok) (select_runsOn agrees ok)
  | selectTyped type =>
      exact live.proceed described ((selectTyped_staysInFrame _).quiet framed ok)
        (selectTyped_runsOn agrees (ValueType.ne_any knows) ok)
  | localGet slot type =>
      obtain ⟨typed, known⟩ := live.local_typed described knows
      obtain ⟨x, found, later⟩ := localGet_proceeds agrees typed known ok
      change LiveOrEnded p states (do
        return .running (c.push type (← Program.localOf slot type c).datum).next)
      rw [found]
      exact live.goOn described ((localGet_staysInFrame _ _).quiet framed ok) ⟨rfl, rfl, rfl⟩ later
  | localSet slot type =>
      obtain ⟨typed, known⟩ := live.local_typed described knows
      obtain ⟨value, u, written, rest⟩ := bind_ok.mp ok
      have same : u = states (c.pc + 1) := (pure_ok.mp rest).2
      subst same
      obtain ⟨d, set_, beside, later⟩ := localSet_agrees agrees typed written
      change LiveOrEnded p states (do return .running (← Program.localSet slot type c).next)
      rw [set_]
      exact live.goOn described ((localSet_staysInFrame _ _).quiet framed written) beside later
  | localTee slot type =>
      obtain ⟨typed, known⟩ := live.local_typed described knows
      obtain ⟨value, u, written, put⟩ := bind_ok.mp ok
      obtain ⟨d, set_, beside, later⟩ := localSet_agrees agrees typed written
      obtain ⟨x, found, _⟩ := localOf_ok (c := d) (beside.locals.symm ▸ typed)
      have quiet := ((localSet_staysInFrame _ _).quiet framed written).trans
        ((putValue_staysInFrame _ _).quiet (framed.quiet ((localSet_staysInFrame _ _).quiet framed written)) put)
      change LiveOrEnded p states (do
        let c ← Program.localSet slot type c
        return .running (c.push type (← Program.localOf slot type c).datum).next)
      rw [set_]
      simp only [bind, Except.bind, found]
      exact live.goOn (d := d.push type x.datum) described quiet
        ⟨beside.pc, beside.labels, beside.locals⟩ (putValue_agrees later known x.datum put)
  | constant type bits =>
      exact live.goOn described ((constant_staysInFrame _ _).quiet framed ok) ⟨rfl, rfl, rfl⟩
        (constant_agrees (agrees.history _) (ValueType.ne_any knows) _ ok)
  | operation opcode params result immediate =>
      obtain ⟨global, known⟩ := described.knowsGlobal knows
      exact live.proceed described ((operation_staysInFrame _ _ _ _).quiet framed ok)
        (operation_runsOn agrees global known ok)
  | funcletRegion signature funclets =>
      have sound := funcletRegion_sound described live moves ok
      rw [← taken.offset] at sound
      exact sound
  | strayFuncletSig => simp [execute, strayFuncletSig] at ok
  | funcletCall index => exact funcletCall_sound described live ok
  | funcletCallIf index => exact funcletCallIf_sound described live decision ok
  | funcletCallTable targets default => exact funcletCallTable_sound described live decision ok

theorem step_sound (described : Described p setting states) (live : Live p states c)
    (decision : Nat) : LiveOrEnded p states (p.step decision c) := by
  obtain ⟨cursor, taken⟩ := described.course.taken live.inside
  rw [Program.step, List.getElem?_eq_getElem live.inside]
  exact execute_sound described live decision taken

theorem run_sound (described : Described p setting states) (live : Live p states c)
    (decisions : List Nat) : LiveOrEnded p states (p.run decisions c) := by
  induction decisions generalizing c with
  | nil => exact live
  | cons decision rest ih =>
      have sound := step_sound described live decision
      rw [Program.run]
      cases outcome : p.step decision c with
      | error flaw => simp [outcome, LiveOrEnded] at sound
      | ok result =>
          rw [outcome] at sound
          cases result with
          | running d => exact ih sound
          | returned results history => trivial
          | trapped history => trivial

end Machine

open Validation

/-- The program that an accepted body is: its decoded instructions, its locals, and its funclets
with the parameters that their regions record. -/
def ValidBody.program {V : Type} (body : ValidBody) (context : Context) (bytes : List UInt8)
    (zero : ValueType → V) (meaning : List (Machine.Event V) → V) : Machine.Program V where
  context := context
  locals := body.locals.toList
  code := decoded context bytes
  params := paramsIn body.regions
  zero := zero
  meaning := meaning

namespace Machine

variable {V : Type} {context : Context} {bytes : List UInt8} {body : ValidBody}

/-- A run of an accepted body starts at a point that the validation found. -/
theorem start_live (valueTyped : context.ValueTyped) (accepted : validate context bytes = .ok body)
    (zero : ValueType → V) (meaning : List (Event V) → V) {args : List (Typed V)}
    (typed : args.map Typed.type = context.signature.params) :
    let p := body.program context bytes zero meaning
    ∃ states, openFunction context (initial bytes) = .ok () (states 0) ∧
      body.builder = (states p.code.length).builder ∧ body.exit = (states p.code.length).exit ∧
      Described p ⟨context, true⟩ states ∧ Live p states (p.start args) := by
  intro p
  obtain ⟨states, opened, trace, rfl⟩ := trace_of_validate accepted
  have course := course_of_openFunction opened trace
  obtain ⟨exit, cursor, declared, stack, _, _, control⟩ := openFunction_ok opened
  have layers := layers_of_openFunction control rfl
  obtain ⟨prefix_, known⟩ := Decode.locals_spec declared
  have locals : p.locals = (states 0).builder.locals.toList :=
    congrArg Array.toList (course.locals (Nat.le_refl _))
  have described : Described p ⟨context, true⟩ states := by
    refine ⟨course, rfl, rfl, locals, valueTyped, fun t member => ?_⟩
    rw [locals, Array.mem_toList_iff] at member
    rcases known t member with param | isValue
    · exact valueTyped.signature t (List.mem_append_left _ param)
    · exact isValue
  refine ⟨states, opened, rfl, rfl, described, ?_, ⟨?_, by simp [Program.start], ?_, ?_, ?_⟩, ?_, ?_, ?_⟩
  · refine described.inside_of_layers (Nat.zero_le _) ?_
    change (states 0).layers ≠ []
    rw [layers]
    exact List.cons_ne_nil _ _
  · rw [show (p.start args).pc = 0 from rfl, stack]
    rfl
  · rw [show (p.start args).pc = 0 from rfl, stack]
    rfl
  · rw [show (p.start args).pc = 0 from rfl, stack]
    rfl
  · rw [show (p.start args).pc = 0 from rfl, stack]
    exact Nat.le_refl _
  · rw [show (p.start args).pc = 0 from rfl, layers]
    intro l member
    rw [List.mem_singleton.mp member]
  · rw [show (p.start args).pc = 0 from rfl, layers]
    exact .cons ⟨rfl, rfl, by simp, rfl⟩ .nil
  · obtain ⟨rest, whole⟩ := prefix_
    have size : args.length = context.signature.params.length := by
      rw [← typed, List.length_map]
    rw [Program.start]
    dsimp only
    rw [locals, ← whole, List.map_append, typed, List.map_map, size, List.drop_left]
    congr 1
    exact List.map_id' _

/-- A region of one funclet that calls itself as long as the only parameter says so. -/
def selfCalling : List UInt8 :=
  [0x00, 0x16, 0x40, 0x01, 0x17, 0x00, 0x01, 0x20, 0x00, 0x19, 0x00, 0x0b, 0x0b]

end Machine

end WasmFunclets
