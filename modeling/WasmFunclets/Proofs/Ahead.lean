import WasmFunclets.Proofs.Encoding.Outline
import WasmFunclets.Proofs.Onward

/-! What a validation has not read decides nothing: behind the lines that it has taken up, other bytes
can follow. -/

namespace WasmFunclets.Validation

open Attempt
open Encoding (Piece join)

variable {setting other : Setting} {bytes : List UInt8} {s t u : State}

theorem funcletHeader_behind {header : Option Decode.FuncletHeader} {c d : Cursor}
    {mid rest tail more : List UInt8} (read : Decode.funcletHeader setting c = .ok header d)
    (here : c.rest = mid ++ tail) (there : d.rest = rest ++ tail)
    (ahead : rest = [] → more.head? ≠ some Opcode.funcletSigByte) :
    Decode.funcletHeader other ⟨c.offset, mid ++ more⟩ = .ok header ⟨d.offset, rest ++ more⟩ := by
  cases header with
  | none =>
      obtain ⟨rfl, other⟩ := Decode.funcletHeader_none.mp read
      obtain rfl : mid = rest := List.append_cancel_right (here.symm.trans there)
      refine Decode.funcletHeader_none.mpr ⟨rfl, ?_⟩
      cases mid with
      | nil => exact ahead rfl
      | cons byte mid => rwa [here] at other
  | some header =>
      obtain ⟨e, written, split, offset⟩ := Decode.funcletHeader_some.mp read
      have same : mid ++ tail = (e ++ rest) ++ tail := by
        rw [← here, split, there, List.append_assoc]
      obtain rfl := List.append_cancel_right same
      exact Decode.funcletHeader_some.mpr ⟨e, written, List.append_assoc .., offset⟩

theorem ofInstruction_setting {i : Instruction} {e : List UInt8}
    (context : other.context = setting.context) :
    Decode.OfInstruction (scopeOf other s) i e ↔ Decode.OfInstruction (scopeOf setting s) i e := by
  obtain ⟨_, strict⟩ := setting
  obtain ⟨_, strict'⟩ := other
  obtain rfl : _ = _ := context
  rfl

def State.ahead (s : State) (rest : List UInt8) : State :=
  s.moved ⟨s.cursor.offset, rest⟩ s.decoded

theorem instruction_behind {i : Instruction} {c : Cursor} {left tail more : List UInt8}
    (context : other.context = setting.context)
    (decoded : Decode.instruction (scopeOf setting s) s.cursor = .ok i c)
    (behind : c.rest = left ++ tail) (room : Decode.FuncletsBounded other i (left ++ more)) :
    ∃ e, s.cursor.rest = e ++ left ++ tail ∧
      Decode.instruction (scopeOf other s) ⟨s.cursor.offset, e ++ left ++ more⟩ =
        .ok i ⟨c.offset, left ++ more⟩ := by
  obtain ⟨⟨e, written, split, offset⟩, _⟩ := Decode.instruction_ok.mp decoded
  refine ⟨e, by rw [split, behind, List.append_assoc], Decode.instruction_ok.mpr ⟨⟨e, ?_, ?_, offset⟩,
    room⟩⟩
  · exact (ofInstruction_setting context).mpr written
  · exact List.append_assoc ..

/-- An iteration goes as it went where other bytes follow those that it takes up, if a region that it
opens has room, and no header follows where none did. -/
theorem step_behind {mid rest tail more : List UInt8} (context : other.context = setting.context)
    (ok : step setting s = .ok () t) (here : s.cursor.rest = mid ++ tail)
    (there : t.cursor.rest = rest ++ tail)
    (room : ∀ i c left, Decode.instruction (scopeOf setting s) s.cursor = .ok i c →
      c.rest = left ++ tail → Decode.FuncletsBounded other i (left ++ more))
    (ahead : rest = [] → t.control = #[] ∨ more.head? ≠ some Opcode.funcletSigByte) :
    step other (s.ahead (mid ++ more)) = .ok () (t.ahead (rest ++ more)) := by
  obtain ⟨p, header, i, c, decoded, _, executed, behind, _⟩ := step_consumes ok
  rw [there, ← List.append_assoc] at behind
  generalize join header.toList ++ rest = left at behind
  obtain ⟨e, split, decoded'⟩ :=
    instruction_behind context decoded behind (room i c left decoded behind)
  obtain rfl : mid = e ++ left := List.append_cancel_right (here.symm.trans split)
  refine step_ok_iff.mpr ⟨i, _, decoded', ?_⟩
  rcases execute_moved other executed with ⟨same, count, moved⟩ | ⟨isOpen, header, read, count, moved⟩
  · have cursor : t.cursor = c := same
    obtain rfl : left = rest := List.append_cancel_right (behind.symm.trans (cursor ▸ there))
    have result : t.ahead (left ++ more) = t.moved ⟨c.offset, left ++ more⟩ (s.decoded + 1) := by
      rw [State.ahead, cursor, count]
      rfl
    rw [result]
    exact moved _ _
  · have result : t.ahead (rest ++ more) =
        t.moved ⟨t.cursor.offset, rest ++ more⟩ (s.decoded + 1 + counted header) := by
      rw [State.ahead, count]
      rfl
    rw [result]
    refine moved _ _ _ rfl (funcletHeader_behind read behind there fun none_ => ?_)
    exact (ahead none_).resolve_left isOpen

theorem declares_of_resolve {scope : Scope} {line : Line} {signature : Signature} {n : Nat}
    (found : Decode.resolve scope line = some (.funcletRegion signature n)) :
    Outline.declares line = some n ∧ n ≠ 0 := by
  have form := Decode.region_of_resolve found
  obtain ⟨⟨byte, name, form'⟩, immediate⟩ := line
  obtain rfl : form' = .funcletRegion := form
  cases immediate with
  | region type funclets =>
      simp only [Decode.resolve, Option.map_eq_some_iff, Option.ite_none_left_eq_some] at found
      obtain ⟨some_, _, _, same⟩ := found
      cases same
      exact ⟨rfl, some_⟩
  | _ => cases found

inductive LineWalk (setting : Setting) : State → List Piece → State → Prop where
  | here (s : State) : LineWalk setting s [] s
  | step {s t u : State} {p : Piece} {header : Option Piece} {pieces : List Piece}
      (isOpen : s.control ≠ #[]) (ok : step setting s = .ok () t)
      (isHeader : ∀ q ∈ header, q.line.opcode = Decode.funcletSig)
      (consumes : Consumes (p :: header.toList) s t) (walk : LineWalk setting t pieces u) :
      LineWalk setting s (p :: header.toList ++ pieces) u

namespace LineWalk

variable {pieces front back : List Piece}

theorem consumes (walk : LineWalk setting s pieces t) : Consumes pieces s t := by
  induction walk with
  | here s => exact .of_eq rfl rfl
  | step _ _ _ first _ ih => exact first.trans ih

theorem append (walk : LineWalk setting s front t) (more : LineWalk setting t back u) :
    LineWalk setting s (front ++ back) u := by
  induction walk with
  | here s => exact more
  | step isOpen ok isHeader first _ ih =>
      rw [List.append_assoc]
      exact .step isOpen ok isHeader first (ih more)

theorem reached (walk : LineWalk setting s pieces t) (reached : Reached setting bytes s) :
    Reached setting bytes t := by
  induction walk with
  | here s => exact reached
  | step isOpen ok _ _ _ ih => exact ih (.step reached isOpen ok)

theorem of_run {fuel : Nat} (ok : Validation.run setting fuel s = .ok () t) :
    ∃ pieces, LineWalk setting s pieces t ∧ t.control = #[] := by
  induction fuel generalizing s with
  | zero => cases violate_ok.mp ok
  | succ fuel ih =>
      rw [Validation.run, get_bind_ok] at ok
      split at ok
      · rename_i closed
        obtain ⟨_, rfl⟩ := pure_ok.mp ok
        exact ⟨[], .here s, Array.isEmpty_iff.mp closed⟩
      · rename_i isOpen
        obtain ⟨_, u, stepped, ok⟩ := bind_ok.mp ok
        obtain ⟨p, header, _, _, _, _, _, _, isHeader, consumes⟩ := step_consumes stepped
        obtain ⟨pieces, walk, closed⟩ := ih ok
        exact ⟨_, .step (mt Array.isEmpty_iff.mpr isOpen) stepped isHeader consumes walk, closed⟩

/-- Between two lines there are two iterations, or the second line is the header of a funclet that the
iteration of the first one starts. -/
theorem cut (walk : LineWalk setting s (front ++ back) t) :
    (∃ u, LineWalk setting s front u ∧ LineWalk setting u back t) ∨
      ∃ u v before p q behind, front = before ++ [p] ∧ back = q :: behind ∧ LineWalk setting s before u ∧
        u.control ≠ #[] ∧ Validation.step setting u = .ok () v ∧ q.line.opcode = Decode.funcletSig ∧
          Consumes [p, q] u v ∧ LineWalk setting v behind t := by
  generalize whole : front ++ back = pieces at walk
  induction walk generalizing front with
  | here s =>
      obtain ⟨rfl, rfl⟩ := List.append_eq_nil_iff.mp whole
      exact .inl ⟨s, .here s, .here s⟩
  | @step s t u p header pieces isOpen ok isHeader first walk ih =>
      cases front with
      | nil =>
          obtain rfl : back = _ := whole
          exact .inl ⟨s, .here s, .step isOpen ok isHeader first walk⟩
      | cons p' front =>
          rw [List.cons_append, List.cons_append] at whole
          obtain ⟨rfl, tails⟩ := List.cons.inj whole
          cases header with
          | none =>
              have onward {front : List Piece} {v : State} (one : LineWalk setting t front v) :
                  LineWalk setting s (p' :: front) v :=
                @LineWalk.step setting s t v p' none front isOpen ok isHeader first one
              rcases ih tails with ⟨v, one, two⟩ | ⟨v, w, before, p, q, behind, rfl, same, one, rest⟩
              · exact .inl ⟨v, onward one, two⟩
              · exact .inr ⟨v, w, _ :: before, p, q, behind, rfl, same, onward one, rest⟩
          | some h =>
              cases front with
              | nil =>
                  exact .inr ⟨s, t, [], p', h, pieces, rfl, tails, .here s, isOpen, ok, isHeader h rfl,
                    first, walk⟩
              | cons h' front =>
                  obtain ⟨rfl, rest⟩ := List.cons.inj tails
                  have onward {front : List Piece} {v : State} (one : LineWalk setting t front v) :
                      LineWalk setting s (p' :: h' :: front) v :=
                    @LineWalk.step setting s t v p' (some h') front isOpen ok isHeader first one
                  rcases ih rest with ⟨v, one, two⟩ | ⟨v, w, before, p, q, behind, rfl, same, one, rest⟩
                  · exact .inl ⟨v, onward one, two⟩
                  · exact .inr ⟨v, w, _ :: _ :: before, p, q, behind, rfl, same, onward one, rest⟩

theorem run (walk : LineWalk setting s pieces t) :
    ∃ n ≤ pieces.length, ∀ fuel, Validation.run setting (n + fuel) s = Validation.run setting fuel t := by
  induction walk with
  | here s => exact ⟨0, Nat.le_refl 0, fun fuel => by rw [Nat.zero_add]⟩
  | @step s t u p header pieces isOpen ok isHeader first walk ih =>
      obtain ⟨n, few, same⟩ := ih
      refine ⟨n + 1, ?_, fun fuel => ?_⟩
      · simp only [List.cons_append, List.length_cons, List.length_append]
        omega
      · rw [Nat.add_right_comm, Validation.run]
        change (if s.control.isEmpty then pure ()
          else Validation.step setting >>= fun _ => Validation.run setting (n + fuel) : Step Unit) s = _
        rw [if_neg (mt Array.isEmpty_iff.mp isOpen)]
        simp only [bind, EStateM.bind, ok, same]

/-- With other bytes behind its lines a walk goes as it went, if the regions that it opens have room
and no header follows where none did. -/
theorem behind {rest tail more : List UInt8} (walk : LineWalk setting s pieces t)
    (context : other.context = setting.context) (there : t.cursor.rest = rest ++ tail)
    (room : other.strict = true → ∀ before p after n, pieces = before ++ p :: after →
      Outline.declares p.line = some n → n ≤ (join after ++ (rest ++ more)).length)
    (ahead : rest = [] → more.head? ≠ some Opcode.funcletSigByte) :
    LineWalk other (s.ahead (join pieces ++ (rest ++ more))) pieces (t.ahead (rest ++ more)) := by
  induction walk with
  | here s => exact .here _
  | @step s t u p header pieces isOpen ok isHeader first walk ih =>
      have later := ih there fun strict before q after n split declares =>
        room strict (p :: header.toList ++ before) q after n (by simp [split]) declares
      have middle : t.cursor.rest = join pieces ++ rest ++ tail := by
        rw [walk.consumes.rest, there, List.append_assoc]
      have start : s.cursor.rest = join (p :: header.toList) ++ (join pieces ++ rest) ++ tail := by
        rw [first.rest, middle]
        simp only [List.append_assoc]
      have stepped : Validation.step other
          (s.ahead (join (p :: header.toList) ++ (join pieces ++ rest) ++ more)) =
            .ok () (t.ahead (join pieces ++ rest ++ more)) :=
        step_behind context ok start middle ?_ ?_
      · rw [Encoding.join_append, List.append_assoc]
        rw [List.append_assoc, List.append_assoc] at stepped
        refine .step isOpen stepped isHeader ⟨rfl, first.offset, first.decoded⟩ later
      · rintro i c left decoded behind strict signature n rfl
        obtain ⟨q, header', i', c', decoded', found, _, behind', _, consumes⟩ := step_consumes ok
        obtain ⟨rfl, rfl⟩ := EStateM.Result.ok.inj (decoded.symm.trans decoded')
        have lines : join (q :: header'.toList) = join (p :: header.toList) :=
          List.append_cancel_right (consumes.rest.symm.trans first.rest)
        obtain ⟨rfl, sameHeader⟩ := List.cons.inj (Encoding.join_injective lines)
        have enough := room strict [] q (header.toList ++ pieces) n rfl (declares_of_resolve found).1
        rw [sameHeader, middle] at behind'
        have left_eq : left = join header.toList ++ (join pieces ++ rest) :=
          List.append_cancel_right (behind.symm.trans (by simp only [behind', List.append_assoc]))
        simpa [left_eq, Nat.add_assoc] using enough
      · intro nothing
        exact .inr (ahead (List.append_eq_nil_iff.mp nothing).2)

end LineWalk

variable {context : Context} {pieces : List Piece} {valid : ValidBody}

theorem openFunction_behind (ok : openFunction context (initial bytes) = .ok () s) :
    ∃ runs head, Encoding.OfLocals runs head ∧ bytes = head ++ s.cursor.rest ∧
      s.cursor.offset = head.length ∧ s.decoded = 0 ∧
      ∀ more, openFunction context (initial (head ++ more)) = .ok () (s.ahead more) := by
  obtain ⟨locals, _, declared, ok⟩ := bind_ok.mp ok
  obtain ⟨c, read, rfl⟩ := onCursor_ok.mp declared
  obtain ⟨e, written, split, offset⟩ := (Decode.locals_parses _ _ _ _).mp read
  have blind := blind_openFrame context locals
  have cursor : s.cursor = c := blind.cursor ok
  have decoded : s.decoded = 0 := blind.decoded ok
  obtain ⟨runs, head, _⟩ := id written
  refine ⟨runs, e, head, cursor ▸ split, cursor ▸ offset.trans (Nat.zero_add _), decoded, fun more => ?_⟩
  refine bind_ok.mpr ⟨locals, _, onCursor_ok.mpr ⟨⟨c.offset, more⟩, ?_, rfl⟩, ?_⟩
  · exact (Decode.locals_parses _ _ _ _).mpr ⟨e, written, rfl, offset⟩
  · rw [State.ahead, cursor, decoded]
    exact blind.of_ok ok _ _

theorem length_le_join (pieces : List Piece) : pieces.length ≤ (join pieces).length := by
  induction pieces with
  | nil => exact Nat.le_refl 0
  | cons p pieces ih =>
      have some_ := List.length_pos_iff.mpr p.bytes_ne_nil
      rw [Encoding.join_cons, List.length_append, List.length_cons]
      omega

theorem run_of_walk (opened : openFunction setting.context (initial bytes) = .ok () s)
    (walk : LineWalk setting s pieces t) :
    ∃ fuel, run setting (bytes.length + 1) s = run setting (fuel + 1) t := by
  obtain ⟨n, few, same⟩ := walk.run
  have inside := ((openFunction_onward setting.context bytes).of_ok opened).1.total
  have lines := length_le_join pieces
  rw [walk.consumes.rest, List.length_append] at inside
  refine ⟨bytes.length - n, ?_⟩
  rw [← same]
  congr 1
  omega

theorem body_of_failure {e : Fault} {u : State}
    (opened : openFunction setting.context (initial bytes) = .ok () s)
    (walk : LineWalk setting s pieces t) (isOpen : t.control ≠ #[]) (failed : step setting t = .error e u) :
    body setting bytes.length (initial bytes) = .error e u := by
  obtain ⟨fuel, same⟩ := run_of_walk opened walk
  have ran : run setting (fuel + 1) t = .error e u := by
    rw [run]
    change (if t.control.isEmpty then pure ()
      else step setting >>= fun _ => run setting fuel : Step Unit) t = _
    rw [if_neg (mt Array.isEmpty_iff.mp isOpen)]
    simp only [bind, EStateM.bind, failed]
  simp only [body, bind, EStateM.bind, opened, same, ran]

theorem validateWith_of_walk (opened : openFunction setting.context (initial bytes) = .ok () s)
    (walk : LineWalk setting s pieces t) (closed : t.control = #[]) (nothing : t.cursor.rest = []) :
    validateWith setting bytes = .ok ⟨t.decoded, t.closed, t.builder, t.exit⟩ := by
  obtain ⟨fuel, same⟩ := run_of_walk opened walk
  refine validateWith_ok_iff.mpr ⟨s, t, opened, ?_, by simp [Cursor.isEmpty, nothing], rfl⟩
  rw [same, run, get_bind_ok, if_pos (by simp [closed])]
  rfl

/-- A body that is accepted is walked through from the frame of the function on. -/
structure Walked (setting : Setting) (split : Encoding.Split bytes) (valid : ValidBody)
    (s t : State) : Prop where
  opened : openFunction setting.context (initial bytes) = .ok () s
  rest : s.cursor.rest = join split.pieces
  offset : s.cursor.offset = split.head.length
  decoded : s.decoded = 0
  reopens : ∀ more, openFunction setting.context (initial (split.head ++ more)) = .ok () (s.ahead more)
  walk : LineWalk setting s split.pieces t
  closed : t.control = #[]
  nothing : t.cursor.rest = []
  result : valid = ⟨t.decoded, t.closed, t.builder, t.exit⟩

theorem walked_of_valid (accepted : validateWith setting bytes = .ok valid)
    (split : Encoding.Split bytes) : ∃ s t, Walked setting split valid s t := by
  obtain ⟨s, t, opened, ran, empty, result⟩ := validateWith_ok_iff.mp accepted
  obtain ⟨runs, head, written, whole, offset, decoded, reopens⟩ := openFunction_behind opened
  obtain ⟨pieces, walk, closed⟩ := LineWalk.of_run ran
  have nothing : t.cursor.rest = [] := List.isEmpty_iff.mp empty
  have rest : s.cursor.rest = join pieces := by rw [walk.consumes.rest, nothing, List.append_nil]
  obtain rfl := split.unique ⟨head, runs, pieces, written, whole.trans (by rw [rest])⟩
  exact ⟨s, t, opened, rest, offset, decoded, reopens, walk, closed, nothing, result⟩

end WasmFunclets.Validation
