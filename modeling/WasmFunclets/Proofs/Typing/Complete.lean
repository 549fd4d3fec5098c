import WasmFunclets.Proofs.Aligned.Reached
import WasmFunclets.Proofs.Encoding.Unique
import WasmFunclets.Proofs.Padding
import WasmFunclets.Proofs.Typing.Frames

/-! The validation accepts what the type system of the host instructions derives. -/

namespace WasmFunclets.Validation

open Attempt
open Encoding (OfLine OfLocals Piece Sequence join)
open Typing (Derives DerivesBody Env)
open TypedStack (Holds Rests)

variable {env : Env} {labels : List (List ValueType)} {code : List Line} {setting : Setting}
variable {s t : State} {before after outer types : List ValueType} {i : Instruction} {p : Piece}
variable {rest : List UInt8} {strict : Bool} {Q : State → Prop}

/-- From here on nothing is refused, and a run comes to the end of the bytes in a state of some kind. -/
def Finishes (setting : Setting) (Q : State → Prop) (s : State) : Prop :=
  ∀ fuel, Ends (run setting fuel) s (fun _ t => t.cursor.isEmpty = true ∧ Q t)
    fun e _ => ¬ e.IsRefusal

theorem finishes_of_closed (closed : s.control = #[]) (nothing : s.cursor.rest = []) (holds : Q s) :
    Finishes setting Q s := by
  intro fuel
  cases fuel with
  | zero => exact Fault.not_isRefusal_broken _
  | succ fuel =>
      rw [run, ends_bind, ends_get, if_pos (Array.isEmpty_iff.mpr closed), ends_pure]
      exact ⟨by rw [Cursor.isEmpty, nothing]; rfl, holds⟩

theorem finishes_of_step (isOpen : s.control ≠ #[])
    (ends : Ends (step setting) s (fun _ t => Finishes setting Q t) fun e _ => ¬ e.IsRefusal) :
    Finishes setting Q s := by
  intro fuel
  cases fuel with
  | zero => exact Fault.not_isRefusal_broken _
  | succ fuel =>
      rw [run, ends_bind, ends_get, if_neg (by simpa using isOpen), ends_bind]
      exact ends.imp fun _ t finishes => finishes fuel

/-- From here on nothing is refused, and the bytes end with the function. -/
def AdmitsRest (setting : Setting) (s : State) : Prop :=
  ∀ fuel, Ends (run setting fuel) s (fun _ t => t.cursor.isEmpty = true) fun e _ => ¬ e.IsRefusal

theorem admitsRest_iff : AdmitsRest setting s ↔ Finishes setting (fun _ => True) s := by
  simp only [AdmitsRest, Finishes, and_true]

theorem admitsRest_of_closed (closed : s.control = #[]) (empty : s.cursor.rest = []) :
    AdmitsRest setting s := admitsRest_iff.mpr (finishes_of_closed closed empty trivial)

theorem admitsRest_of_piece (isOpen : s.control ≠ #[]) (next : s.cursor.rest = p.bytes ++ rest)
    (found : Decode.resolve (scopeOf setting s) p.line = some i)
    (plain : p.line.opcode.form ≠ .funcletRegion)
    (ends : ∀ c, c.rest = rest → Ends (execute setting i) (s.fetched c)
      (fun _ t => AdmitsRest setting t) fun e _ => ¬ e.IsRefusal) : AdmitsRest setting s := by
  have decoded : Decode.instruction (scopeOf setting s) s.cursor =
      .ok i ⟨s.cursor.offset + p.bytes.length, rest⟩ :=
    Decode.instruction_ok.mpr ⟨⟨p.bytes, .inl ⟨p.line, p.written, found⟩, next, rfl⟩,
      fun _ signature n same => absurd (Decode.region_of_resolve (same ▸ found)) plain⟩
  rw [admitsRest_iff]
  refine finishes_of_step isOpen (ends_step decoded ?_)
  exact (ends _ rfl).imp fun _ _ => admitsRest_iff.mp

theorem Hosts.isOpen (hosts : Hosts env labels s) : s.control ≠ #[] := by
  obtain ⟨frame, bottom, _⟩ := hosts.function
  intro empty
  simp [empty] at bottom

/-- Whatever goes on behind a sequence that has a type goes on in front of it, on a stack that stands
for what it takes. -/
def Runs (setting : Setting) (env : Env) (labels : List (List ValueType)) (code : List Line)
    (before after : List ValueType) : Prop :=
  ∀ (s : State) (pieces : List Piece) (rest : List UInt8) (outer : List ValueType),
    pieces.map Piece.line = code → Hosts env labels s → s.stack.Holds (outer ++ before) →
      s.cursor.rest = join pieces ++ rest →
        (∀ t, Passed (outer ++ after) s t → t.cursor.rest = rest → AdmitsRest setting t) →
          AdmitsRest setting s

theorem Passed.trans {u : State} (first : Passed types s t) (second : Passed before t u) :
    Passed before s u where
  control := second.control.trans first.control
  regions := second.regions.trans first.regions
  locals := second.locals.trans first.locals
  rests := first.rests.trans second.rests
  holds := second.holds

theorem Passed.of_near (near : Near s t) (rests : Rests s.stack t.stack) (holds : t.stack.Holds types) :
    Passed types s t :=
  ⟨near.control, near.regions, near.locals, rests, holds⟩

theorem Passed.of_fetched {c : Cursor} (passed : Passed types (s.fetched c) t) : Passed types s t :=
  ⟨passed.control, passed.regions, passed.locals, passed.rests, passed.holds⟩

theorem runs_single {line : Line} (single : Typing.Single env labels line before after)
    (typed : env.context.ValueTyped) : Runs ⟨env.context, strict⟩ env labels [line] before after := by
  intro s pieces rest outer lines hosts holds split behind
  obtain ⟨p, rfl, rfl⟩ := List.map_eq_singleton_iff.mp lines
  obtain ⟨_, _, listed, _⟩ := Decode.ofLine_iff.mp p.written
  obtain ⟨plain, i, found, leads⟩ :=
    @execute_single env labels _ s before after outer strict single listed typed hosts holds
  refine admitsRest_of_piece hosts.isOpen (by simpa using split) found plain fun c behind' => ?_
  refine (leads c).imp fun _ t reached => behind t ?_ ?_
  · exact (Passed.of_near reached.1 reached.2.2 reached.2.1).of_fetched
  · rw [reached.1.cursor]
    exact behind'

section Frames

variable {signature : Signature} {label : List ValueType} {kind : Construct → Prop} {line : Line}

/-- A line opens a frame of some kind, whose label carries the given types. -/
structure OpensFrame (setting : Setting) (env : Env) (labels : List (List ValueType)) (line : Line)
    (before : List ValueType) (signature : Signature) (label : List ValueType)
    (kind : Construct → Prop) : Prop where
  plain : ∀ c, kind c → c ≠ .region ∧ c ≠ .function
  label : ∀ frame : Frame, kind frame.construct → frame.signature = signature →
    frame.labelTypes = label
  form : line.opcode.form ≠ .funcletRegion
  opens : ∀ (s : State) (outer : List ValueType), Hosts env labels s →
    s.stack.Holds (outer ++ before) →
      ∃ i, Decode.resolve (scopeOf setting s) line = some i ∧
        ∀ c, Ends (execute setting i) (s.fetched c)
          (fun _ t => Opens signature outer kind (s.fetched c) t ∧ t.cursor = c)
          fun e _ => ¬ e.IsRefusal

theorem admitsRest_of_close {frame : Frame} {w : TypedStack}
    (opened : Opened signature outer frame w s t) (hosts : Hosts env labels t)
    (plain : frame.construct ≠ .region ∧ frame.construct ≠ .function)
    (skips : ∀ block params, frame.construct = .ifThen block params →
      signature.params = signature.results)
    (close : p.line.opcode.form = .close) (nothing : p.line.immediate = .nothing)
    (holds : t.stack.Holds signature.results) (split : t.cursor.rest = p.bytes ++ rest)
    (behind : ∀ u, Passed (outer ++ signature.results) s u → u.cursor.rest = rest →
      AdmitsRest setting u) : AdmitsRest setting t := by
  have found : Decode.resolve (scopeOf setting t) p.line = some .close := by
    simp only [Decode.resolve, close, nothing]
  refine admitsRest_of_piece hosts.isOpen split found (by simp [close]) fun c rest_ => ?_
  refine (close_passes (opened.fetched c) plain skips holds).imp fun _ u passed =>
    behind u passed.1 ?_
  rw [passed.2]
  exact rest_

theorem admitsRest_of_inside {frame : Frame} {w : TypedStack} {body : List Piece}
    (inside : Runs setting env (label :: labels) (body.map Piece.line) signature.params
      signature.results)
    (carries : frame.labelTypes = label) (hosts : Hosts env labels s)
    (opened : Opened signature outer frame w s t) (plain : frame.construct ≠ .region)
    (params : t.stack.Holds signature.params) (split : t.cursor.rest = join body ++ rest)
    (behind : ∀ u, Opened signature outer frame w s u → u.stack.Holds signature.results →
      Hosts env (label :: labels) u → u.cursor.rest = rest → AdmitsRest setting u) :
    AdmitsRest setting t := by
  have hosts' := carries ▸ opened.hosts hosts plain
  refine inside t body rest [] rfl hosts' params split fun u passed rest_ => ?_
  exact behind u (opened.passed passed) passed.holds (passed.hosts hosts') rest_

theorem admitsRest_of_begin {body : List Piece}
    (begins : OpensFrame setting env labels p.line before signature label kind)
    (inside : Runs setting env (label :: labels) (body.map Piece.line) signature.params
      signature.results)
    (hosts : Hosts env labels s) (holds : s.stack.Holds (outer ++ before))
    (split : s.cursor.rest = p.bytes ++ (join body ++ rest))
    (behind : ∀ c frame w u, Opened signature outer frame w (s.fetched c) u → kind frame.construct →
      u.stack.Holds signature.results → Hosts env (label :: labels) u → u.cursor.rest = rest →
        AdmitsRest setting u) : AdmitsRest setting s := by
  obtain ⟨i, found, ends⟩ := begins.opens s outer hosts holds
  refine admitsRest_of_piece hosts.isOpen split found begins.form fun c rest_ => ?_
  refine (ends c).imp fun _ t reached => ?_
  obtain ⟨⟨frame, w, opened, is, params⟩, cursor⟩ := reached
  have hosts' : Hosts env labels (s.fetched c) := ⟨hosts.frames, hosts.function, hosts.locals,
    hosts.regions⟩
  refine admitsRest_of_inside inside (begins.label frame is opened.typed) hosts' opened
    (begins.plain _ is).1 params (cursor ▸ rest_) fun u opened' holds hosts'' rest' => ?_
  exact behind c frame w u opened' is holds hosts'' rest'

theorem runs_framed {last : Opcode} (begins : OpensFrame setting env labels line before signature label kind)
    (skips : ∀ block params, kind (.ifThen block params) → signature.params = signature.results)
    (close : last.form = .close)
    (inside : Runs setting env (label :: labels) code signature.params signature.results) :
    Runs setting env labels (line :: (code ++ [⟨last, .nothing⟩])) before signature.results := by
  intro s pieces rest outer lines hosts holds split behind
  obtain ⟨p, others, rfl, rfl, behindOpening⟩ := List.map_eq_cons_iff.mp lines
  obtain ⟨body, closing, rfl, rfl, behindBody⟩ := List.map_eq_append_iff.mp behindOpening
  obtain ⟨q, rfl, same⟩ := List.map_eq_singleton_iff.mp behindBody
  have split' : s.cursor.rest = p.bytes ++ (join body ++ (q.bytes ++ rest)) := by simpa using split
  refine admitsRest_of_begin begins inside hosts holds split' fun c frame w u opened is results hosts' rest' => ?_
  refine admitsRest_of_close opened hosts' (begins.plain _ is)
    (fun block params construct => skips block params (construct ▸ is)) (same ▸ close)
    (by rw [same]) results rest' fun v passed rest'' => ?_
  exact behind v passed.of_fetched rest''

theorem runs_ifElse {middle last : Opcode} {other : List Line}
    (begins : OpensFrame setting env labels line before signature signature.results
      (∃ block params, · = .ifThen block params))
    (turn : middle.form = .elseThen) (close : last.form = .close)
    (inside : Runs setting env (signature.results :: labels) code signature.params
      signature.results)
    (inside' : Runs setting env (signature.results :: labels) other signature.params
      signature.results) :
    Runs setting env labels
      (line :: (code ++ ⟨middle, .nothing⟩ :: (other ++ [⟨last, .nothing⟩]))) before
      signature.results := by
  intro s pieces rest outer lines hosts holds split behind
  obtain ⟨p, others, rfl, rfl, behindOpening⟩ := List.map_eq_cons_iff.mp lines
  obtain ⟨body, turning, rfl, rfl, behindBody⟩ := List.map_eq_append_iff.mp behindOpening
  obtain ⟨m, others, rfl, same, behindTurn⟩ := List.map_eq_cons_iff.mp behindBody
  obtain ⟨body', closing, rfl, rfl, behindOther⟩ := List.map_eq_append_iff.mp behindTurn
  obtain ⟨q, rfl, same'⟩ := List.map_eq_singleton_iff.mp behindOther
  have split' : s.cursor.rest =
      p.bytes ++ (join body ++ (m.bytes ++ (join body' ++ (q.bytes ++ rest)))) := by simpa using split
  refine admitsRest_of_begin begins inside hosts holds split' fun c frame w u opened is results hosts' rest' => ?_
  obtain ⟨block, params, construct⟩ := is
  have found : Decode.resolve (scopeOf setting u) m.line = some .elseThen := by
    simp only [Decode.resolve, same, turn]
  refine admitsRest_of_piece hosts'.isOpen rest' found (by simp [same, turn]) fun d rest'' => ?_
  refine (openElse_opens (opened.fetched d) construct results).imp fun _ v reached => ?_
  obtain ⟨⟨frame', w', opened', construct', params'⟩, cursor⟩ := reached
  have hosts'' : Hosts env labels (s.fetched c) := ⟨hosts.frames, hosts.function, hosts.locals,
    hosts.regions⟩
  have carries : frame'.labelTypes = signature.results := by
    rw [Frame.labelTypes, construct', opened'.typed]
    rfl
  have split'' : v.cursor.rest = join body' ++ (q.bytes ++ rest) := by
    rw [cursor]
    exact rest''
  refine admitsRest_of_inside inside' carries hosts'' opened' (by simp [construct']) params' split''
    fun x opened'' results' hosts₃ rest₃ => ?_
  refine admitsRest_of_close opened'' hosts₃ (by simp [construct']) (by simp [construct'])
    (same' ▸ close) (by rw [same']) results' rest₃ fun y passed rest₄ => ?_
  exact behind y passed.of_fetched rest₄

variable {opcode : Opcode} {type : BlockType}

theorem opensFrame_block (form : opcode.form = .block)
    (typed : Decode.signatureOf env.context type = some signature) :
    OpensFrame ⟨env.context, strict⟩ env labels ⟨opcode, .block type⟩ signature.params signature
      signature.results (· = .block) where
  plain := by rintro _ rfl; simp
  label frame construct typed := by rw [Frame.labelTypes, construct, typed]; rfl
  form := by simp [form]
  opens s outer hosts holds := by
    refine ⟨.block signature, ?_, fun c => openBlock_opens holds⟩
    simp only [Decode.resolve, form]
    exact congrArg (Option.map _) typed

theorem opensFrame_loop (form : opcode.form = .loop)
    (typed : Decode.signatureOf env.context type = some signature) :
    OpensFrame ⟨env.context, strict⟩ env labels ⟨opcode, .block type⟩ signature.params signature
      signature.params (· = .loop) where
  plain := by rintro _ rfl; simp
  label frame construct typed := by rw [Frame.labelTypes, construct, typed]; rfl
  form := by simp [form]
  opens s outer hosts holds := by
    refine ⟨.loop signature, ?_, fun c => openLoop_opens holds⟩
    simp only [Decode.resolve, form]
    exact congrArg (Option.map _) typed

theorem opensFrame_ifThen (form : opcode.form = .ifThen)
    (typed : Decode.signatureOf env.context type = some signature) :
    OpensFrame ⟨env.context, strict⟩ env labels ⟨opcode, .block type⟩ (signature.params ++ [.i32])
      signature signature.results (∃ block params, · = .ifThen block params) where
  plain := by rintro _ ⟨_, _, rfl⟩; simp
  label frame construct typed := by
    obtain ⟨_, _, construct⟩ := construct
    rw [Frame.labelTypes, construct, typed]
    rfl
  form := by simp [form]
  opens s outer hosts holds := by
    refine ⟨.ifThen signature, ?_, fun c => openIf_opens holds⟩
    simp only [Decode.resolve, form]
    exact congrArg (Option.map _) typed

end Frames

/-- Sequences that have a type run, by induction on why they have it. -/
theorem runs_of_derives (derives : Derives env labels code before after)
    (typed : env.context.ValueTyped) : Runs ⟨env.context, strict⟩ env labels code before after := by
  induction derives with
  | empty =>
      intro s pieces rest outer lines hosts holds split behind
      obtain rfl := List.map_eq_nil_iff.mp lines
      exact behind s ⟨rfl, rfl, rfl, .refl holds.above, holds⟩ split
  | @frame labels code below before after known inner ih =>
      intro s pieces rest outer lines hosts holds split behind
      rw [← List.append_assoc] at holds
      refine ih s pieces rest (outer ++ below) lines hosts holds split fun t passed rest_ => ?_
      rw [List.append_assoc] at passed
      exact behind t passed rest_
  | append one two ih ih' =>
      intro s pieces rest outer lines hosts holds split behind
      obtain ⟨first, second, rfl, rfl, rfl⟩ := List.map_eq_append_iff.mp lines
      rw [Encoding.join_append, List.append_assoc] at split
      refine ih s first _ outer rfl hosts holds split fun t passed rest_ => ?_
      refine ih' t second rest outer rfl (passed.hosts hosts) passed.holds rest_
        fun u passed' rest' => ?_
      exact behind u (passed.trans passed') rest'
  | single single => exact runs_single single typed
  | block form close same body ih =>
      exact runs_framed (opensFrame_block form same) (by simp) close ih
  | loop form close same body ih =>
      exact runs_framed (opensFrame_loop form same) (by simp) close ih
  | ifThen form close same skips body ih =>
      exact runs_framed (opensFrame_ifThen form same) (fun _ _ _ => skips) close ih
  | ifElse form turn close same body other ih ih' =>
      exact runs_ifElse (opensFrame_ifThen form same) turn close ih ih'

theorem pieces_of_sequence {lines : List Line} {e : List UInt8}
    (written : Sequence OfLine lines e) :
    ∃ pieces : List Piece, pieces.map Piece.line = lines ∧ join pieces = e := by
  induction written with
  | nil => exact ⟨[], rfl, rfl⟩
  | @cons line lines e rest first others ih =>
      obtain ⟨pieces, rfl, rfl⟩ := ih
      exact ⟨⟨line, e, first⟩ :: pieces, rfl, rfl⟩

variable {context : Context} {runs : List (Nat × ValueType)} {head : List UInt8}

structure AtStart (context : Context) (locals : List ValueType) (rest : List UInt8) (s : State) :
    Prop where
  control : ∃ frame, s.control = #[frame] ∧ frame.construct = .function ∧
    frame.signature = ⟨[], context.signature.results⟩
  stack : s.stack.Holds []
  regions : s.regions = []
  locals : s.builder.locals.toList = locals
  cursor : s.cursor.rest = rest

theorem openFunction_begins (locals : OfLocals runs head)
    (few : context.signature.params.length + (Decode.declared runs).length ≤ Decode.maxLocals) :
    Ends (openFunction context) (initial (head ++ rest))
      (fun _ s => AtStart context (context.signature.params ++ Decode.declared runs) rest s)
      fun e _ => ¬ e.IsRefusal := by
  have read : Decode.locals context.signature.params (.ofBytes (head ++ rest)) =
      .ok (context.signature.params ++ Decode.declared runs).toArray ⟨0 + head.length, rest⟩ :=
    (Decode.locals_parses _ _ _ _).mpr ⟨head, ⟨runs, locals, Decode.roomLeft_of_le few, rfl⟩, rfl, rfl⟩
  have nothing : TypedStack.empty.Holds [] := ⟨Nat.le_refl _, [], [], rfl, .nil, .inl rfl⟩
  change Ends (onCursor (Decode.locals context.signature.params) >>= fun types => _) _ _ _
  refine ends_bind_of_ok (onCursor_ok.mpr ⟨_, read, rfl⟩) ?_
  rw [ends_bind, ends_modify]
  refine ends_of_leavesTypes ((aloof_newTarget _ _).leavesTypes nothing) fun exit t near holds _ => ?_
  rw [ends_bind, ends_modify]
  refine ends_of_forall (fun _ u ok => ?_) fun _ _ error => by cases error
  obtain rfl := pushFrame_ok.mp ok
  have control : t.control = #[] := near.control
  exact ⟨⟨⟨⟨[], _⟩, ⟨0, 0, false⟩, exit, .function, _⟩, congrArg (Array.push · _) control, rfl, rfl⟩,
    holds, near.regions, congrArg Array.toList near.locals, congrArg Cursor.rest near.cursor⟩

theorem AtStart.hosts {locals : List ValueType} (start : AtStart context locals rest s) :
    Hosts ⟨context, locals⟩ [context.signature.results] s := by
  obtain ⟨frame, control, construct, signature⟩ := start.control
  refine ⟨?_, ⟨frame, by rw [control]; rfl, by rw [signature]⟩, start.locals, start.regions⟩
  rw [State.frames, control]
  refine .cons ⟨by simp [construct], ?_⟩ .nil
  rw [Frame.labelTypes, construct, signature]
  rfl

theorem admitsRest_of_body {pieces : List Piece} (start : AtStart context
      (context.signature.params ++ Decode.declared runs) (join pieces) s)
    (derives : DerivesBody context runs (pieces.map Piece.line)) (typed : context.ValueTyped) :
    AdmitsRest ⟨context, strict⟩ s := by
  generalize same : pieces.map Piece.line = lines at derives
  obtain ⟨close, derives⟩ := derives
  obtain ⟨body, closing, rfl, rfl, last⟩ := List.map_eq_append_iff.mp same
  obtain ⟨q, rfl, line⟩ := List.map_eq_singleton_iff.mp last
  have hosts := start.hosts
  refine runs_of_derives derives typed s body q.bytes [] rfl hosts start.stack
    (by simpa using start.cursor) fun t passed rest => ?_
  have found : Decode.resolve (scopeOf ⟨context, strict⟩ t) q.line = some .close := by
    simp only [Decode.resolve, line, close]
  have split : t.cursor.rest = q.bytes ++ [] := by rw [rest, List.append_nil]
  refine admitsRest_of_piece (passed.hosts hosts).isOpen split found (by simp [line, close]) fun c nothing => ?_
  obtain ⟨frame, control, construct, signature⟩ := start.control
  have control' : (t.fetched c).control = #[frame] := passed.control.trans control
  refine (closeFunction_ends control' construct (by rw [signature]; rfl) passed.holds).imp
    fun _ u reached => ?_
  exact admitsRest_of_closed reached.1 (reached.2 ▸ nothing)

/-- A body is accepted that a run comes to the end of, unless it makes more values than there are ids. -/
theorem accepted_of_finishes {bytes : List UInt8}
    (opens : Ends (openFunction context) (initial bytes) (fun _ s => Finishes ⟨context, true⟩ Q s)
      fun e _ => ¬ e.IsRefusal) :
    (∃ t, Q t ∧ validate context bytes = .ok ⟨t.decoded, t.closed, t.builder, t.exit⟩) ∨
      validate context bytes = .error (.broken .arenaExhausted) ∧
        Ssa.Builder.arenaLimit ≤ (remains ⟨context, true⟩ bytes).values.size := by
  have ends : Ends (body ⟨context, true⟩ bytes.length) (initial bytes)
      (fun _ u => ∃ t, Q t ∧ u = { t with start := t.cursor.offset }) fun e _ => ¬ e.IsRefusal := by
    rw [body, ends_bind]
    refine opens.imp fun _ s finishes => ?_
    rw [ends_bind]
    refine (finishes _).imp fun _ t reached => ?_
    rw [ends_bind, ends_modify, ends_bind, ends_get, ends_require]
    exact ⟨fun _ => ⟨t, reached.2, rfl⟩, fun left => absurd reached.1 left⟩
  have refused := @body_midway ⟨context, true⟩ false (fun never => absurd never Bool.false_ne_true)
    bytes
  unfold validate validateWith remains
  cases run : body ⟨context, true⟩ bytes.length (initial bytes) with
  | ok _ u =>
    obtain ⟨t, holds, rfl⟩ := ends.of_ok run
    exact .inl ⟨t, holds, rfl⟩
  | error fault s =>
    obtain refusal | ⟨rfl, exhausted⟩ := refused.of_error run
    · exact absurd refusal (ends.of_error run)
    · exact .inr ⟨rfl, exhausted⟩

theorem accepted_of_admitsRest {bytes : List UInt8}
    (opens : Ends (openFunction context) (initial bytes) (fun _ s => AdmitsRest ⟨context, true⟩ s)
      fun e _ => ¬ e.IsRefusal) :
    (∃ valid, validate context bytes = .ok valid) ∨
      validate context bytes = .error (.broken .arenaExhausted) ∧
        Ssa.Builder.arenaLimit ≤ (remains ⟨context, true⟩ bytes).values.size := by
  refine (accepted_of_finishes (opens.imp fun _ _ => admitsRest_iff.mp)).imp_left ?_
  exact fun ⟨_, _, accepted⟩ => ⟨_, accepted⟩

theorem sequence_of_pieces (pieces : List Piece) :
    Sequence OfLine (pieces.map Piece.line) (join pieces) := by
  induction pieces with
  | nil => exact .nil
  | cons p pieces ih => exact .cons p.written ih

theorem fillers_derive (env : Env) (labels : List (List ValueType)) (n : Nat) :
    Derives env labels ((fillers n).map Piece.line) [] [] := by
  induction n with
  | zero => exact .empty
  | succ n ih =>
    have constant : Derives env labels [constantPiece.line] [] [.i32] := .single (.i32Const rfl)
    have drop : Derives env labels [dropPiece.line] [.i32] [] := .single (.drop rfl rfl)
    exact .append constant (.append drop ih)

def deadSum : List Line := [
  ⟨⟨0x02, "block", .block⟩, .block (.value .i32)⟩,
  ⟨⟨0x20, "local.get", .localGet⟩, .number 0⟩,
  ⟨⟨0x0c, "br", .br⟩, .number 0⟩,
  ⟨⟨0x6a, "i32.add", .binary .i32 .i32⟩, .nothing⟩,
  ⟨⟨0x0b, "end", .close⟩, .nothing⟩,
  ⟨⟨0x0b, "end", .close⟩, .nothing⟩]

theorem deadSum_derives : DerivesBody unaryContext [] deadSum := by
  have get : Derives ⟨unaryContext, [.i32]⟩ [[.i32], [.i32]]
      [⟨⟨0x20, "local.get", .localGet⟩, .number 0⟩] [] [.i32] := .single (.localGet rfl rfl)
  have leave : Derives ⟨unaryContext, [.i32]⟩ [[.i32], [.i32]]
      [⟨⟨0x0c, "br", .br⟩, .number 0⟩] [.i32] [.i32, .i32] :=
    .single (@Typing.Single.br _ _ _ 0 [.i32] [] _ rfl rfl (by simp [Typing.Known])
      (by simp [Typing.Known, ValueType.isValue, ValueType.values]))
  have add : Derives ⟨unaryContext, [.i32]⟩ [[.i32], [.i32]]
      [⟨⟨0x6a, "i32.add", .binary .i32 .i32⟩, .nothing⟩] [.i32, .i32] [.i32] :=
    .single (.binary rfl)
  have block : Derives ⟨unaryContext, [.i32]⟩ [[.i32]] _ [] [.i32] :=
    @Derives.block _ _ ⟨0x02, "block", .block⟩ ⟨0x0b, "end", .close⟩ (.value .i32) ⟨[], [.i32]⟩ _ rfl
      rfl rfl (.append (.append get leave) add)
  exact @DerivesBody.mk unaryContext [] _ ⟨0x0b, "end", .close⟩ rfl block

theorem deadSum_written : Sequence OfLine deadSum
    [0x02, 0x7f, 0x20, 0x00, 0x0c, 0x80, 0x00, 0x6a, 0x0b, 0x0b] := by
  have last : Encoding.Unsigned 25 0 [0x00] :=
    @Encoding.Unsigned.last 25 0x00 (by decide) (by decide)
  have wide : Encoding.Unsigned 32 0 [0x80, 0x00] := by
    simpa using @Encoding.Unsigned.more 25 0 0x80 [0x00] (by decide) (by decide) last
  have line (opcode : Opcode) {layout : Layout} {immediate : Immediate} {e : List UInt8}
      (listed : Opcode.ofByte? opcode.byte = some opcode) (same : opcode.form.layout = layout)
      (written : Encoding.OfImmediate layout immediate e) :
      OfLine ⟨opcode, immediate⟩ (opcode.byte :: e) := .mk listed (same ▸ written)
  have block := line ⟨0x02, "block", .block⟩ rfl rfl (.block (@Encoding.OfBlockType.value .i32 rfl))
  have get := line ⟨0x20, "local.get", .localGet⟩ rfl rfl (.number Encoding.zero_written)
  have leave := line ⟨0x0c, "br", .br⟩ rfl rfl (.number wide)
  have add := line ⟨0x6a, "i32.add", .binary .i32 .i32⟩ rfl rfl .nothing
  have close := Encoding.end_written
  exact .cons block (.cons get (.cons leave (.cons add (.cons close (.cons close .nil)))))

end WasmFunclets.Validation
