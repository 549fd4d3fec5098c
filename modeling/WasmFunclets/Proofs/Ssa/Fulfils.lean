import WasmFunclets.Proofs.Ssa.Declare
import WasmFunclets.Proofs.Ssa.Requests

/-! What a request to a builder leaves when it is not refused, whatever it asks for: edges keep their
places, and get undefined values in front at most. -/

namespace WasmFunclets.Ssa.Builder

open Attempt

variable {written : BlockId → Nat → Prop} {b t : Builder} {c source : BlockId} {slot : Nat}
variable {v : ValueId} {type : ValueType} {request : Request}

/-- What a request leaves that is not a write: edges stay, with undefined values in front, but for one
that is asked for. -/
structure Fulfils (written : BlockId → Nat → Prop) (b : Builder) (request : Request) (t : Builder) :
    Prop where
  sound : t.Consistent false written
  grows : b.Grows t
  edges : ∀ {c : BlockId} {o : BlockOutline}, t.outline c = some o → ∀ pred ∈ o.predecessors, ∃ args,
    ((∃ o', b.outline c = some o' ∧ ⟨pred.block, args⟩ ∈ o'.predecessors) ∨
      request = .connect pred.block c args) ∧
    ∀ arg ∈ pred.args, arg ∈ args ∨ ∃ type, t.look arg = some ⟨type, none, .undef⟩

theorem Fulfils.still (sound : t.Consistent false written) (grows : b.Grows t)
    (edges : ∀ {c : BlockId} {o : BlockOutline}, t.outline c = some o → ∀ pred ∈ o.predecessors,
      ∃ o', b.outline c = some o' ∧ pred ∈ o'.predecessors) : b.Fulfils written request t where
  sound := sound
  grows := grows
  edges present pred member := ⟨pred.args, .inl (edges present pred member), fun _ => .inl⟩

theorem Appends.fulfils {w : Value} (appends : b.Appends false written c w v t) :
    b.Fulfils written request t := by
  refine .still appends.sound appends.grows fun {e o} present pred member => ?_
  rw [appends.eq, outline_appended] at present
  split at present
  · obtain ⟨o', before, rfl⟩ := Option.map_eq_some_iff.mp present
    exact ⟨o', before, member⟩
  · exact ⟨o, present, member⟩

theorem checkBlock_ok {x : Unit} (ok : checkBlock c b = .ok x t) : c < b.blocks.size ∧ b = t := by
  rw [checkBlock, get_bind_ok] at ok
  split at ok
  · exact ⟨‹_›, (pure_ok.mp ok).2⟩
  · cases ok

theorem blockAt_ok {k : Block} (ok : blockAt c b = .ok k t) : b.blocks[c]? = some k ∧ b = t := by
  rw [blockAt, get_bind_ok] at ok
  exact inRange_ok.mp ok

theorem pad_ok {types : List ValueType} {args filled : List ValueId}
    (ok : pad types args b = .ok filled t) : args.length ≤ types.length := by
  rw [pad, bind_ok] at ok
  obtain ⟨_, _, fits, _⟩ := ok
  exact (maintain_ok.mp fits).1

theorem adoptEdges_ok {types : List ValueType} {phis : List ValueId} {index : Nat}
    {edges : List Predecessor} {x : Unit} (ok : adoptEdges c types phis index edges b = .ok x t) :
    ∀ edge ∈ edges, edge.args.length ≤ types.length := by
  induction edges generalizing index b with
  | nil => simp
  | cons edge edges ih =>
      simp only [adoptEdges, bind_ok] at ok
      obtain ⟨_, _, padded, _, _, _, _, _, _, rest⟩ := ok
      intro other member
      rcases List.mem_cons.mp member with rfl | later
      · exact pad_ok padded
      · exact ih rest other later

theorem setLocal_ok {x : Unit} (ok : setLocal c slot v b = .ok x t) :
    c < b.blocks.size ∧ slot < b.locals.size ∧ v < b.values.size := by
  simp only [setLocal, bind_ok, get_ok] at ok
  obtain ⟨_, _, check, _, _, ⟨rfl, rfl⟩, _, _, known, _⟩ := ok
  obtain ⟨inside, rfl⟩ := checkBlock_ok check
  exact ⟨inside, (maintain_ok.mp known).1⟩

theorem getLocal_ok (ok : getLocal c slot b = .ok v t) :
    c < b.blocks.size ∧ ∃ type, b.locals[slot]? = some type := by
  simp only [getLocal, bind_ok, get_ok] at ok
  obtain ⟨k, _, found, _, _, ⟨rfl, rfl⟩, rest⟩ := ok
  obtain ⟨present, rfl⟩ := blockAt_ok found
  refine ⟨lt_of_block present, ?_⟩
  cases known : b.locals[slot]? with
  | none =>
      rw [known] at rest
      cases rest
  | some type => exact ⟨type, rfl⟩

theorem connect_ok {args : List ValueId} {x : Unit} (ok : connect source c args b = .ok x t) :
    source < b.blocks.size ∧ ∃ k, b.blocks[c]? = some k ∧ k.isSealed = false ∧
      ∀ phis, k.args = some phis → args.length ≤ phis.size := by
  simp only [connect, bind_ok] at ok
  obtain ⟨_, _, check, k, _, found, _, _, isOpen, rest⟩ := ok
  obtain ⟨inside, rfl⟩ := checkBlock_ok check
  obtain ⟨present, rfl⟩ := blockAt_ok found
  obtain ⟨unsealed, rfl⟩ := maintain_ok.mp isOpen
  refine ⟨inside, k, present, unsealed, fun phis given => ?_⟩
  rw [given] at rest
  simp only [bind_ok, get_ok] at rest
  obtain ⟨_, _, ⟨rfl, rfl⟩, _, _, padded, _⟩ := rest
  simpa using pad_ok padded

theorem declareArguments_ok {types : List ValueType} {x : Unit}
    (ok : declareArguments c types b = .ok x t) : ∃ k, b.blocks[c]? = some k ∧ k.args = none ∧
      k.isSealed = false ∧ ∀ pred ∈ k.predecessors, pred.args.length ≤ types.length := by
  simp only [declareArguments, bind_ok] at ok
  obtain ⟨k, _, found, _, _, fresh, _, _, _, _, _, _, _, _, _, adopts⟩ := ok
  obtain ⟨present, rfl⟩ := blockAt_ok found
  obtain ⟨⟨none_, isOpen⟩, rfl⟩ := maintain_ok.mp fresh
  exact ⟨k, present, Option.isNone_iff_eq_none.mp none_, isOpen, fun pred member =>
    adoptEdges_ok adopts pred (Array.mem_toList_iff.mpr member)⟩

theorem emit_ok {opcode : UInt8} {operands : List ValueId} {immediate : UInt64}
    (ok : emit c opcode type operands immediate b = .ok v t) :
    c < b.blocks.size ∧ ∀ o ∈ operands, b.representative o < b.values.size := by
  simp only [emit, bind_ok, get_ok] at ok
  obtain ⟨_, _, check, _, _, ⟨rfl, rfl⟩, _, _, known, _⟩ := ok
  obtain ⟨inside, rfl⟩ := checkBlock_ok check
  refine ⟨inside, fun o member => ?_⟩
  have known := (maintain_ok.mp known).1
  simpa using List.all_eq_true.mp known _ (List.mem_map_of_mem member)

theorem undef_fulfils (sound : b.Consistent false written) : Ends (undef type) b
    (fun _ t => b.Fulfils written request t) Exhausted := by
  refine (undef_ends b type).imp ?_
  rintro _ _ ⟨rfl, rfl⟩
  obtain ⟨formed, flow, reads, pads⟩ := undef_sound sound.formed sound.flow type
  refine .still ⟨formed, flow, sound.ledger.reads reads (flow.homes reads)⟩ reads.grows ?_
  rw [pads.outline]
  exact fun {e o} present pred member => ⟨o, present, member⟩

theorem Declares.fulfils {types : List ValueType} (sound : t.Consistent false written)
    (declares : b.Declares c types t) : b.Fulfils written request t := by
  refine ⟨sound, declares.grows, fun {e o} present pred member => ?_⟩
  obtain ⟨phis, edges, _, _, extends_, outline⟩ := declares.args
  rw [outline] at present
  split at present
  · obtain ⟨o', before, rfl⟩ := Option.map_eq_some_iff.mp present
    rename_i here
    subst here
    obtain ⟨size, each⟩ := extends_ o' before
    obtain ⟨i, place⟩ := Array.mem_iff_getElem?.mp member
    have below := (Array.getElem?_eq_some_iff.mp place).1
    obtain ⟨old, was⟩ : ∃ old, o'.predecessors[i]? = some old :=
      ⟨_, Array.getElem?_eq_getElem (Nat.lt_of_lt_of_eq below size)⟩
    obtain ⟨block, front, args, new⟩ := each was place
    refine ⟨old.args, .inl ⟨o', before, by rw [block]; exact Array.mem_of_getElem? was⟩,
      fun arg listed => ?_⟩
    rw [args] at listed
    exact (List.mem_append.mp listed).symm.imp_right fun inFront => (new arg inFront).2
  · exact ⟨pred.args, .inl ⟨o, present, member⟩, fun _ => .inl⟩

theorem Connects.fulfils {args : List ValueId} (sound : t.Consistent false written)
    (connects : b.Connects source c args t) :
    b.Fulfils written (.connect source c args) t := by
  refine ⟨sound, connects.grows, fun {e o} present pred member => ?_⟩
  obtain ⟨front, new, _, outline⟩ := connects.edge
  have shown := present
  rw [outline] at present
  split at present
  · obtain ⟨o', before, rfl⟩ := Option.map_eq_some_iff.mp present
    rename_i here
    subst here
    rcases Array.mem_push.mp member with old | rfl
    · exact ⟨pred.args, .inl ⟨o', before, old⟩, fun _ => .inl⟩
    · refine ⟨args, .inr rfl, fun arg listed => ?_⟩
      refine (List.mem_append.mp listed).symm.imp_right fun inFront => ?_
      obtain ⟨w, found⟩ := look_of_lt (sound.ledger.carried_lt shown _ member arg listed)
      obtain ⟨type, rfl⟩ := connects.new (new arg inFront) found
      exact ⟨type, found⟩
  · exact ⟨pred.args, .inl ⟨o, present, member⟩, fun _ => .inl⟩

theorem Reads.fulfils (sound : t.Consistent false written) (reads : b.Reads t) :
    b.Fulfils written request t := by
  refine .still sound reads.grows ?_
  rw [reads.outline]
  exact fun {e o} present pred member => ⟨o, present, member⟩

theorem Seals.fulfils (sound : t.Consistent false written) (seals : b.Seals c t) :
    b.Fulfils written request t := by
  refine .still sound seals.grows fun {e o} present pred member => ?_
  rw [seals.outline] at present
  split at present
  · obtain ⟨o', before, rfl⟩ := Option.map_eq_some_iff.mp present
    exact ⟨o', before, member⟩
  · exact ⟨o, present, member⟩

theorem discard_ok {α : Type} {m : Attempt Builder α} (ok : (do let _ ← m) b = .ok () t) :
    ∃ a, m b = .ok a t := by
  obtain ⟨a, _, ok, done⟩ := bind_ok.mp ok
  exact ⟨a, (pure_ok.mp done).2 ▸ ok⟩

/-- Whatever is asked for but a write, and not refused. -/
theorem attempt_fulfils (sound : b.Consistent false written) (ok : request.attempt b = .ok () t)
    (inner : request ≠ .addBlock .entry)
    (silent : ∀ c slot v, request ≠ .setLocal c slot v)
    (known : ∀ source c args, request = .connect source c args → ∀ v ∈ args, v < b.values.size) :
    b.Fulfils written request t := by
  cases request with
  | addBlock kind =>
      obtain ⟨_, ok⟩ := discard_ok ok
      obtain ⟨_, rfl, sound', grows⟩ := (addBlock_ends sound fun same => inner (same ▸ rfl)).of_ok ok
      refine .still sound' grows fun {e o} present pred member => ?_
      rw [outline_withBlock] at present
      split at present
      · cases present
        simp at member
      · exact ⟨o, present, member⟩
  | declareArguments c types =>
      obtain ⟨k, present, undeclared, isOpen, fits⟩ := declareArguments_ok ok
      obtain ⟨sound', declares⟩ := (declareArguments_ends sound (outline_of_block present) undeclared
        isOpen fits fun strict => Bool.noConfusion strict).of_ok ok
      exact declares.fulfils sound'
  | args c =>
      obtain ⟨_, ok⟩ := discard_ok ok
      simp only [args, bind_ok, get_ok, pure_ok] at ok
      obtain ⟨k, _, found, _, _, ⟨rfl, rfl⟩, _, rfl⟩ := ok
      obtain ⟨_, rfl⟩ := blockAt_ok found
      exact .still sound (.refl sound.formed) fun {e o} present pred member => ⟨o, present, member⟩
  | connect source c args =>
      obtain ⟨inside, k, present, isOpen, fits⟩ := connect_ok ok
      obtain ⟨sound', connects⟩ := (connect_ends sound inside (outline_of_block present) isOpen
        (known source c args rfl) fits fun strict => Bool.noConfusion strict).of_ok ok
      exact connects.fulfils sound'
  | sealBlock c =>
      have found := ok
      simp only [Request.attempt, sealBlock, bind_ok] at found
      obtain ⟨k, _, found, _⟩ := found
      obtain ⟨sound', seals⟩ := (sealBlock_ends sound (lt_of_block (blockAt_ok found).1)).of_ok ok
      exact seals.fulfils sound'
  | setLocal c slot v => exact absurd rfl (silent c slot v)
  | getLocal c slot =>
      obtain ⟨_, ok⟩ := discard_ok ok
      obtain ⟨inside, type, typed⟩ := getLocal_ok ok
      obtain ⟨sound', reads, _⟩ := (readLocal_ends sound inside typed).of_ok ok
      exact reads.fulfils sound'
  | emit c opcode type operands immediate =>
      obtain ⟨_, ok⟩ := discard_ok ok
      obtain ⟨inside, each⟩ := emit_ok ok
      refine ((emit_ends sound inside fun o member => ?_).of_ok ok).fulfils
      by_contra out
      have bound := each o member
      rw [sound.formed.representative_of_le (Nat.le_of_not_lt out)] at bound
      exact out bound
  | constant c type bits =>
      obtain ⟨_, ok⟩ := discard_ok ok
      have check := ok
      simp only [constant, bind_ok] at check
      obtain ⟨_, _, check, _⟩ := check
      exact ((constant_ends sound (checkBlock_ok check).1).of_ok ok).fulfils
  | project c tuple index type =>
      obtain ⟨_, ok⟩ := discard_ok ok
      have check := ok
      simp only [project, bind_ok] at check
      obtain ⟨_, _, check, _⟩ := check
      exact ((project_ends sound (checkBlock_ok check).1).of_ok ok).fulfils
  | undef type =>
      obtain ⟨_, ok⟩ := discard_ok ok
      exact (undef_fulfils sound).of_ok ok

end WasmFunclets.Ssa.Builder
