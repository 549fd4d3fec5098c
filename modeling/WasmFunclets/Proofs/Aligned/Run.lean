import WasmFunclets.Proofs.Aligned.Transfers
import WasmFunclets.Proofs.Course
import WasmFunclets.Proofs.Ssa.Origin
import WasmFunclets.Proofs.Typed

/-! The function under construction agrees with the validation at every step, and so a validation
ends without meeting a broken invariant. -/

namespace WasmFunclets

def Instruction.Writes (slot : Nat) : Instruction → Prop
  | .localSet written _ | .localTee written _ => slot = written
  | _ => False

namespace Validation

open Attempt
open Ssa (Forest)

variable {setting : Setting} {strict : Bool} {f g : Forest} {written : BlockId → Nat → Prop}
variable {context : Context} {s t : State} {frame : Frame} {i : Instruction} {bytes : List UInt8}

/-- The end of a frame takes the results and leaves the frame. -/
theorem ends_leavingFrame {rest : List ValueId → Step Unit} {frames : List Frame}
    (aligned : Aligned context strict f written [] s) (unused : ¬ s.builder.Used s.current)
    (split : s.frames = frame :: frames)
    (good : ∀ vs t e, t.control = s.control → LeavingFrame context strict f written [] t frame e →
      ¬ t.builder.Used t.current →
        t.builder.HoldAll strict f t.current vs frame.signature.results →
          Ends (rest vs) t (fun _ u => Onward context strict f written t u) Refused) :
    Ends (takeAll frame.signature.results >>= rest) s (fun _ t => Onward context strict f written s t)
      Refused := by
  obtain ⟨_, entered⟩ := aligned.frames frame (split ▸ List.mem_cons_self)
  have known (checked : strict = true) : ∀ type ∈ frame.signature.results, type.isValue = true :=
    fun type member => entered.known checked type (List.mem_append_right _ member)
  rw [ends_bind]
  refine (takeAll_aligned aligned known).imp ?_
  rintro vs t ⟨_, taken⟩
  have control : t.control = s.control := by rw [taken.same]
  have split' : t.frames = frame :: frames := by
    rw [State.frames, control]
    exact split
  obtain ⟨e, leaving⟩ := taken.aligned.leavingFrame split'
  exact (good vs t e control leaving (taken.stays.idle unused) taken.at_hand).imp fun _ u onward =>
    onward.after (.refl f) taken.aside.grows

theorem Framed.alone (framed : Framed s) {frames : List Frame} (split : s.frames = frame :: frames)
    (isFunction : frame.construct = .function) : s.frames = [frame] := by
  obtain ⟨l, outer, layers⟩ := framed.nested.cons
  have nested := framed.nested
  have heads := Framed.frames_cons layers
  rw [layers] at nested
  obtain ⟨rfl, _⟩ := List.cons.inj (split.symm.trans heads)
  cases nested with
  | function => exact heads
  | inside _ inside => exact absurd isFunction inside.inner

theorem close_aligned (aligned : Aligned context strict f written [] s) (framed : Framed s)
    (unused : ¬ s.builder.Used s.current) :
    Ends (close setting) s (fun _ t => Onward context strict f written s t) Refused := by
  obtain ⟨frame, frames, split, innermost, _⟩ := framed.cons
  rw [close, ends_bind]
  refine ends_innermost innermost ?_
  have fresh {t : State} (idle : ¬ t.builder.Used t.current) :
      ¬ t.builder.HasEdge t.current frame.target := Ssa.Builder.not_hasEdge_of_unused idle
  cases construct : frame.construct with
  | region => exact closeFunclet_aligned aligned framed unused split construct
  | function =>
      refine ends_leavingFrame aligned unused split fun vs t e control leaving idle holds => ?_
      refine closeFunction_aligned leaving ?_ (by simp [construct]) (fresh idle) holds
      rw [State.frames, control]
      exact framed.alone split construct
  | loop =>
      refine ends_leavingFrame aligned unused split fun vs t e control leaving idle holds => ?_
      exact closeLoop_aligned leaving idle (framed.order split (by simp [construct])) holds
  | ifThen condition params =>
      refine ends_leavingFrame aligned unused split fun vs t e control leaving idle holds => ?_
      exact closeIf_aligned leaving construct idle (framed.order split (by simp [construct])) holds
  | block =>
      refine ends_leavingFrame aligned unused split fun vs t e control leaving idle holds => ?_
      exact closeJoin_aligned leaving (by simp [construct]) (fresh idle)
        (framed.order split (by simp [construct])) holds
  | ifElse =>
      refine ends_leavingFrame aligned unused split fun vs t e control leaving idle holds => ?_
      exact closeJoin_aligned leaving (by simp [construct]) (fresh idle)
        (framed.order split (by simp [construct])) holds

structure Stepped (context : Context) (strict : Bool) (f : Forest) (written : BlockId → Nat → Prop)
    (i : Instruction) (s t : State) : Prop where
  aligned : ∃ g written', f.Grows g ∧
    (∀ c slot, written' c slot → written c slot ∨ c = s.current ∧ i.Writes slot) ∧
    Aligned context strict g written' [] t
  unused : t.frames ≠ [] → ¬ t.builder.Used t.current
  later : s.builder.Later t.builder
  grows : (∀ slot, ¬ i.Writes slot) → s.builder.Grows t.builder

theorem Onward.stepped (onward : Onward context strict f written s t) :
    Stepped context strict f written i s t where
  aligned := by
    obtain ⟨g, grows, aligned⟩ := onward.aligned
    exact ⟨g, written, grows, fun _ _ => .inl, aligned⟩
  unused := onward.unused
  later := onward.grows.toLater
  grows _ := onward.grows

theorem Stores.stepped {slot : Nat} (stores : Stores context strict f written [] slot s t)
    (unused : ¬ s.builder.Used s.current) (writes : i.Writes slot) :
    Stepped context strict f written i s t where
  aligned := ⟨f, _, .refl f, fun _ _ known => known.imp_right fun ⟨here, same⟩ => ⟨here, same ▸ writes⟩,
    stores.aligned⟩
  unused _ := by
    have current : t.current = s.current := by rw [stores.same]
    rwa [current, stores.apart.used]
  later := stores.apart.later
  grows none_ := absurd writes (none_ slot)

/-- An instruction that is decoded keeps the function under construction in agreement. -/
theorem execute_aligned (aligned : Aligned context strict f written [] s) (framed : Framed s)
    (unused : ¬ s.builder.Used s.current) (knows : Decode.Knows (scopeOf setting s) i)
    (typed : strict = true → i.ValueTyped context) :
    Ends (execute setting i) s (fun _ t => Stepped context strict f written i s t) Refused := by
  have onward {m : Step Unit} (ends : Ends m s (fun _ t => Onward context strict f written s t) Refused) :
      Ends m s (fun _ t => Stepped context strict f written i s t) Refused :=
    ends.imp fun _ t onward => onward.stepped
  have stays {m : Step Unit} (ends : Ends m s (fun _ t => Stays context strict f written [] s t) Refused) :
      Ends m s (fun _ t => Stepped context strict f written i s t) Refused :=
    onward (ends.imp fun _ t stays => stays.onward fun _ => unused)
  have region {graph : FuncletCalls} (found : s.regions.head?.map OpenRegion.graph = some graph) :
      ∃ r outer, s.regions = r :: outer ∧ r.graph = graph := by
    cases regions : s.regions with
    | nil => simp [regions] at found
    | cons r outer => exact ⟨r, outer, rfl, by simpa [regions] using found⟩
  cases i with
  | unreachable => exact onward (unreachable_aligned aligned framed)
  | nop =>
      exact onward ⟨⟨f, .refl f, aligned⟩, fun _ => unused, .refl aligned.built.sound.formed⟩
  | block signature => exact onward (openBlock_aligned aligned framed unused typed)
  | loop signature => exact onward (openLoop_aligned aligned framed typed)
  | ifThen signature => exact onward (openIf_aligned aligned framed typed)
  | elseThen => exact onward (openElse_aligned aligned framed unused)
  | close => exact onward (close_aligned aligned framed unused)
  | br depth => exact onward (br_aligned aligned framed unused)
  | brIf depth => exact onward (brIf_aligned aligned unused)
  | brTable depths default => exact onward (brTable_aligned aligned framed unused)
  | ret => exact onward (ret_aligned aligned framed unused)
  | call index callee => exact stays (call_aligned aligned typed)
  | drop => exact stays (drop_aligned aligned)
  | select => exact stays (select_aligned aligned)
  | selectTyped type => exact stays (selectTyped_aligned aligned typed)
  | localGet slot type => exact stays (localGet_aligned aligned knows)
  | localSet slot type =>
      change Ends (localSet slot type >>= fun _ => pure ()) s _ _
      rw [ends_bind]
      exact (localSet_aligned aligned unused knows).imp fun _ t both => both.1.stepped unused rfl
  | localTee slot type =>
      exact (localTee_aligned aligned unused knows).imp fun _ t stores => stores.stepped unused rfl
  | constant type bits => exact stays (constant_aligned aligned typed)
  | operation opcode params result immediate => exact stays (operation_aligned aligned typed)
  | funcletRegion signature funclets =>
      exact onward (funcletRegion_aligned aligned framed (Nat.pos_iff_ne_zero.mp knows) typed)
  | strayFuncletSig =>
      change Ends strayFuncletSig s _ _
      rw [strayFuncletSig, ends_bind, ends_get]
      exact ends_refuse
  | funcletCall target =>
      obtain ⟨graph, found, inside⟩ := knows
      obtain ⟨r, outer, regions, rfl⟩ := region found
      exact onward (funcletCall_aligned aligned framed unused regions inside)
  | funcletCallIf target =>
      obtain ⟨graph, found, inside⟩ := knows
      obtain ⟨r, outer, regions, rfl⟩ := region found
      exact onward (funcletCallIf_aligned aligned framed unused regions inside)
  | funcletCallTable targets default =>
      obtain ⟨graph, found, inside⟩ := knows
      obtain ⟨r, outer, regions, rfl⟩ := region found
      exact onward (funcletCallTable_aligned aligned framed unused regions inside)

structure Midway (context : Context) (strict : Bool) (s : State) : Prop
    extends Between context strict s where
  framed : s.frames ≠ [] → Framed s
  bottom : s.frames = [] → s.regions = []

theorem frames_eq_nil : s.frames = [] ↔ s.layers = [] := by
  rw [← State.map_frame_layers, List.map_eq_nil_iff]

theorem Shift.bottom (shift : Shift s i t) (framed : Framed s) (closed : t.layers = []) :
    t.regions = [] := by
  cases shift with
  | stays quiet _ =>
      obtain ⟨l, outer, layers⟩ := framed.nested.cons
      have same := quiet.layers
      rw [layers, closed] at same
      cases same
  | opens l layers => cases closed.symm.trans layers
  | turns l m outer _ layers => cases closed.symm.trans layers
  | goesOn l m outer _ layers => cases closed.symm.trans layers
  | closes l parent outer _ layers => cases closed.symm.trans layers
  | ends l before _ _ _ regions =>
      have nested := before ▸ framed.nested
      have construct : l.frame.construct = .function := by cases nested; assumption
      have frames : s.frames = [l.frame] := by rw [← State.map_frame_layers, before]; rfl
      have count := framed.count
      rw [frames] at count
      simpa [regions, construct] using count

theorem ends_fetch {Q : Instruction → State → Prop}
    (good : ∀ i c, Decode.instruction (scopeOf setting s) s.cursor = .ok i c →
      Q i { s with start := s.cursor.offset, cursor := c }) :
    Ends (fetch setting) s Q Refused := by
  rw [fetch, ends_bind, ends_modify, ends_bind, ends_get, ends_bind]
  refine ends_demand fun _ => ?_
  rw [ends_bind, scope, ends_bind, ends_get, ends_pure]
  exact ends_onCursor (Decode.instruction_readsOnward _) fun i c ok => good i c ok

/-- A step leads on to another such state, over a byte at least. -/
theorem step_midway (typed : strict = true → setting.context.ValueTyped)
    (midway : Midway setting.context strict s) (isOpen : s.frames ≠ []) :
    Ends (step setting) s (fun _ t => Midway setting.context strict t ∧
      s.builder.Later t.builder ∧ s.cursor.Behind t.cursor ∧ s.cursor.offset < t.cursor.offset)
      Refused := by
  obtain ⟨f, written, aligned⟩ := midway.aligned
  have framed := midway.framed isOpen
  rw [step_eq, ends_bind]
  refine ends_fetch fun i c decoded => ?_
  have behind := (Decode.instruction_consumes _ _).of_ok decoded
  have framed' := framed.fetched c
  have ends : Ends (execute setting i) (s.fetched c)
      (fun _ t => Stepped setting.context strict f written i (s.fetched c) t) Refused :=
    execute_aligned (aligned.reading c s.cursor.offset (s.decoded + 1)) framed'
      (midway.unused isOpen) (Decode.instruction_knows decoded)
      fun checked => @Decode.instruction_valueTyped (scopeOf setting s) (typed checked) _ _ _ decoded
  rw [ends_bind, ends_modify]
  refine ends_of_forall (fun _ t ok => ?_) fun e t error => ends.of_error error
  have stepped := ends.of_ok ok
  have moves := execute_moves framed' ok
  obtain ⟨g, written', _, _, aligned'⟩ := stepped.aligned
  refine ⟨⟨⟨⟨g, written', aligned'⟩, stepped.unused⟩, fun open_ => moves.shift.framed framed' ?_, fun closed => ?_⟩,
    stepped.later, behind.1.trans moves.cursor, Nat.lt_of_lt_of_le behind.2 moves.cursor.onward⟩
  · exact fun empty => open_ (frames_eq_nil.mpr empty)
  · exact moves.shift.bottom framed' (frames_eq_nil.mp closed)

/-- The bytes last until the frame of the function is closed. -/
theorem run_midway (typed : strict = true → setting.context.ValueTyped) (fuel : Nat)
    (midway : Midway setting.context strict s) (enough : s.cursor.rest.length < fuel) :
    Ends (run setting fuel) s (fun _ t => Midway setting.context strict t ∧ t.frames = []) Refused := by
  induction fuel generalizing s with
  | zero => exact absurd enough (Nat.not_lt_zero _)
  | succ fuel ih =>
      rw [run, ends_bind, ends_get, ends_ite]
      refine ⟨fun closed => ?_, fun isOpen => ?_⟩
      · rw [ends_pure]
        refine ⟨midway, ?_⟩
        rw [State.frames, Array.isEmpty_iff.mp closed]
        rfl
      · have open_ : s.frames ≠ [] := by
          intro empty
          refine isOpen (Array.isEmpty_iff.mpr ?_)
          simpa [State.frames] using empty
        rw [ends_bind]
        refine (step_midway typed midway open_).imp ?_
        rintro _ t ⟨midway', _, behind, further⟩
        refine ih midway' ?_
        have := behind.total
        omega

theorem aligned_start (typed : strict = true → context.ValueTyped) {b : Ssa.Builder} {c : BlockId}
    {cursor : Cursor} {start decoded : Nat} {kind : Ssa.BlockKind} {phis : Array ValueId}
    {types : Array ValueType} {n : Nat}
    (built : b.Built context strict (#[none].push (some Ssa.Builder.entryId)) written [])
    (takes : b.HasArguments c context.signature.results)
    (added : (Ssa.Builder.ofLocals types n).Added ⟨kind, false, #[], some phis⟩ b) (last : c = 1) :
    Aligned context strict (#[none].push (some Ssa.Builder.entryId)) written []
      { cursor, start, decoded, stack := .empty, regions := [], closed := #[], builder := b
        control := #[⟨⟨[], context.signature.results⟩, ⟨0, 0, false⟩, c, .function, false⟩]
        current := Ssa.Builder.entryId, exit := c } := by
  subst last
  have idle (d : BlockId) : ¬ b.Used d := fun used => Ssa.Builder.not_used_ofLocals d (added.used rfl used)
  refine ⟨built, by rw [added.count]; exact Nat.succ_pos _, Nat.le_refl _, by simp [TypedStack.empty],
    fun _ operand member => (by simp [TypedStack.empty] at member), (by simp [TypedStack.empty]),
    fun frame member => ?_, List.pairwise_singleton _ _, by simp, by simp, ?_, takes, by simp⟩
  · obtain rfl := List.mem_singleton.mp member
    refine ⟨Ssa.Builder.entryId, rfl, .refl _, Nat.le_refl _, by simp, by simp, by simp, takes,
      fun _ => ⟨idle 1, Nat.one_ne_zero⟩, by simp, fun checked => ?_⟩
    exact fun type member => (typed checked).signature type (List.mem_append_right _ (by simpa using member))
  · exact Ssa.Builder.unsealedAre_ofLocals.added added rfl

/-- A validation begins in the entry, with nothing written. -/
theorem openFunction_aligned (typed : strict = true → context.ValueTyped) (bytes : List UInt8) :
    Ends (openFunction context) (initial bytes) (fun _ t =>
      (∃ f, Aligned context strict f (fun _ _ => False) [] t) ∧ ¬ t.builder.Used t.current ∧
        t.cursor.rest.length ≤ bytes.length) Refused := by
  have same : openFunction context = (do
      let locals ← onCursor (Decode.locals context.signature.params)
      modify fun s => { s with builder := .ofLocals locals context.signature.params.length }
      let exit ← newTarget .exit context.signature.results
      modify fun s => { s with exit }
      pushFrame ⟨[], context.signature.results⟩ ⟨0, 0, false⟩ exit .function) := rfl
  rw [same, ends_bind]
  refine ends_onCursor (Decode.locals_readsOnward _) fun types cursor ok => ?_
  have behind := (Decode.locals_readsOnward _ _).of_ok ok
  rw [ends_bind, ends_modify, ends_bind]
  have built : (Ssa.Builder.ofLocals types context.signature.params.length).Built context strict
      #[none] (fun _ _ => False) [] := Ssa.Builder.built_ofLocals fun checked type member => by
    rcases (Decode.locals_spec ok).2 type member with param | isValue
    · exact (typed checked).signature type (List.mem_append_left _ param)
    · exact isValue
  have entry : Ssa.Builder.entryId <
      (Ssa.Builder.ofLocals types context.signature.params.length).blocks.size := Nat.one_pos
  refine ends_onBuilder <| (Ssa.Builder.target_built built (by simp) entry
    fun checked type member => ?_).imp ?_
  · exact ValueType.ne_any ((typed checked).signature type (List.mem_append_right _ member))
  · rintro c b ⟨last, built, takes, phis, added⟩
    rw [ends_bind, ends_modify]
    refine ends_pushFrame fun unreachable same => ?_
    obtain rfl : unreachable = false := same.symm
    have total := behind.total
    have start := behind.onward
    refine ⟨⟨_, aligned_start typed built takes added last⟩,
      fun used => Ssa.Builder.not_used_ofLocals _ (added.used rfl used), ?_⟩
    change cursor.rest.length ≤ bytes.length
    change cursor.offset + cursor.rest.length = 0 + bytes.length at total
    omega

theorem openFunction_midway (typed : strict = true → context.ValueTyped) (bytes : List UInt8) :
    Ends (openFunction context) (initial bytes)
      (fun _ t => Midway context strict t ∧ t.cursor.rest.length ≤ bytes.length) Refused := by
  refine ends_of_forall (fun _ t ok => ?_) fun e t error =>
    (openFunction_aligned typed bytes).of_error error
  obtain ⟨⟨f, aligned⟩, unused, left⟩ := (openFunction_aligned typed bytes).of_ok ok
  obtain ⟨_, _, _, _, regions, _⟩ := openFunction_ok ok
  exact ⟨⟨⟨⟨f, _, aligned⟩, fun _ => unused⟩, fun _ => framed_of_openFunction ok, fun _ => regions⟩, left⟩

theorem body_midway (typed : strict = true → setting.context.ValueTyped) (bytes : List UInt8) :
    Ends (body setting bytes.length) (initial bytes)
      (fun _ t => Midway setting.context strict t ∧ t.frames = []) Refused := by
  rw [body, ends_bind]
  refine (openFunction_midway typed bytes).imp ?_
  rintro _ s ⟨midway, left⟩
  rw [ends_bind]
  refine (run_midway typed _ midway (Nat.lt_succ_of_le left)).imp ?_
  rintro _ t ⟨midway, closed⟩
  rw [ends_bind, ends_modify, ends_bind, ends_get]
  obtain ⟨_, _, aligned⟩ := midway.aligned
  exact ends_demand fun _ => ⟨⟨⟨⟨_, _, aligned.reading t.cursor t.cursor.offset t.decoded⟩, midway.unused⟩,
    fun isOpen => absurd closed isOpen, midway.bottom⟩, closed⟩

end Validation

end WasmFunclets
