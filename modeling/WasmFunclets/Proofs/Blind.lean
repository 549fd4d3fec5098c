import WasmFunclets.Proofs.Encoding.Readers
import WasmFunclets.Proofs.Parts

/-! Instructions do not know where they stand: they neither look at the cursor nor count themselves, but
for the header of a funclet that they start. -/

namespace WasmFunclets.Validation

open Attempt

variable {α β τ : Type} {setting other : Setting} {s t u : State}

/-- The state with its cursor somewhere else, and another number of instructions. -/
def State.moved (s : State) (c : Cursor) (n : Nat) : State := { s with cursor := c, decoded := n }

@[simp] theorem State.moved_self (s : State) : s.moved s.cursor s.decoded = s := rfl

/-- The outcome with the cursor of its state somewhere else, and another number of instructions. -/
def movedTo (c : Cursor) (n : Nat) : EStateM.Result Fault State α → EStateM.Result Fault State α
  | .ok a t => .ok a (t.moved c n)
  | .error e t => .error e (t.moved c n)

/-- The attempt neither looks at the cursor and the number of instructions nor changes them. -/
def Blind (m : Step α) : Prop := ∀ s c n, m (s.moved c n) = movedTo c n (m s)

theorem Blind.of_ok {m : Step α} {a : α} (blind : Blind m) (ok : m s = .ok a t) (c : Cursor)
    (n : Nat) : m (s.moved c n) = .ok a (t.moved c n) := by
  rw [blind s c n, ok]
  rfl

theorem Blind.ends {m : Step α} (blind : Blind m) (s : State) :
    Ends m s (fun _ t => t.cursor = s.cursor ∧ t.decoded = s.decoded) fun _ t => t.cursor = s.cursor := by
  have same := blind s s.cursor s.decoded
  rw [State.moved_self] at same
  refine ends_of_forall (fun a t ok => ?_) fun e t error => ?_
  · rw [ok] at same
    have equal : t = t.moved s.cursor s.decoded := (EStateM.Result.ok.inj same).2
    rw [equal]
    exact ⟨rfl, rfl⟩
  · rw [error] at same
    have equal : t = t.moved s.cursor s.decoded := (EStateM.Result.error.inj same).2
    rw [equal]
    rfl

theorem Blind.cursor {m : Step α} {a : α} (blind : Blind m) (ok : m s = .ok a t) :
    t.cursor = s.cursor := ((blind.ends s).of_ok ok).1

theorem Blind.decoded {m : Step α} {a : α} (blind : Blind m) (ok : m s = .ok a t) :
    t.decoded = s.decoded := ((blind.ends s).of_ok ok).2

theorem blind_pure (a : α) : Blind (pure a) := fun _ _ _ => rfl

theorem blind_throw (e : Fault) : Blind (throw e : Step α) := fun _ _ _ => rfl

theorem blind_bind {m : Step α} {f : α → Step β} (first : Blind m) (rest : ∀ a, Blind (f a)) :
    Blind (m >>= f) := by
  intro s c n
  simp only [bind, EStateM.bind]
  rw [first s c n]
  cases m s with
  | ok a t => exact rest a t c n
  | error e t => rfl

theorem blind_ite {c : Prop} [Decidable c] {m n : Step α} (yes : Blind m) (no : Blind n) :
    Blind (if c then m else n) := by
  split
  · exact yes
  · exact no

theorem blind_modify {f : State → State} (apart : ∀ s c n, f (s.moved c n) = (f s).moved c n) :
    Blind (modify f : Step PUnit) :=
  fun s c n => congrArg (EStateM.Result.ok PUnit.unit) (apart s c n)

theorem blind_inRange (found : Option α) : Blind (inRange found : Step α) := by
  cases found
  · exact blind_throw _
  · exact blind_pure _

theorem blind_require (p : Prop) [Decidable p] (cause : Cause) :
    Blind (require p cause : Step Unit) := blind_ite (blind_pure _) (blind_throw _)

theorem blind_onStack (change : Attempt TypedStack α) : Blind (onStack change) := by
  intro s c n
  simp only [onStack, within, State.moved]
  cases change s.stack <;> rfl

theorem blind_onBuilder (change : Attempt Ssa.Builder α) : Blind (onBuilder change) := by
  intro s c n
  simp only [onBuilder, within, State.moved]
  cases change s.builder <;> rfl

theorem blind_onGraph (change : Attempt FuncletCalls α) : Blind (onGraph change) := by
  intro s c n
  obtain ⟨_, _, _, _, _, regions, _, _, _, _⟩ := s
  cases regions with
  | nil => rfl
  | cons region outer =>
      simp only [onGraph, within, State.moved]
      cases change region.graph <;> rfl

theorem blind_mapM {items : List β} {f : β → Step α} (each : ∀ b, Blind (f b)) : Blind (items.mapM f) := by
  induction items with
  | nil => exact blind_pure _
  | cons item items ih =>
      rw [List.mapM_cons]
      exact blind_bind (each item) fun _ => blind_bind ih fun _ => blind_pure _

theorem blind_innermost : Blind innermost := by
  intro s c n
  have look : (s.moved c n).frame? 0 = s.frame? 0 := rfl
  rw [innermost, get_bind, get_bind, look]
  cases s.frame? 0 <;> rfl

theorem blind_openRegion : Blind openRegion := by
  intro s c n
  have look : (s.moved c n).regions = s.regions := rfl
  rw [openRegion, get_bind, get_bind, look]
  cases s.regions <;> rfl

theorem blind_record (region : OpenRegion) : Blind (OpenRegion.record region) := by
  refine blind_bind (blind_mapM fun index => blind_bind (blind_inRange _) fun node => ?_) fun _ => blind_pure _
  split
  · exact blind_throw _
  · exact blind_bind (blind_inRange _) fun _ => blind_pure _

theorem blind_closeRegion : Blind closeRegion :=
  blind_bind (blind_onGraph _) fun _ => blind_bind blind_openRegion fun _ =>
    blind_bind blind_innermost fun _ => blind_bind (blind_onBuilder _) fun _ =>
      blind_bind (blind_record _) fun _ => blind_bind (blind_modify fun _ _ _ => rfl) fun _ =>
        blind_bind (blind_onStack _) fun _ => blind_bind (blind_modify fun _ _ _ => rfl) fun _ =>
          blind_bind (blind_onStack _) fun _ => blind_bind (blind_modify fun _ _ _ => rfl) fun _ =>
            blind_modify fun _ _ _ => rfl

theorem blind_parts : Parts True Blind where
  pure := blind_pure
  throw := blind_throw
  bind := blind_bind
  stack := blind_onStack
  builder := blind_onBuilder
  control _ := blind_modify fun _ _ _ => rfl
  move _ := blind_modify fun _ _ _ => rfl
  lookStack _ _ _ := rfl
  lookControl _ _ _ := rfl
  lookCurrent _ _ _ := rfl
  lookExit _ _ _ := rfl
  lookRegion := blind_bind blind_openRegion fun _ => blind_pure _
  lookRegions _ _ _ := rfl
  call _ _ _ _ s c n := blind_onGraph _ s c n
  complete _ := blind_onGraph _
  enter _ _ _ _ _ _ _ _ _ := rfl
  close := blind_closeRegion

def settleFunclet (index : Nat) : Option Decode.FuncletHeader → Step (List ValueType)
  | some header => do
      onGraph (FuncletCalls.declare index header.params header.predecessors true)
      pure header.params
  | none =>
      if index = 0 then do
        onGraph (FuncletCalls.declare index [] 0 false)
        pure []
      else onGraph (FuncletCalls.infer index)

/-- Goes to the block of a funclet, its parameters being settled. -/
def beginFunclet (index : Nat) (params : List ValueType) : Step Unit := do
  let frame ← innermost
  require (index ≠ 0 ∨ params = frame.signature.params)
    (.regionParams params frame.signature.params)
  let block ← blockOf (← openRegion) index
  onBuilder (Ssa.Builder.declareArguments block params)
  if ← onGraph (FuncletCalls.ready index) then completeFunclet index
  moveTo block
  let args ← onBuilder (Ssa.Builder.args block)
  onStack (TypedStack.reset (TypedStack.withValues params (args.map some)))

def counted (header : Option Decode.FuncletHeader) : Nat := header.toList.length

theorem startFunclet_eq (setting : Setting) (index : Nat) : startFunclet setting index = (do
    modify fun s => { s with start := s.cursor.offset }
    onGraph (FuncletCalls.enter index)
    let header ← onCursor (Decode.funcletHeader setting)
    modify fun s => { s with decoded := s.decoded + counted header }
    beginFunclet index (← settleFunclet index header)) := by
  have settles : funcletParams setting index = (do
      let header ← onCursor (Decode.funcletHeader setting)
      modify fun s => { s with decoded := s.decoded + counted header }
      settleFunclet index header) := by
    refine congrArg (onCursor (Decode.funcletHeader setting) >>= ·) (funext fun header => ?_)
    cases header with
    | some header => rfl
    | none => rfl
  rw [startFunclet, settles]
  simp only [bind_assoc]
  rfl

theorem blind_settleFunclet (index : Nat) (header : Option Decode.FuncletHeader) :
    Blind (settleFunclet index header) := by
  cases header with
  | some header =>
      exact blind_bind (blind_onGraph _) fun _ => blind_pure _
  | none =>
      exact blind_ite (blind_bind (blind_onGraph _) fun _ => blind_pure _) (blind_onGraph _)

theorem blind_beginFunclet (index : Nat) (params : List ValueType) :
    Blind (beginFunclet index params) := by
  have moved (block : BlockId) : Blind (do
      moveTo block
      let args ← onBuilder (Ssa.Builder.args block)
      onStack (TypedStack.reset (TypedStack.withValues params (args.map some)))) :=
    blind_bind (blind_modify fun _ _ _ => rfl) fun _ => blind_bind (blind_onBuilder _) fun _ =>
      blind_onStack _
  refine blind_bind blind_innermost fun _ => blind_bind (blind_require _ _) fun _ =>
    blind_bind blind_openRegion fun _ => blind_bind (blind_inRange _) fun block =>
      blind_bind (blind_onBuilder _) fun _ => blind_bind (blind_onGraph _) fun ready => ?_
  exact blind_ite (blind_bind (blind_parts.completeFunclet _) fun _ => moved block) (moved block)

theorem startFunclet_reads {index : Nat} :
    startFunclet setting index s = .ok () t ↔ ∃ u header d params v,
      onGraph (FuncletCalls.enter index) { s with start := s.cursor.offset } = .ok () u ∧
        Decode.funcletHeader setting s.cursor = .ok header d ∧
          settleFunclet index header (u.moved d (s.decoded + counted header)) = .ok params v ∧
            beginFunclet index params v = .ok () t := by
  have counts {u : State} (entered : onGraph (FuncletCalls.enter index)
      { s with start := s.cursor.offset } = .ok () u) : u.decoded = s.decoded :=
    ((blind_onGraph _).ends _).of_ok entered |>.2
  rw [startFunclet_eq]
  constructor
  · intro ok
    obtain ⟨_, _, noted, ok⟩ := bind_ok.mp ok
    obtain rfl := modify_ok.mp noted
    obtain ⟨_, u, entered, ok⟩ := bind_ok.mp ok
    obtain ⟨header, _, reads, ok⟩ := bind_ok.mp ok
    obtain ⟨d, read, rfl⟩ := onCursor_ok.mp reads
    obtain ⟨_, _, count, ok⟩ := bind_ok.mp ok
    obtain rfl := modify_ok.mp count
    obtain ⟨params, v, settled, began⟩ := bind_ok.mp ok
    rw [(blind_onGraph _).cursor entered] at read
    refine ⟨u, header, d, params, v, entered, read, ?_, began⟩
    rw [← counts entered]
    exact settled
  · rintro ⟨u, header, d, params, v, entered, read, settled, began⟩
    have reads : onCursor (Decode.funcletHeader setting) u = .ok header (u.moved d u.decoded) := by
      refine onCursor_ok.mpr ⟨d, ?_, rfl⟩
      rwa [(blind_onGraph _).cursor entered]
    rw [← counts entered] at settled
    exact bind_ok.mpr ⟨(), _, modify_ok.mpr rfl, bind_ok.mpr ⟨(), u, entered,
      bind_ok.mpr ⟨header, _, reads, bind_ok.mpr ⟨(), _, modify_ok.mpr rfl,
        bind_ok.mpr ⟨params, v, settled, began⟩⟩⟩⟩⟩

theorem startFunclet_header {index : Nat} (ok : startFunclet setting index s = .ok () t) :
    ∃ header, Decode.funcletHeader setting s.cursor = .ok header t.cursor ∧
      t.decoded = s.decoded + counted header := by
  obtain ⟨u, header, d, params, v, _, read, settled, began⟩ := startFunclet_reads.mp ok
  have settles := blind_settleFunclet index header
  have begins := blind_beginFunclet index params
  refine ⟨header, ?_, ?_⟩
  · rw [begins.cursor began, settles.cursor settled]
    exact read
  · rw [begins.decoded began, settles.decoded settled]
    rfl

theorem startFunclet_moved {index : Nat} {header : Option Decode.FuncletHeader} {c d : Cursor}
    (ok : startFunclet setting index s = .ok () t)
    (read : Decode.funcletHeader setting s.cursor = .ok header t.cursor)
    (offset : c.offset = s.cursor.offset) (read' : Decode.funcletHeader other c = .ok header d)
    (n : Nat) : startFunclet other index (s.moved c n) = .ok () (t.moved d (n + counted header)) := by
  obtain ⟨u, found, e, params, v, entered, first, settled, began⟩ := startFunclet_reads.mp ok
  obtain ⟨rfl, rfl⟩ := EStateM.Result.ok.inj (read.symm.trans first)
  refine startFunclet_reads.mpr ⟨u.moved c n, header, d, params, v.moved d (n + counted header), ?_,
    read', (blind_settleFunclet _ _).of_ok settled _ _, (blind_beginFunclet _ _).of_ok began _ _⟩
  rw [← (blind_onGraph _).of_ok entered c n]
  simp only [State.moved, offset]

theorem startFunclet_onward (setting : Setting) (index : Nat) (s : State) :
    Ends (startFunclet setting index) s (fun _ t => s.cursor.Behind t.cursor)
      fun _ t => s.cursor.Behind t.cursor := by
  rw [startFunclet_eq, ends_bind, ends_modify, ends_bind]
  refine ((blind_onGraph _).ends _).mono (fun _ u same => ?_) fun _ u same => .of_eq same
  rw [ends_bind]
  refine ends_within.mpr (ends_of_forall (fun header d read => ?_) fun e d error => ?_)
  · have behind := (Decode.funcletHeader_readsOnward setting).of_ok read
    rw [same.1] at behind
    rw [ends_bind, ends_modify, ends_bind]
    refine ((blind_settleFunclet _ _).ends _).mono (fun params v settled => ?_) fun _ v settled => ?_
    · refine ((blind_beginFunclet _ _).ends _).mono (fun _ t began => ?_) fun _ t began => ?_
      · rwa [began.1, settled.1]
      · rwa [began, settled.1]
    · rwa [settled]
  · have behind := ((Decode.funcletHeader_readsOnward setting _).of_error error).2
    rwa [same.1] at behind

section Leaves

variable {view : State → τ}

theorem onGraph_leaves (apart : ∀ s regions, view { s with regions } = view s)
    (change : Attempt FuncletCalls α) : Leaves view (onGraph change) := by
  intro s
  refine ends_of_forall (fun a t ok => ?_) fun e t error => ?_
  · obtain ⟨_, _, _, _, _, rfl⟩ := onGraph_ok.mp ok
    exact apart s _
  · unfold onGraph at error
    split at error
    · cases error
      rfl
    · dsimp only at error
      split at error <;> cases error
      exact apart s _

theorem innermost_leaves : Leaves view innermost := by
  refine along_bind along_get fun s => ?_
  cases s.frame? 0 with
  | none => exact leaves_throw _
  | some frame => exact along_pure _

theorem openRegion_leaves : Leaves view openRegion := by
  refine along_bind along_get fun s => ?_
  cases s.regions with
  | nil => exact leaves_throw _
  | cons region outer => exact along_pure _

end Leaves

theorem completeFunclet_leaves (index : Nat) : Leaves State.control (completeFunclet index) :=
  along_bind (onGraph_leaves (fun _ _ => rfl) _) fun _ => along_bind openRegion_leaves fun _ =>
    along_bind (leaves_inRange _) fun _ => onBuilder_leaves (fun _ _ => rfl) _

theorem beginFunclet_isOpen {index : Nat} {params : List ValueType}
    (ok : beginFunclet index params s = .ok () t) : t.control ≠ #[] := by
  have moved (block : BlockId) : Leaves State.control (do
      moveTo block
      let args ← onBuilder (Ssa.Builder.args block)
      onStack (TypedStack.reset (TypedStack.withValues params (args.map some)))) :=
    along_bind (along_modify fun _ => rfl) fun _ =>
      along_bind (onBuilder_leaves (fun _ _ => rfl) _) fun _ => onStack_leaves (fun _ _ => rfl) _
  obtain ⟨frame, u, found, ok⟩ := bind_ok.mp ok
  obtain ⟨found, rfl⟩ := innermost_ok.mp found
  have control : t.control = s.control := by
    refine (?_ : Leaves State.control _).of_ok ok
    refine along_bind (leaves_require _ _) fun _ => along_bind openRegion_leaves fun _ =>
      along_bind (leaves_inRange _) fun block => along_bind (onBuilder_leaves (fun _ _ => rfl) _)
        fun _ => along_bind (onGraph_leaves (fun _ _ => rfl) _) fun ready => ?_
    exact along_ite (along_bind (completeFunclet_leaves index) fun _ => moved block) (moved block)
  rw [control]
  rintro empty
  simp [State.frame?, empty] at found

/-- An instruction runs alike wherever the cursor stands, but for the header of a funclet that it
starts. -/
theorem execute_moved {i : Instruction} (other : Setting) (ok : execute setting i s = .ok () t) :
    (t.cursor = s.cursor ∧ t.decoded = s.decoded ∧
      ∀ c n, execute other i (s.moved c n) = .ok () (t.moved c n)) ∨
    (t.control ≠ #[] ∧ ∃ header, Decode.funcletHeader setting s.cursor = .ok header t.cursor ∧
      t.decoded = s.decoded + counted header ∧
        ∀ c d n, c.offset = s.cursor.offset → Decode.funcletHeader other c = .ok header d →
          execute other i (s.moved c n) = .ok () (t.moved d (n + counted header))) := by
  obtain ⟨lead, made, _, same⟩ := execute_startsLast i
  have blind : Blind lead := made.of_all blind_parts
  rw [show execute setting i = _ from same setting] at ok
  rw [show execute other i = _ from same other]
  obtain ⟨start, u, led, started⟩ := bind_ok.mp ok
  have cursor := blind.cursor led
  have decoded := blind.decoded led
  cases start with
  | none =>
      obtain ⟨-, rfl⟩ := pure_ok.mp started
      exact .inl ⟨cursor, decoded, fun c n => bind_ok.mpr ⟨none, _, blind.of_ok led c n, rfl⟩⟩
  | some index =>
      obtain ⟨header, read, count⟩ := startFunclet_header started
      obtain ⟨_, _, _, _, _, _, _, _, began⟩ := startFunclet_reads.mp started
      refine .inr ⟨beginFunclet_isOpen began, header, cursor ▸ read, decoded ▸ count,
        fun c d n offset read' => ?_⟩
      exact bind_ok.mpr ⟨some index, _, blind.of_ok led c n,
        startFunclet_moved started read (offset.trans (congrArg Cursor.offset cursor.symm)) read' n⟩

theorem execute_onward (setting : Setting) (i : Instruction) (s : State) :
    Ends (execute setting i) s (fun _ t => s.cursor.Behind t.cursor)
      fun _ t => s.cursor.Behind t.cursor := by
  obtain ⟨lead, made, _, same⟩ := execute_startsLast i
  rw [show execute setting i = _ from same setting, ends_bind]
  have blind : Blind lead := made.of_all blind_parts
  refine (blind.ends s).mono (fun start u same => ?_) fun _ u same => .of_eq same
  cases start with
  | none => exact .of_eq same.1
  | some index => exact same.1 ▸ startFunclet_onward setting index u

end WasmFunclets.Validation
