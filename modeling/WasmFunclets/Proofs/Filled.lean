import WasmFunclets.Proofs.Blind
import WasmFunclets.Proofs.Guards
import WasmFunclets.Proofs.Ssa.Filling

/-! An instruction first writes to the current block, then adds edges from it and then goes on to another
one: a block that has an edge is never written to again. -/

namespace WasmFunclets.Validation

open Attempt
open Ssa (BlockKind)
open Ssa.Builder (Request PerformsAll Tries Serves serves_request serves_of_attempt)

variable {α β : Type} {setting : Setting} {bytes : List UInt8} {s t : State} {i : Instruction}
variable {sources : BlockId → Prop}

def Neutral (request : Request) : Prop := request.fills = none ∧ request.source = none

def FillsCurrent (current : BlockId) (request : Request) : Prop :=
  request.source = none ∧ ∀ c, request.fills = some c → c = current

/-- Adds an edge from the current block or another allowed source, if any, and writes to no block. -/
def LinksFrom (sources : BlockId → Prop) (current : BlockId) (request : Request) : Prop :=
  request.fills = none ∧ ∀ c, request.source = some c → c = current ∨ sources c

theorem Neutral.fillsCurrent {request : Request} {current : BlockId} (neutral : Neutral request) :
    FillsCurrent current request := ⟨neutral.2, by simp [neutral.1]⟩

theorem Neutral.linksFrom {request : Request} {current : BlockId} (neutral : Neutral request) :
    LinksFrom sources current request := ⟨neutral.1, by simp [neutral.2]⟩

/-- All that a step does to the function under construction is to make requests as allowed for the block
that is the current one before it. -/
def Requests (allowed : BlockId → List Request → Prop) (m : Step α) (s : State) : Prop :=
  Ends m s
    (fun _ t => ∃ requests, PerformsAll s.builder requests t.builder ∧ allowed s.current requests)
    fun _ t => ∃ requests, Tries s.builder requests t.builder ∧ allowed s.current requests

def Each (allowed : BlockId → Request → Prop) (current : BlockId) (requests : List Request) : Prop :=
  ∀ request ∈ requests, allowed current request

def Asks (allowed : BlockId → Request → Prop) (m : Step α) : Prop :=
  Along
    (fun s t => t.current = s.current ∧
      ∃ requests, PerformsAll s.builder requests t.builder ∧ Each allowed s.current requests)
    (fun _ s t => ∃ requests, Tries s.builder requests t.builder ∧ Each allowed s.current requests) m

def Lands (m : Step α) : Prop := ∀ s, Requests (Each fun _ => Neutral) m s

def Trails (sources : BlockId → Prop) (m : Step α) : Prop :=
  ∀ s, Requests (Each (LinksFrom sources)) m s

def InOrder (sources : BlockId → Prop) (current : BlockId) (requests : List Request) : Prop :=
  ∃ front back, requests = front ++ back ∧ Each FillsCurrent current front ∧
    Each (LinksFrom sources) current back

def Orderly (sources : BlockId → Prop) (m : Step α) : Prop := ∀ s, Requests (InOrder sources) m s

theorem Requests.bind {first rest both : BlockId → List Request → Prop} {m : Step α} {f : α → Step β}
    (runs : Requests first m s)
    (onward : ∀ a t, m s = .ok a t → Requests (fun _ => rest s.current) (f a) t)
    (alone : ∀ requests, first s.current requests → both s.current requests)
    (join : ∀ front back, first s.current front → rest s.current back → both s.current (front ++ back)) :
    Requests both (m >>= f) s := by
  unfold Requests
  rw [ends_bind]
  refine ends_of_forall (fun a t ok => ?_) fun e t error => ?_
  · obtain ⟨front, performs, fine⟩ := runs.of_ok ok
    refine (onward a t ok).mono ?_ ?_
    · rintro _ u ⟨back, more, fine'⟩
      exact ⟨front ++ back, performs.append more, join _ _ fine fine'⟩
    · rintro _ u ⟨back, more, fine'⟩
      exact ⟨front ++ back, performs.then_tries more, join _ _ fine fine'⟩
  · obtain ⟨front, tries, fine⟩ := runs.of_error error
    exact ⟨front, tries, alone _ fine⟩

theorem Each.append {allowed : BlockId → Request → Prop} {current : BlockId} {front back : List Request}
    (first : Each allowed current front) (second : Each allowed current back) :
    Each allowed current (front ++ back) := List.forall_mem_append.mpr ⟨first, second⟩

theorem Requests.at {allowed : BlockId → List Request → Prop} {m : Step α} {c : BlockId}
    (runs : Requests allowed m s) (same : s.current = c) : Requests (fun _ => allowed c) m s := by
  subst same
  exact runs

theorem Requests.mono {allowed wider : BlockId → List Request → Prop} {m : Step α}
    (runs : Requests allowed m s) (widen : ∀ requests, allowed s.current requests →
      wider s.current requests) : Requests wider m s := by
  refine Ends.mono runs ?_ ?_
  · rintro _ t ⟨requests, performs, fine⟩
    exact ⟨requests, performs, widen _ fine⟩
  · rintro _ t ⟨requests, tries, fine⟩
    exact ⟨requests, tries, widen _ fine⟩

section Asks

variable {allowed wider : BlockId → Request → Prop}

instance : Composes
    (fun s t : State => t.current = s.current ∧
      ∃ requests, PerformsAll s.builder requests t.builder ∧ Each allowed s.current requests)
    fun (_ : Fault) s t => ∃ requests, Tries s.builder requests t.builder ∧
      Each allowed s.current requests where
  refl s := ⟨rfl, [], .nil s.builder, fun _ => nofun⟩
  trans := by
    rintro s t u ⟨same, front, performs, fine⟩ ⟨same', back, more, fine'⟩
    rw [same] at fine'
    exact ⟨same'.trans same, front ++ back, performs.append more, fine.append fine'⟩
  fails := by
    rintro e s t u ⟨same, front, performs, fine⟩ ⟨back, more, fine'⟩
    rw [same] at fine'
    exact ⟨front ++ back, performs.then_tries more, fine.append fine'⟩

theorem Asks.requests {m : Step α} (asks : Asks allowed m) (s : State) : Requests (Each allowed) m s :=
  (asks s).imp fun _ _ => And.right

theorem Asks.current {m : Step α} (asks : Asks allowed m) {a : α} (ok : m s = .ok a t) :
    t.current = s.current := ((asks s).of_ok ok).1

theorem Asks.mono {m : Step α} (asks : Asks allowed m)
    (widen : ∀ current request, allowed current request → wider current request) : Asks wider m := by
  intro s
  refine (asks s).mono ?_ ?_
  · rintro _ t ⟨same, requests, performs, fine⟩
    exact ⟨same, requests, performs, fun request member => widen _ request (fine request member)⟩
  · rintro _ t ⟨requests, tries, fine⟩
    exact ⟨requests, tries, fun request member => widen _ request (fine request member)⟩

theorem asks_of_leaves {m : Step α} (leaves : Leaves (fun s => (s.builder, s.current)) m) :
    Asks allowed m := by
  refine fun s => (leaves s).mono (fun _ t same => ?_) fun _ t same => ?_
  · exact ⟨(Prod.mk.inj same).2, [], (Prod.mk.inj same).1 ▸ .nil _, fun _ => nofun⟩
  · exact ⟨[], (Prod.mk.inj same).1 ▸ .all (.nil _), fun _ => nofun⟩

theorem asks_throw (e : Fault) : Asks allowed (throw e : Step α) := asks_of_leaves (leaves_throw e)

theorem asks_onStack (change : Attempt TypedStack α) : Asks allowed (onStack change) :=
  asks_of_leaves (onStack_leaves (fun _ _ => rfl) change)

theorem asks_modify {f : State → State} (same : ∀ s, ((f s).builder, (f s).current) = (s.builder, s.current)) :
    Asks allowed (modify f : Step PUnit) := asks_of_leaves (along_modify same)

theorem asks_onBuilder {change : Attempt Ssa.Builder α} (serves : ∀ current, Serves (allowed current) change) :
    Asks allowed (onBuilder change) := by
  exact fun s => ends_within.mpr ((serves s.current s.builder).imp fun _ _ performs => ⟨rfl, performs⟩)

theorem asks_atCurrent {f : BlockId → Step β}
    (rest : ∀ c, Asks (fun current request => current = c → allowed current request) (f c)) :
    Asks allowed (get >>= fun s => f s.current) := by
  refine fun s => Ends.mono (m := f s.current) (rest s.current s) ?_ ?_
  · rintro _ t ⟨same, requests, performs, fine⟩
    exact ⟨same, requests, performs, fun request member => fine request member rfl⟩
  · rintro _ t ⟨requests, tries, fine⟩
    exact ⟨requests, tries, fun request member => fine request member rfl⟩

end Asks

section Parts

variable {allowed : BlockId → Request → Prop}

theorem asks_innermost : Asks allowed innermost := asks_of_leaves innermost_leaves

theorem asks_openRegion : Asks allowed openRegion := asks_of_leaves openRegion_leaves

theorem asks_inRange (found : Option α) : Asks allowed (inRange found : Step α) :=
  asks_of_leaves (leaves_inRange found)

theorem asks_require (p : Prop) [Decidable p] (cause : Cause) :
    Asks allowed (require p cause : Step Unit) := asks_of_leaves (leaves_require p cause)

theorem asks_onGraph (change : Attempt FuncletCalls α) : Asks allowed (onGraph change) :=
  asks_of_leaves (onGraph_leaves (fun _ _ => rfl) change)

theorem asks_labelled (depth : Nat) : Asks allowed (labelled depth) := by
  refine asks_of_leaves (along_bind along_get fun s => ?_)
  cases s.frame? depth with
  | none => exact leaves_throw _
  | some frame => exact along_pure _

theorem asks_operandsUnreachable : Asks allowed operandsUnreachable :=
  asks_of_leaves <| along_bind along_get fun _ => along_bind innermost_leaves fun _ => along_pure _

theorem asks_regionOperands : Asks allowed regionOperands :=
  along_bind asks_openRegion fun _ => asks_of_leaves (along_bind along_get fun _ => leaves_inRange _)

/-- What all steps may ask for. -/
class Tolerant (allowed : BlockId → Request → Prop) : Prop where
  neutral : ∀ current request, Neutral request → allowed current request

instance : Tolerant FillsCurrent := ⟨fun _ _ => Neutral.fillsCurrent⟩

instance : Tolerant (LinksFrom sources) := ⟨fun _ _ => Neutral.linksFrom⟩

instance : Tolerant (fun _ => Neutral) := ⟨fun _ _ => id⟩

variable [Tolerant allowed]

theorem serves_neutral (current : BlockId) {change : Attempt Ssa.Builder α}
    (serves : Serves Neutral change) : Serves (allowed current) change := fun b =>
  (serves b).mono
    (fun _ _ ⟨requests, performs, fine⟩ =>
      ⟨requests, performs, fun r member => Tolerant.neutral _ r (fine r member)⟩)
    fun _ _ ⟨requests, tries, fine⟩ =>
      ⟨requests, tries, fun r member => Tolerant.neutral _ r (fine r member)⟩

theorem addBlock_neutral (kind : BlockKind) : Serves Neutral (Ssa.Builder.addBlock kind) :=
  serves_of_attempt (.addBlock kind) ⟨rfl, rfl⟩ rfl

theorem args_neutral (block : BlockId) : Serves Neutral (Ssa.Builder.args block) :=
  serves_of_attempt (.args block) ⟨rfl, rfl⟩ rfl

theorem sealBlock_neutral (block : BlockId) : Serves Neutral (Ssa.Builder.sealBlock block) :=
  serves_request (.sealBlock block) ⟨rfl, rfl⟩

theorem declareArguments_neutral (block : BlockId) (types : List ValueType) :
    Serves Neutral (Ssa.Builder.declareArguments block types) :=
  serves_request (.declareArguments block types) ⟨rfl, rfl⟩

theorem asks_neutral {change : Attempt Ssa.Builder α} (serves : Serves Neutral change) :
    Asks allowed (onBuilder change) := asks_onBuilder fun current => serves_neutral current serves

theorem asks_valuesOf (operands : List Operand) : Asks allowed (valuesOf operands) :=
  along_mapM fun operand _ => by
    unfold valueOf
    split
    · exact along_pure _
    · exact asks_neutral (serves_of_attempt (.undef operand.type) ⟨rfl, rfl⟩ rfl)

theorem asks_takeValues (types : List ValueType) : Asks allowed (takeValues types) :=
  along_bind (asks_onStack _) fun _ => asks_valuesOf _

theorem asks_takeValue (type : ValueType) : Asks allowed (takeValue type) :=
  along_bind (asks_takeValues _) fun _ => along_pure _

theorem asks_shareValues (types : List ValueType) : Asks allowed (shareValues types) :=
  along_bind (asks_takeValues _) fun _ => along_bind (asks_onStack _) fun _ => along_pure _

theorem asks_takeAll (results : List ValueType) : Asks allowed (takeAll results) :=
  along_bind (asks_of_leaves along_get) fun _ => along_bind (asks_require _ _) fun _ =>
    asks_takeValues _

theorem asks_newTarget (kind : BlockKind) (types : List ValueType) : Asks allowed (newTarget kind types) :=
  asks_neutral <| along_bind (addBlock_neutral _) fun _ =>
    along_bind (declareArguments_neutral _ _) fun _ => along_pure _

theorem asks_completeFunclet (index : Nat) : Asks allowed (completeFunclet index) :=
  along_bind (asks_onGraph _) fun _ => along_bind asks_openRegion fun _ => along_bind (asks_inRange _) fun _ =>
    asks_neutral (sealBlock_neutral _)

end Parts

theorem Lands.bind {m : Step α} {f : α → Step β} (first : Lands m) (rest : ∀ a, Lands (f a)) :
    Lands (m >>= f) := fun s =>
  (first s).bind (fun a t _ => rest a t) (fun _ fine => fine) fun _ _ => Each.append

theorem Asks.lands {m : Step α} (asks : Asks (fun _ => Neutral) m) : Lands m := asks.requests

theorem Lands.trails {m : Step α} (lands : Lands m) : Trails sources m := fun s =>
  (lands s).mono fun _ fine request member => (fine request member).linksFrom

theorem Asks.trails {m : Step α} (asks : Asks (LinksFrom sources) m) : Trails sources m :=
  asks.requests

theorem trails_bind {m : Step α} {f : α → Step β} (first : Asks (LinksFrom sources) m)
    (rest : ∀ a, Trails sources (f a)) : Trails sources (m >>= f) := fun s =>
  (first.requests s).bind (fun a t ok => (rest a t).at (first.current ok)) (fun _ fine => fine)
    fun _ _ => Each.append

theorem trails_land {m : Step α} {f : α → Step β} (first : Trails sources m)
    (rest : ∀ a, Lands (f a)) : Trails sources (m >>= f) := by
  intro s
  have more (a : α) (t : State) : Requests (fun _ => Each (fun _ => Neutral) s.current) (f a) t :=
    rest a t
  exact (first s).bind (fun a t _ => more a t) (fun _ fine => fine) fun _ _ one two =>
    one.append fun request member => (two request member).linksFrom

theorem Trails.orderly {m : Step α} (trails : Trails sources m) : Orderly sources m := fun s =>
  (trails s).mono fun requests fine => ⟨[], requests, rfl, fun _ => nofun, fine⟩

theorem Asks.orderly {m : Step α} (asks : Asks FillsCurrent m) : Orderly sources m := fun s =>
  (asks.requests s).mono fun requests fine => ⟨requests, [], (List.append_nil _).symm, fine, fun _ => nofun⟩

theorem orderly_bind {m : Step α} {f : α → Step β} (first : Asks FillsCurrent m)
    (rest : ∀ a, Orderly sources (f a)) : Orderly sources (m >>= f) := fun s =>
  (first.requests s).bind (fun a t ok => (rest a t).at (first.current ok))
    (fun requests fine => ⟨requests, [], (List.append_nil _).symm, fine, fun _ => nofun⟩) <| by
    rintro before _ fine ⟨front, back, rfl, fine', links⟩
    exact ⟨before ++ front, back, (List.append_assoc ..).symm, fine.append fine', links⟩

theorem orderly_trail {m : Step α} {f : α → Step β} (first : Orderly sources m)
    (rest : ∀ a, Lands (f a)) : Orderly sources (m >>= f) := by
  intro s
  have more (a : α) (t : State) : Requests (fun _ => Each (fun _ => Neutral) s.current) (f a) t :=
    rest a t
  refine (first s).bind (fun a t _ => more a t) (fun _ fine => fine) ?_
  rintro _ behind ⟨front, back, rfl, fine, links⟩ two
  exact ⟨front, back ++ behind, List.append_assoc .., fine,
    links.append fun request member => (two request member).linksFrom⟩

theorem asks_branchTo (target : BlockId) (args : List ValueId) :
    Asks (LinksFrom sources) (branchTo target args) :=
  asks_atCurrent (f := fun block => onBuilder (Ssa.Builder.connect block target args)) fun block =>
    asks_onBuilder fun _ => serves_request (.connect block target args)
      fun same => ⟨rfl, fun _ from_ => .inl ((Option.some.inj from_).symm.trans same.symm)⟩

theorem asks_emit (opcode : UInt8) (type : ValueType) (operands : List ValueId) (immediate : UInt64) :
    Asks FillsCurrent (emit opcode type operands immediate) :=
  asks_atCurrent (f := fun block =>
      onBuilder (Ssa.Builder.emit block opcode type operands immediate)) fun block =>
    asks_onBuilder fun _ => serves_of_attempt (.emit block opcode type operands immediate)
      (fun same => ⟨rfl, fun _ into => (Option.some.inj into).symm.trans same.symm⟩) rfl

theorem asks_emitStatement (opcode : UInt8) (operands : List ValueId) (immediate : Nat) :
    Asks FillsCurrent (emitStatement opcode operands immediate) :=
  along_bind (asks_emit _ _ _ _) fun _ => along_pure _

theorem lands_moveTo (block : BlockId) : Lands (moveTo block) := fun s =>
  ⟨[], .nil s.builder, fun _ => nofun⟩

theorem trails_followBlock {source : BlockId} : Trails (· = source) (followBlock source) := by
  refine trails_land (Asks.trails (asks_onBuilder fun current => ?_)) fun next => lands_moveTo next
  exact along_bind (serves_neutral current (addBlock_neutral _)) fun next =>
    along_bind (serves_request (.connect source next [])
      ⟨rfl, fun c from_ => .inr (Option.some.inj from_).symm⟩) fun _ =>
        along_bind (serves_neutral current (sealBlock_neutral next)) fun _ => along_pure _

theorem trails_fallThrough : Trails sources fallThrough := by
  intro s
  have runs : Requests (Each (LinksFrom (· = s.current))) (followBlock s.current) s :=
    trails_followBlock s
  exact Requests.mono (m := followBlock s.current) runs fun requests fine request member =>
    ⟨(fine request member).1, fun c from_ => ((fine request member).2 c from_).elim .inl .inl⟩

theorem asks_transferTo (target : Nat) (args : List Operand) (polymorphic : Bool) :
    Asks (LinksFrom sources) (transferTo target args polymorphic) :=
  along_bind (asks_of_leaves along_get) fun _ => along_bind (asks_onGraph _) fun _ =>
    along_bind asks_openRegion fun _ => along_bind (asks_inRange _) fun _ =>
      along_bind (asks_valuesOf _) fun _ => along_bind (asks_branchTo _ _) fun _ =>
        along_ite (asks_completeFunclet _) (along_pure _)

theorem lands_startFunclet (setting : Setting) (index : Nat) : Lands (startFunclet setting index) := by
  have params : Asks (fun _ => Neutral) (funcletParams setting index) := by
    refine along_bind (asks_of_leaves fun s => ends_within.mpr (ends_of_forall (fun _ _ _ => rfl)
      fun _ _ _ => rfl)) fun header => ?_
    cases header with
    | some header =>
        exact along_bind (asks_modify fun _ => rfl) fun _ => along_bind (asks_onGraph _) fun _ =>
          along_pure _
    | none => exact along_ite (along_bind (asks_onGraph _) fun _ => along_pure _) (asks_onGraph _)
  have begins (block : BlockId) (types : List ValueType) : Lands (do
      moveTo block
      let args ← onBuilder (Ssa.Builder.args block)
      onStack (TypedStack.reset (TypedStack.withValues types (args.map some)))) :=
    (lands_moveTo block).bind fun _ => Asks.lands <|
      along_bind (asks_neutral (args_neutral _)) fun _ => asks_onStack _
  refine Lands.bind (Asks.lands (asks_modify fun _ => rfl)) fun _ => Lands.bind (asks_onGraph _).lands
    fun _ => Lands.bind params.lands fun types => Lands.bind asks_innermost.lands fun _ =>
      Lands.bind (asks_require _ _).lands fun _ => Lands.bind asks_openRegion.lands fun _ =>
        Lands.bind (asks_inRange _).lands fun block => Lands.bind
          (asks_neutral (declareArguments_neutral _ _)).lands fun _ =>
            Lands.bind (asks_onGraph _).lands fun ready => ?_
  cases ready with
  | false => exact begins block types
  | true => exact Lands.bind (asks_completeFunclet _).lands fun _ => begins block types

theorem asks_record {allowed : BlockId → Request → Prop} (region : OpenRegion) :
    Asks allowed (OpenRegion.record region) := by
  refine along_bind (along_mapM fun index _ => along_bind (asks_inRange _) fun node => ?_) fun _ => along_pure _
  split
  · exact asks_throw _
  · exact along_bind (asks_inRange _) fun _ => along_pure _

theorem lands_closeRegion : Lands closeRegion :=
  Lands.bind (asks_onGraph _).lands fun _ => Lands.bind asks_openRegion.lands fun _ =>
    Lands.bind asks_innermost.lands fun _ => Lands.bind
      (asks_neutral (along_bind (sealBlock_neutral _) fun _ => args_neutral _)).lands fun _ =>
        Lands.bind (asks_record _).lands fun _ => Lands.bind (asks_modify fun _ => rfl).lands fun _ =>
          Lands.bind (asks_onStack _).lands fun _ => Lands.bind (lands_moveTo _) fun _ =>
            Lands.bind (asks_onStack _).lands fun _ => Lands.bind (asks_modify fun _ => rfl).lands fun _ =>
              (asks_modify fun _ => rfl).lands

theorem lands_nextFunclet (setting : Setting) : Lands (nextFunclet setting) := by
  refine Lands.bind asks_openRegion.lands fun r => ?_
  dsimp only
  split
  · exact lands_startFunclet _ _
  · exact lands_closeRegion

theorem lands_endBlock (setting : Setting) : Lands (endBlock setting) := by
  refine Lands.bind asks_innermost.lands fun frame => ?_
  split
  · exact lands_nextFunclet setting
  · exact Lands.bind (asks_onStack _).lands fun _ => Lands.bind (asks_neutral <|
      along_bind (addBlock_neutral _) fun _ => along_bind (sealBlock_neutral _) fun _ =>
        along_pure _).lands fun _ => lands_moveTo _

section Instructions

theorem br_orderly (depth : Nat) : Orderly sources (br setting depth) :=
  orderly_bind (asks_labelled _) fun _ => orderly_bind (asks_shareValues _) fun _ =>
    Trails.orderly <| trails_bind (asks_branchTo _ _) fun _ => (lands_endBlock setting).trails

theorem brIf_orderly (depth : Nat) : Orderly sources (brIf depth) :=
  orderly_bind (asks_takeValue _) fun _ => orderly_bind (asks_labelled _) fun _ =>
    orderly_bind (asks_shareValues _) fun _ => orderly_bind (asks_emitStatement _ _ _) fun _ =>
      Trails.orderly <| trails_bind (asks_branchTo _ _) fun _ => trails_fallThrough

theorem asks_brTargets (expected : List ValueType) (depths : List Nat) (seen : Std.HashSet BlockId) :
    Asks (LinksFrom sources) (brTargets expected depths seen) := by
  induction depths generalizing seen with
  | nil => exact along_pure _
  | cons depth depths ih =>
      exact along_bind (asks_labelled _) fun _ => along_bind (asks_require _ _) fun _ =>
        along_bind (asks_shareValues _) fun _ =>
          along_ite (ih _) (along_bind (asks_branchTo _ _) fun _ => ih _)

theorem brTable_orderly (depths : List Nat) (default : Nat) :
    Orderly sources (brTable setting depths default) :=
  orderly_bind (asks_takeValue _) fun _ => orderly_bind (asks_emitStatement _ _ _) fun _ =>
    orderly_bind (asks_labelled _) fun _ => Trails.orderly <|
      trails_bind (asks_brTargets _ _ _) fun _ => (lands_endBlock setting).trails

theorem ret_orderly : Orderly sources (ret setting) := by
  refine orderly_bind (asks_of_leaves along_get) fun s => ?_
  cases s.control[0]? with
  | none => exact orderly_bind (asks_throw _) fun _ => (lands_endBlock setting).trails.orderly
  | some function =>
      exact orderly_bind (asks_of_leaves along_get) fun _ => orderly_bind (asks_shareValues _)
        fun _ => Trails.orderly <| trails_bind (asks_branchTo _ _) fun _ =>
          (lands_endBlock setting).trails

theorem asks_pushResults (tuple : ValueId) (index : Nat) (types : List ValueType) :
    Asks FillsCurrent (pushResults tuple index types) := by
  induction types generalizing index with
  | nil => exact along_pure _
  | cons type types ih =>
      refine asks_atCurrent (f := fun block => do
        putValue type (← onBuilder (Ssa.Builder.project block tuple index type))
        pushResults tuple (index + 1) types) fun block => ?_
      refine along_bind (asks_onBuilder fun _ => serves_of_attempt (.project block tuple index type)
        (fun same => ⟨rfl, fun _ into => (Option.some.inj into).symm.trans same.symm⟩) rfl) fun _ => ?_
      exact along_bind (asks_onStack _) fun _ => (ih _).mono fun _ _ fine _ => fine

theorem asks_call (index : Nat) (callee : Signature) : Asks FillsCurrent (call index callee) := by
  refine along_bind (asks_takeValues _) fun args => ?_
  dsimp only
  split
  · exact along_bind (asks_emit _ _ _ _) fun _ => asks_onStack _
  · exact along_bind (asks_emit _ _ _ _) fun _ => asks_pushResults _ _ _

theorem asks_select : Asks FillsCurrent select := by
  refine along_bind (asks_takeValue _) fun _ => along_bind (asks_onStack _) fun _ =>
    along_bind (asks_onStack _) fun _ => along_bind (asks_require _ _) fun _ =>
      along_bind (asks_valuesOf _) fun _ => along_bind (asks_emit _ _ _ _) fun _ => asks_onStack _

theorem asks_selectTyped (type : ValueType) : Asks FillsCurrent (selectTyped type) :=
  along_bind (asks_takeValue _) fun _ => along_bind (asks_takeValues _) fun _ =>
    along_bind (asks_emit _ _ _ _) fun _ => asks_onStack _

theorem asks_localGet (slot : Nat) (type : ValueType) : Asks FillsCurrent (localGet slot type) := by
  refine asks_atCurrent (f := fun block => do
    putValue type (← onBuilder (Ssa.Builder.getLocal block slot))) fun block => ?_
  have reads : Asks FillsCurrent (onBuilder (Ssa.Builder.getLocal block slot)) :=
    asks_neutral (serves_of_attempt (.getLocal block slot) ⟨rfl, rfl⟩ rfl)
  exact along_bind (reads.mono fun _ _ fine _ => fine) fun _ => asks_onStack _

theorem asks_localSet (slot : Nat) (type : ValueType) : Asks FillsCurrent (localSet slot type) := by
  refine along_bind (asks_takeValue _) fun value => asks_atCurrent (f := fun block => do
    onBuilder (Ssa.Builder.setLocal block slot value)
    return value) fun block => ?_
  exact along_bind (asks_onBuilder fun _ => serves_request (.setLocal block slot value)
    fun same => ⟨rfl, fun _ into => (Option.some.inj into).symm.trans same.symm⟩) fun _ => along_pure _

theorem asks_constant (type : ValueType) (bits : UInt64) : Asks FillsCurrent (constant type bits) := by
  refine asks_atCurrent (f := fun block => do
    putValue type (← onBuilder (Ssa.Builder.constant block type bits))) fun block => ?_
  exact along_bind (asks_onBuilder fun _ => serves_of_attempt (.constant block type bits)
    (fun same => ⟨rfl, fun _ into => (Option.some.inj into).symm.trans same.symm⟩) rfl)
      fun _ => asks_onStack _

theorem asks_operation (opcode : UInt8) (params : List ValueType) (result : ValueType)
    (immediate : UInt64) : Asks FillsCurrent (operation opcode params result immediate) :=
  along_bind (asks_takeValues _) fun _ => along_bind (asks_emit _ _ _ _) fun _ =>
    along_ite (along_pure _) (asks_onStack _)

theorem asks_pushFrame {allowed : BlockId → Request → Prop} (signature : Signature) (mark : Mark)
    (target : BlockId) (construct : Construct) :
    Asks allowed (pushFrame signature mark target construct) := asks_modify fun _ => rfl

theorem openBlock_orderly (signature : Signature) : Orderly sources (openBlock signature) :=
  Asks.orderly <| along_bind (asks_newTarget _ _) fun _ => along_bind (asks_onStack _) fun _ =>
    asks_pushFrame _ _ _ _

theorem openLoop_orderly (signature : Signature) : Orderly sources (openLoop signature) :=
  orderly_bind (asks_newTarget _ _) fun header => orderly_bind (asks_shareValues _) fun _ =>
    Trails.orderly <| trails_bind (asks_branchTo _ _) fun _ => trails_bind (asks_onStack _) fun _ =>
      trails_land (lands_moveTo _).trails fun _ => Asks.lands <|
        along_bind (asks_neutral (args_neutral header)) fun _ => along_bind (asks_onStack _) fun _ =>
          asks_pushFrame _ _ _ _

theorem openIf_orderly (signature : Signature) : Orderly sources (openIf signature) :=
  orderly_bind (asks_takeValue _) fun _ => orderly_bind (asks_shareValues _) fun _ =>
    orderly_bind (asks_emitStatement _ _ _) fun _ => orderly_bind (asks_onStack _) fun _ =>
      orderly_bind (asks_newTarget _ _) fun _ => orderly_bind (asks_of_leaves along_get) fun _ =>
        orderly_trail trails_fallThrough.orderly fun _ => (asks_pushFrame _ _ _ _).lands

theorem funcletRegion_orderly (signature : Signature) (funclets : Nat) :
    Orderly sources (funcletRegion setting signature funclets) := by
  refine orderly_bind (asks_of_leaves along_get) fun _ => orderly_bind (asks_of_leaves along_get)
    fun _ => ?_
  dsimp only
  cases FuncletCalls.ofSize? funclets with
  | none => exact (asks_throw _).orderly
  | some graph =>
      exact orderly_bind (asks_neutral (along_mapM fun _ _ => addBlock_neutral _)) fun _ =>
        orderly_bind (asks_newTarget _ _) fun _ => orderly_bind (asks_shareValues _) fun _ =>
          Trails.orderly <| trails_bind (asks_branchTo _ _) fun _ => trails_bind (asks_onStack _)
            fun _ => trails_bind (asks_pushFrame _ _ _ _) fun _ => trails_bind (asks_modify fun _ => rfl)
              fun _ => (lands_startFunclet setting 0).trails

theorem funcletCall_orderly (target : Nat) : Orderly sources (funcletCall setting target) :=
  orderly_bind (asks_emitStatement _ _ _) fun _ => orderly_bind asks_regionOperands fun _ =>
    orderly_bind asks_operandsUnreachable fun _ => Trails.orderly <|
      trails_bind (asks_transferTo _ _ _) fun _ => (lands_endBlock setting).trails

theorem funcletCallIf_orderly (target : Nat) : Orderly sources (funcletCallIf target) :=
  orderly_bind (asks_takeValue _) fun _ => orderly_bind (asks_emitStatement _ _ _) fun _ =>
    orderly_bind asks_regionOperands fun _ => orderly_bind asks_operandsUnreachable fun _ =>
      Trails.orderly <| trails_bind (asks_transferTo _ _ _) fun _ => trails_fallThrough

theorem asks_callTargets (args : List Operand) (polymorphic : Bool) (targets : List Nat)
    (seen : Std.HashSet Nat) : Asks (LinksFrom sources) (callTargets args polymorphic targets seen) := by
  induction targets generalizing seen with
  | nil => exact along_pure _
  | cons target targets ih =>
      exact along_ite (ih _) (along_bind (asks_transferTo _ _ _) fun _ => ih _)

theorem funcletCallTable_orderly (targets : List Nat) (default : Nat) :
    Orderly sources (funcletCallTable setting targets default) :=
  orderly_bind (asks_takeValue _) fun _ => orderly_bind (asks_emitStatement _ _ _) fun _ =>
    orderly_bind asks_regionOperands fun _ => orderly_bind asks_operandsUnreachable fun _ =>
      Trails.orderly <| trails_bind (asks_callTargets _ _ _ _) fun _ => (lands_endBlock setting).trails

theorem closeFunclet_orderly (frame : Frame) : Orderly sources (closeFunclet setting frame) := by
  refine orderly_bind asks_openRegion fun r => ?_
  dsimp only
  split
  · exact orderly_bind asks_regionOperands fun _ => orderly_bind asks_operandsUnreachable fun _ =>
      Trails.orderly <| trails_bind (asks_transferTo _ _ _) fun _ => (lands_nextFunclet setting).trails
  · exact orderly_bind (asks_takeAll _) fun _ => Trails.orderly <|
      trails_bind (asks_branchTo _ _) fun _ => lands_closeRegion.trails

theorem closeJoin_trails (frame : Frame) (results : List ValueId) :
    Trails sources (closeJoin frame results) :=
  trails_bind (asks_branchTo _ _) fun _ => trails_bind (asks_neutral (sealBlock_neutral _)) fun _ =>
    trails_bind (asks_onStack _) fun _ => Lands.trails <| Lands.bind (lands_moveTo _) fun _ =>
      Asks.lands <| along_bind (asks_neutral (args_neutral _)) fun _ => along_bind (asks_onStack _)
        fun _ => asks_modify fun _ => rfl

theorem skipBranch_asks (frame : Frame) (condition : BlockId) (params : List ValueId) :
    Asks (LinksFrom (· = condition)) (skipBranch frame condition params) :=
  along_bind (asks_require _ _) fun _ => asks_onBuilder fun _ =>
    serves_request (.connect condition frame.target params)
      ⟨rfl, fun _ from_ => .inr (Option.some.inj from_).symm⟩

/-- The block where the innermost `if` was entered, at its `else` or end. -/
def Resumed (frame : Frame) (i : Instruction) (c : BlockId) : Prop :=
  (i = .elseThen ∨ i = .close) ∧ ∃ params, frame.construct = .ifThen c params

theorem Requests.innermost {allowed : BlockId → List Request → Prop} {frame : Frame}
    {f : Frame → Step α} (found : s.frame? 0 = some frame) (rest : Requests allowed (f frame) s) :
    Requests allowed (innermost >>= f) s :=
  ends_bind_of_ok (innermost_ok.mpr ⟨found, rfl⟩) rest

theorem openElse_orderly {frame : Frame} (found : s.frame? 0 = some frame) :
    Requests (InOrder (Resumed frame .elseThen)) openElse s := by
  refine Requests.innermost found ?_
  cases construct : frame.construct with
  | ifThen condition params =>
      have rest : Orderly (Resumed frame .elseThen) (do
          branchTo frame.target (← takeAll frame.signature.results)
          modify fun s => { s with control := s.control.pop.push { frame with construct := .ifElse } }
          followBlock condition
          onStack (TypedStack.reset
            (TypedStack.withValues frame.signature.params (params.map some))) : Step Unit) := by
        refine orderly_bind (asks_takeAll _) fun _ => Trails.orderly <| trails_bind (asks_branchTo _ _)
          fun _ => trails_bind (asks_modify fun _ => rfl) fun _ =>
            trails_land (fun s => ?_) fun _ => (asks_onStack _).lands
        refine (trails_followBlock s).mono fun _ fine request member =>
          ⟨(fine request member).1, fun c from_ => ((fine request member).2 c from_).imp_right ?_⟩
        rintro rfl
        exact ⟨.inl rfl, params, construct⟩
      exact rest s
  | _ => exact ((asks_throw _).orderly : Orderly _ (reject .elseWithoutIf : Step Unit)) s

theorem close_orderly {frame : Frame} (found : s.frame? 0 = some frame) :
    Requests (InOrder (Resumed frame .close)) (close setting) s := by
  refine Requests.innermost found ?_
  cases construct : frame.construct with
  | region => exact closeFunclet_orderly frame s
  | function =>
      refine (orderly_bind (asks_takeAll _) fun _ => Trails.orderly ?_ : Orderly _ _) s
      exact trails_bind (asks_branchTo _ _) fun _ =>
        trails_bind (asks_neutral (sealBlock_neutral _)) fun _ => (asks_modify fun _ => rfl).trails
  | loop =>
      refine (orderly_bind (asks_takeAll _) fun _ => Asks.orderly ?_ : Orderly _ _) s
      exact along_bind (asks_neutral (sealBlock_neutral _)) fun _ => along_bind (asks_onStack _) fun _ =>
        along_bind (asks_onStack _) fun _ => asks_modify fun _ => rfl
  | ifThen condition params =>
      refine (orderly_bind (asks_takeAll _) fun _ => Trails.orderly ?_ : Orderly _ _) s
      refine trails_bind ((skipBranch_asks frame condition params).mono fun _ _ fine =>
        ⟨fine.1, fun c from_ => (fine.2 c from_).imp_right ?_⟩) fun _ => closeJoin_trails frame _
      rintro rfl
      exact ⟨.inr rfl, params, construct⟩
  | block | ifElse =>
      exact (orderly_bind (asks_takeAll _) fun _ => (closeJoin_trails frame _).orderly : Orderly _ _) s

theorem execute_orderly {frame : Frame} (found : s.frame? 0 = some frame) (i : Instruction) :
    Requests (InOrder (Resumed frame i)) (execute setting i) s := by
  cases i with
  | unreachable =>
      exact (orderly_bind (asks_emitStatement _ _ _) fun _ =>
        (lands_endBlock setting).trails.orderly : Orderly _ _) s
  | nop => exact Asks.orderly (along_pure ()) s
  | block signature => exact openBlock_orderly signature s
  | loop signature => exact openLoop_orderly signature s
  | ifThen signature => exact openIf_orderly signature s
  | elseThen => exact openElse_orderly found
  | close => exact close_orderly found
  | br depth => exact br_orderly depth s
  | brIf depth => exact brIf_orderly depth s
  | brTable depths default => exact brTable_orderly depths default s
  | ret => exact ret_orderly s
  | call index callee => exact (asks_call index callee).orderly s
  | drop => exact Asks.orderly (along_bind (asks_onStack _) fun _ => along_pure _) s
  | select => exact asks_select.orderly s
  | selectTyped type => exact (asks_selectTyped type).orderly s
  | localGet slot type => exact (asks_localGet slot type).orderly s
  | localSet slot type =>
      exact Asks.orderly (along_bind (asks_localSet slot type) fun _ => along_pure _) s
  | localTee slot type =>
      exact Asks.orderly (along_bind (asks_localSet slot type) fun _ => asks_onStack _) s
  | constant type bits => exact (asks_constant type bits).orderly s
  | operation opcode params result immediate =>
      exact (asks_operation opcode params result immediate).orderly s
  | funcletRegion signature funclets => exact funcletRegion_orderly signature funclets s
  | strayFuncletSig =>
      exact Asks.orderly (along_bind (asks_of_leaves along_get) fun _ => asks_throw _) s
  | funcletCall target => exact funcletCall_orderly target s
  | funcletCallIf target => exact funcletCallIf_orderly target s
  | funcletCallTable targets default => exact funcletCallTable_orderly targets default s

end Instructions

/-- What an instruction asks of the function under construction, in order. No block is written to that
has an edge already, and one that had an edge before gets a further one only where an `if` that started
there comes to its `else` or end. -/
structure Logged (setting : Setting) (s : State) (requests : List Request) : Prop where
  fills : ∀ front request back c, requests = front ++ request :: back → request.fills = some c →
    ¬ s.builder.Used c ∧ ∀ earlier ∈ front, earlier.source ≠ some c
  sources : ∀ request ∈ requests, ∀ c, request.source = some c → s.builder.Used c →
    ∃ frame i cursor, s.frame? 0 = some frame ∧
      Decode.instruction (scopeOf setting s) s.cursor = .ok i cursor ∧ Resumed frame i c

def StepLogged (setting : Setting) (s : State) : Prop :=
  Ends (step setting) s
    (fun _ t => ∃ requests, PerformsAll s.builder requests t.builder ∧ Logged setting s requests)
    fun _ t => ∃ requests, Tries s.builder requests t.builder ∧ Logged setting s requests

theorem logged_nil : Logged setting s [] := ⟨by simp, by simp⟩

theorem InOrder.logged {frame : Frame} {cursor : Cursor} {requests : List Request}
    (order : InOrder (Resumed frame i) s.current requests) (found : s.frame? 0 = some frame)
    (decoded : Decode.instruction (scopeOf setting s) s.cursor = .ok i cursor)
    (unused : ¬ s.builder.Used s.current) : Logged setting s requests := by
  obtain ⟨writes, edges, rfl, fine, links⟩ := order
  refine ⟨fun front request back c split into => ?_, fun request member c from_ used => ?_⟩
  · -- A request that writes is one of the first ones, which are behind no edge.
    rcases List.append_eq_append_iff.mp split with ⟨between, rfl, rest⟩ | ⟨between, rfl, rest⟩
    · have late : request ∈ edges := by rw [rest]; simp
      rw [(links request late).1] at into
      cases into
    · cases between with
      | nil =>
          have late : request ∈ edges := by
            rw [List.nil_append] at rest
            rw [← rest]
            exact List.mem_cons_self
          rw [(links request late).1] at into
          cases into
      | cons first between =>
          rw [List.cons_append] at rest
          obtain ⟨rfl, _⟩ := List.cons.inj rest
          obtain rfl := (fine request (by simp)).2 c into
          exact ⟨unused, fun earlier before => by simp [(fine earlier (by simp [before])).1]⟩
  · rcases List.mem_append.mp member with early | late
    · rw [(fine request early).1] at from_
      cases from_
    · rcases (links request late).2 c from_ with rfl | resumed
      · exact absurd used unused
      · exact ⟨frame, i, cursor, found, decoded, resumed⟩

theorem Reached.unused (reached : Reached setting bytes s) (isOpen : s.control ≠ #[]) :
    ¬ s.builder.Used s.current := reached.loose.unused (frames_ne_nil isOpen)

theorem Reached.stepLogged (reached : Reached setting bytes s) (isOpen : s.control ≠ #[]) :
    StepLogged setting s := by
  obtain ⟨frame, _, _, found, _⟩ := (reached.loose.framed (frames_ne_nil isOpen)).cons
  have nothing : ∃ requests, Tries s.builder requests s.builder ∧ Logged setting s requests :=
    ⟨[], .all (.nil _), logged_nil⟩
  rw [StepLogged, Validation.step, ends_bind, ends_modify, ends_bind, ends_get, ends_bind, ends_require]
  refine ⟨fun _ => ?_, fun _ => nothing⟩
  rw [ends_bind, scope, ends_bind, ends_get, ends_pure, ends_bind]
  refine ends_within.mpr (ends_of_forall (fun i c decoded => ?_) fun _ _ _ => nothing)
  have logged {requests : List Request} (order : InOrder (Resumed frame i) s.current requests) :
      Logged setting s requests := order.logged found decoded (reached.unused isOpen)
  rw [ends_bind, ends_modify]
  refine Ends.mono (execute_orderly (s := s.fetched c) found i) ?_ ?_
  · rintro _ t ⟨requests, performs, order⟩
    exact ⟨requests, performs, logged order⟩
  · rintro _ t ⟨requests, tries, order⟩
    exact ⟨requests, tries, logged order⟩

inductive Continues (setting : Setting) : State → State → Prop where
  | refl (s : State) : Continues setting s s
  | step {s t u : State} (isOpen : s.control ≠ #[]) (ok : step setting s = .ok () t)
      (later : Continues setting t u) : Continues setting s u

theorem Continues.reached (continues : Continues setting s t) (reached : Reached setting bytes s) :
    Reached setting bytes t := by
  induction continues with
  | refl => exact reached
  | step isOpen ok _ ih => exact ih (reached.step isOpen ok)

theorem close_current {frame : Frame} (found : s.frame? 0 = some frame)
    (construct : frame.construct = .function) (ok : close setting s = .ok () t) :
    t.current = s.current := by
  obtain ⟨_, _, innermost, ok⟩ := bind_ok.mp ok
  obtain ⟨found', rfl⟩ := innermost_ok.mp innermost
  obtain rfl := Option.some.inj (found.symm.trans found')
  simp only [construct] at ok
  have stays : Asks (LinksFrom fun _ => False) (do
      closeFunction frame (← takeAll frame.signature.results)) :=
    along_bind (asks_takeAll _) fun _ => along_bind (asks_branchTo _ _) fun _ =>
      along_bind (asks_neutral (sealBlock_neutral _)) fun _ => asks_modify fun _ => rfl
  exact stays.current ok

theorem step_current (reached : Reached setting bytes s) (isOpen : s.control ≠ #[])
    (ok : step setting s = .ok () t) (closed : t.control = #[]) : t.current = s.current := by
  have framed := reached.loose.framed (frames_ne_nil isOpen)
  obtain ⟨i, c, _, executed⟩ := step_ok_iff.mp ok
  have shift := (execute_moves (framed.fetched c) executed).shift
  have empty : t.layers = [] := by simp [State.layers, State.frames, closed, layersOf]
  cases shift with
  | stays quiet =>
      have steady := quiet.layers
      rw [empty] at steady
      obtain ⟨l, outer, layers⟩ := (framed.fetched c).nested.cons
      rw [layers] at steady
      cases steady
  | opens l layers => cases empty.symm.trans layers
  | turns l m outer _ layers => cases empty.symm.trans layers
  | goesOn l m outer _ layers => cases empty.symm.trans layers
  | closes l parent outer _ layers => cases empty.symm.trans layers
  | ends l before _ _ isClose =>
      subst isClose
      have nested := before ▸ (framed.fetched c).nested
      have construct : l.frame.construct = .function := by
        cases nested with
        | function construct => exact construct
      have found : (s.fetched c).frame? 0 = some l.frame := by
        rw [State.frame?_eq, Framed.frames_cons before]
        rfl
      exact close_current (s := s.fetched c) found construct executed

theorem Reached.left (reached : Reached setting bytes s) (isOpen : s.control ≠ #[])
    (ok : Validation.step setting s = .ok () t) {c : BlockId} (used : s.builder.Used c) :
    t.builder.Used c ∧ t.current ≠ c ∧ t.builder.bodyOf c = s.builder.bodyOf c := by
  have still := (reached.later isOpen ok).used used
  obtain ⟨requests, performs, logged⟩ := (reached.stepLogged isOpen).of_ok ok
  refine ⟨still, ?_, performs.bodyOf fun request member into => ?_⟩
  · rintro rfl
    by_cases closed : t.control = #[]
    · rw [step_current reached isOpen ok closed] at used
      exact reached.unused isOpen used
    · exact (reached.step isOpen ok).unused closed still
  · obtain ⟨front, back, split⟩ := List.append_of_mem member
    exact (logged.fills front request back c split into).1 used

end WasmFunclets.Validation
