import WasmFunclets.Proofs.Ssa.LocalTypes
import WasmFunclets.Proofs.Ssa.Requests

/-! What is asked of a function under construction, request by request: which blocks are written to, and
which ones get edges. -/

namespace WasmFunclets.Ssa.Builder

open Attempt

variable {α β : Type} {b t u : Builder} {c : BlockId}

/-- The block that a request adds an instruction or a definition of a local to. -/
def Request.fills : Request → Option BlockId
  | .setLocal block _ _ => some block
  | .emit block _ _ _ _ => some block
  | .constant block _ _ => some block
  | .project block _ _ _ => some block
  | _ => none

def Request.source : Request → Option BlockId
  | .connect source _ _ => some source
  | _ => none

inductive PerformsAll : Builder → List Request → Builder → Prop where
  | nil (b : Builder) : PerformsAll b [] b
  | cons {b t u : Builder} {request : Request} {rest : List Request}
      (first : request.attempt b = .ok () t) (more : PerformsAll t rest u) :
      PerformsAll b (request :: rest) u

/-- The requests are made one after the other, and the last one may fail. -/
inductive Tries : Builder → List Request → Builder → Prop where
  | all {b t : Builder} {requests : List Request} (performs : PerformsAll b requests t) :
      Tries b requests t
  | failed {b t u : Builder} {requests : List Request} {last : Request} {e : Fault}
      (performs : PerformsAll b requests t) (error : last.attempt t = .error e u) :
      Tries b (requests ++ [last]) u

theorem PerformsAll.append {front back : List Request} (first : PerformsAll b front t)
    (second : PerformsAll t back u) : PerformsAll b (front ++ back) u := by
  induction first with
  | nil => exact second
  | cons one _ ih => exact .cons one (ih second)

theorem PerformsAll.then_tries {front back : List Request} (first : PerformsAll b front t)
    (second : Tries t back u) : Tries b (front ++ back) u := by
  cases second with
  | all performs => exact .all (first.append performs)
  | failed performs error =>
      rw [← List.append_assoc]
      exact .failed (first.append performs) error

theorem append_bodyOf {block : BlockId} (other : block ≠ c) (type : ValueType) (content : Content) :
    Leaves (fun b => b.bodyOf c) (append block type content) := by
  have bodies : Leaves bodyOf (addValue type (some block) content) := addValue_leaves _ _ _
  have values : Leaves (fun b => b.bodyOf c) (addValue type (some block) content) := fun b =>
    (bodies b).mono (fun _ _ same => congrFun same c) fun _ _ same => congrFun same c
  refine along_bind values fun id => along_bind (along_modify fun b => ?_) fun _ => along_pure _
  beta_reduce
  unfold bodyOf
  rw [Array.getElem?_modify, if_neg other]

theorem Request.attempt_bodyOf (request : Request) (other : request.fills ≠ some c) :
    Leaves (fun b => b.bodyOf c) request.attempt := by
  have each {α : Type} {m : Attempt Builder α} (leaves : Leaves bodyOf m) :
      Leaves (fun b => b.bodyOf c) m := fun b =>
    (leaves b).mono (fun _ _ same => congrFun same c) fun _ _ same => congrFun same c
  have leave {α : Type} {m : Attempt Builder α} (leaves : Leaves (fun b : Builder => b.bodyOf c) m) :
      Leaves (fun b : Builder => b.bodyOf c) (m >>= fun _ => pure ()) :=
    along_bind leaves fun _ => along_pure _
  have apart {block : BlockId} (fills : some block ≠ some c) : block ≠ c := fun same =>
    fills (congrArg some same)
  cases request with
  | addBlock kind => exact leave (each (addBlock_bodyOf kind))
  | declareArguments block types => exact each (declareArguments_leaves block types)
  | args block => exact leave (each (args_leaves block))
  | connect source target carried => exact each (connect_leaves source target carried)
  | sealBlock block => exact each (sealBlock_leaves block)
  | setLocal block slot value => exact each (setLocal_leaves block slot value)
  | getLocal block slot => exact leave (each (getLocal_leaves block slot))
  | emit block opcode type operands immediate =>
      exact leave <| along_bind (checkBlock_leaves _) fun _ => along_bind along_get fun _ =>
        along_bind (leaves_maintain _ _) fun _ => append_bodyOf (apart other) _ _
  | constant block type bits =>
      exact leave <| along_bind (checkBlock_leaves _) fun _ => append_bodyOf (apart other) _ _
  | project block tuple index type =>
      exact leave <| along_bind (checkBlock_leaves _) fun _ => along_bind along_get fun _ =>
        append_bodyOf (apart other) _ _
  | undef type => exact leave (each (undef_leaves type))

theorem PerformsAll.bodyOf {requests : List Request} (performs : PerformsAll b requests t)
    (others : ∀ request ∈ requests, request.fills ≠ some c) : t.bodyOf c = b.bodyOf c := by
  induction performs with
  | nil => rfl
  | @cons b t u request rest first _ ih =>
      rw [List.forall_mem_cons] at others
      exact (ih others.2).trans ((request.attempt_bodyOf others.1).of_ok first)

def Serves (allowed : Request → Prop) (m : Attempt Builder α) : Prop :=
  Along (fun b t => ∃ requests, PerformsAll b requests t ∧ ∀ request ∈ requests, allowed request)
    (fun _ b t => ∃ requests, Tries b requests t ∧ ∀ request ∈ requests, allowed request) m

variable {allowed : Request → Prop}

instance : Composes (fun b t => ∃ requests, PerformsAll b requests t ∧ ∀ request ∈ requests, allowed request)
    fun _ b t => ∃ requests, Tries b requests t ∧ ∀ request ∈ requests, allowed request where
  refl b := ⟨[], .nil b, by simp⟩
  trans := by
    rintro _ _ _ ⟨front, performs, fine⟩ ⟨back, more, fine'⟩
    exact ⟨front ++ back, performs.append more, List.forall_mem_append.mpr ⟨fine, fine'⟩⟩
  fails := by
    rintro _ _ _ _ ⟨front, performs, fine⟩ ⟨back, more, fine'⟩
    exact ⟨front ++ back, performs.then_tries more, List.forall_mem_append.mpr ⟨fine, fine'⟩⟩

theorem serves_request (request : Request) (fine : allowed request) :
    Serves allowed request.attempt := fun b => by
  refine ends_of_forall (fun _ t ok => ?_) fun e t error => ?_
  · exact ⟨[request], .cons ok (.nil t), by simpa using fine⟩
  · exact ⟨[request], .failed (.nil b) error, by simpa using fine⟩

theorem serves_of_attempt {m : Attempt Builder α} (request : Request) (fine : allowed request)
    (same : request.attempt = m >>= fun _ => pure ()) : Serves allowed m := by
  have serves := serves_request request fine
  rw [same] at serves
  intro b
  have ends := serves b
  rw [ends_bind] at ends
  exact ends

end WasmFunclets.Ssa.Builder
