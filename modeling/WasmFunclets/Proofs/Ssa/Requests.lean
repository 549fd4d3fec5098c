import WasmFunclets.Proofs.Ssa.Origin

/-! Whatever a builder is asked for, in any order and also where it refuses, the phis in it that are
complete merge values. -/

namespace WasmFunclets.Ssa.Builder

open Attempt

/-- What a builder can be asked for, apart from what only reads it. -/
inductive Request where
  | addBlock (kind : BlockKind)
  | declareArguments (block : BlockId) (types : List ValueType)
  | args (block : BlockId)
  | connect (source target : BlockId) (carried : List ValueId)
  | sealBlock (block : BlockId)
  | setLocal (block : BlockId) (slot : Nat) (value : ValueId)
  | getLocal (block : BlockId) (slot : Nat)
  | emit (block : BlockId) (opcode : UInt8) (type : ValueType) (operands : List ValueId)
      (immediate : UInt64)
  | constant (block : BlockId) (type : ValueType) (bits : UInt64)
  | project (block : BlockId) (tuple : ValueId) (index : Nat) (type : ValueType)
  | undef (type : ValueType)
  deriving DecidableEq, Repr

def Request.attempt : Request → Attempt Builder Unit
  | .addBlock kind => do let _ ← Builder.addBlock kind
  | .declareArguments block types => Builder.declareArguments block types
  | .args block => do let _ ← Builder.args block
  | .connect source target carried => Builder.connect source target carried
  | .sealBlock block => Builder.sealBlock block
  | .setLocal block slot value => Builder.setLocal block slot value
  | .getLocal block slot => do let _ ← Builder.getLocal block slot
  | .emit block opcode type operands immediate => do
      let _ ← Builder.emit block opcode type operands immediate
  | .constant block type bits => do let _ ← Builder.constant block type bits
  | .project block tuple index type => do let _ ← Builder.project block tuple index type
  | .undef type => do let _ ← Builder.undef type

/-- The builder that a request leaves, also where it is refused, unless it runs out of ids. -/
def Request.serve (b : Builder) (request : Request) : Option Builder :=
  match request.attempt b with
  | .ok _ t => some t
  | .error e t => if e = .broken .arenaExhausted then none else some t

def served (b : Builder) (requests : List Request) : Option Builder := requests.foldlM Request.serve b

/-- The builder after a list of requests, whatever becomes of each of them. -/
def endured (b : Builder) (requests : List Request) : Builder :=
  requests.foldl (fun t request => request.attempt.after t) b

variable {E : Fault → Builder → Prop} {P : Builder → Prop} {b t : Builder}

/-- What is kept by everything but writes is kept by requests if these writes keep it. -/
theorem Request.attempt_saves (durable : Durable E (fun _ => True) P) (request : Request)
    (writes : ∀ block slot value, request = .setLocal block slot value →
      Saves E P (Builder.setLocal block slot value)) : Saves E P request.attempt := by
  -- a request whose result is not needed
  have leave {α : Type} {m : Attempt Builder α} (saves : Saves E P m) :
      Saves E P (m >>= fun _ => pure ()) := along_bind saves fun _ => along_pure _
  cases request with
  | addBlock kind => exact leave (durable.addBlock kind)
  | declareArguments block types => exact declareArguments_saves durable block fun _ _ => trivial
  | args block =>
      exact leave (along_bind (blockAt_saves durable.mishaps block) fun _ =>
        saves_get_bind fun _ _ => along_pure _)
  | connect source target carried =>
      exact along_of_ends fun _ before =>
        connect_saves durable before source target carried fun _ _ _ _ => trivial
  | sealBlock block => exact sealBlock_saves durable block
  | setLocal block slot value => exact writes block slot value rfl
  | getLocal block slot => exact leave (durable.getLocal block slot)
  | emit block opcode type operands immediate =>
      exact leave (emit_saves durable block opcode operands immediate trivial)
  | constant block type bits => exact leave (constant_saves durable block bits trivial)
  | project block tuple index type => exact leave (project_saves durable block tuple index trivial)
  | undef type => exact leave (undef_saves durable trivial)

theorem Reduced.serve {request : Request} (reduced : b.Reduced [])
    (served : request.serve b = some t) : t.Reduced [] := by
  have saves := (request.attempt_saves stable_reduced.durable
    fun c slot v _ => setLocal_saves stable_reduced c slot v).ends reduced
  rw [Request.serve] at served
  cases outcome : request.attempt b with
  | ok _ u =>
      rw [outcome] at served
      cases served
      exact saves.of_ok outcome
  | error e u =>
      rw [outcome] at served
      dsimp only at served
      split at served
      · cases served
      · cases served
        exact (saves.of_error outcome).resolve_left ‹_›

theorem Reduced.served {requests : List Request} (reduced : b.Reduced [])
    (served : b.served requests = some t) : t.Reduced [] := by
  induction requests generalizing b with
  | nil =>
      cases served
      exact reduced
  | cons request rest ih =>
      rw [Builder.served, List.foldlM_cons] at served
      obtain ⟨u, first, later⟩ := Option.bind_eq_some_iff.mp served
      exact ih (reduced.serve first) later

theorem Reduced.mixes_value {id : ValueId} {v : Value} {p : Phi} (reduced : b.Reduced [])
    (present : b.values[id]? = some v) (isPhi : v.content = .phi p) (complete : p.complete = true)
    (live : p.replacement = none) : b.Mixes id p := by
  have found : b.phiAt id = some p := by
    rw [phiAt, present, Option.bind_some, Value.phi?, isPhi]
  exact (reduced.mixes found complete live).resolve_right List.not_mem_nil

end WasmFunclets.Ssa.Builder
