import WasmFunclets.Proofs.Ssa.Requests

/-! What outlives any requests, refused ones and failures included: it has to survive elementary changes
of phis only, where replacements are those that the removal of trivial phis makes. -/

namespace WasmFunclets.Ssa

def Phi.fresh (role : PhiRole) : Phi := ⟨role, #[], false, .empty, #[], none⟩

def Value.Fresh (v : Value) : Prop := ∀ p, v.phi? = some p → ∃ role, p = .fresh role

theorem Value.Fresh.idle {v : Value} (fresh : v.Fresh) (p : Phi) (isPhi : v.phi? = some p) :
    p.operands = #[] ∧ p.replacement = none := by
  obtain ⟨role, rfl⟩ := fresh p isPhi
  exact ⟨rfl, rfl⟩

namespace Builder

open Attempt

variable {b t : Builder} {P : Builder → Prop}

/-- What is kept when blocks change, when a value or a phi without operands is added, when a phi gets an
operand or is completed, and when a live phi gives way to another value. -/
structure Endures (P : Builder → Prop) : Prop where
  aliased : ∀ {b : Builder}, P b → b.Aliased
  onBlocks : ∀ {b : Builder} (blocks : Array Block), P b → P { b with blocks }
  withValue : ∀ {b : Builder} {v : Value}, P b → v.Fresh → P (b.withValue v)
  fed : ∀ {b : Builder} (phi : ValueId) {operand : ValueId}, P b →
    b.representative operand < b.values.size → P (b.fed phi operand)
  finish : ∀ {b : Builder} (phi : ValueId), P b → P (b.onPhi phi Phi.finish)
  replacedBy : ∀ {b : Builder} {phi same : ValueId} {p : Phi}, P b → b.Cedes phi same p →
    P (b.replacedBy phi same p)

namespace Endures

variable (endures : Endures P)
include endures

theorem addValue {type : ValueType} {home : Option BlockId} {content : Content}
    (idle : ∀ p, content = .phi p → ∃ role, p = .fresh role) :
    Saves (fun _ t => P t) P (addValue type home content) := by
  refine along_of_ends fun b before => ?_
  refine (addValue_alone b).mono ?_ ?_
  · rintro _ _ ⟨rfl, rfl⟩
    refine endures.withValue before fun p isPhi => idle p ?_
    cases content with
    | phi q =>
        cases isPhi
        rfl
    | _ => cases isPhi
  · rintro _ _ ⟨_, rfl⟩
    exact before

theorem feed (phi operand : ValueId) : Saves (fun _ t => P t) P (feed phi operand) := by
  refine along_of_ends fun b before => ?_
  by_cases inside : b.representative operand < b.values.size
  · refine (feed_ends phi inside).mono ?_ fun _ _ => False.elim
    rintro _ _ rfl
    exact endures.fed phi before inside
  · simp only [Builder.feed, ends_bind, ends_get, ends_maintain]
    exact ⟨fun bound => absurd bound inside, fun _ => before⟩

theorem picks {trivial : Trivial} {same : ValueId} (before : P b) (picks : b.Picks trivial same t) :
    P t := by
  cases picks with
  | merged => exact before
  | nothing => exact endures.withValue before fun p isPhi => by cases isPhi

theorem replaceTrivial (steps : Nat) (work : List ValueId) :
    Saves (fun _ t => P t) P (replaceTrivial steps work) := by
  refine along_of_ends fun b before => ?_
  refine replaceTrivial_rule (I := fun _ _ => P) endures.aliased (fun now => now) (fun now _ => now)
    (fun now _ => now) ?_ _ _ before
  exact fun now _ picks cedes => endures.replacedBy (endures.picks now picks) cedes

theorem removeTrivial (phi : ValueId) : Saves (fun _ t => P t) P (removeTrivial phi) :=
  saves_get_bind fun _ _ => along_bind (endures.replaceTrivial _ _) fun _ =>
    saves_get_bind fun _ _ => along_pure _

theorem finishes (phi : ValueId) :
    Saves (fun _ t => P t) P (modifyPhi phi fun p => { p with complete := true }) :=
  along_modify fun _ => endures.finish phi

theorem stable : Stable (fun _ t => P t) (fun _ => True) P where
  mishaps _ _ _ _ before := before
  stuck before := before
  locals _ _ _ := trivial
  onBlocks := endures.onBlocks
  addPhi _ role _ := endures.addValue (by rintro _ ⟨⟩; exact ⟨role, rfl⟩)
  addValue _ _ noPhi := endures.addValue fun p same => absurd same (noPhi p)
  feed := endures.feed
  finish _ := along_bind (endures.finishes _) fun _ => endures.removeTrivial _
  finishAll _ := along_bind (along_forM fun _ _ => endures.finishes _) fun _ =>
    along_forM fun _ _ => along_bind (endures.removeTrivial _) fun _ => along_pure _

theorem attempt (request : Request) : Saves (fun _ t => P t) P request.attempt :=
  request.attempt_saves endures.stable.durable fun c slot v _ => setLocal_saves endures.stable c slot v

theorem endured (before : P b) (requests : List Request) : P (b.endured requests) := by
  induction requests generalizing b with
  | nil => exact before
  | cons request rest ih => exact ih (Ends.after ((endures.attempt request).ends before))

end Endures

theorem Request.serve_eq {request : Request} (served : request.serve b = some t) :
    t = request.attempt.after b := by
  rw [Request.serve] at served
  rw [Attempt.after]
  split at served
  · rename_i outcome
    cases served
    rw [outcome]
  · rename_i outcome
    split at served
    · cases served
    · cases served
      rw [outcome]

theorem eq_endured_of_served {requests : List Request} (served : b.served requests = some t) :
    t = b.endured requests := by
  induction requests generalizing b with
  | nil =>
      cases served
      rfl
  | cons request rest ih =>
      rw [Builder.served, List.foldlM_cons] at served
      obtain ⟨u, first, later⟩ := Option.bind_eq_some_iff.mp served
      obtain rfl := Request.serve_eq first
      exact ih later

end Builder

end WasmFunclets.Ssa
