import Mathlib.Data.List.Forall2
import WasmFunclets.Fault

/-! How attempts end: a step that succeeds is taken apart into its parts, and what holds at the end
of an attempt, good or bad, is put together from what holds at the ends of its parts. -/

namespace WasmFunclets

def Fault.IsRefusal (e : Fault) : Prop := ∃ error, e = .invalid error

@[simp] theorem Fault.isRefusal_invalid (error : ValidationError) :
    (Fault.invalid error).IsRefusal := ⟨error, rfl⟩

@[simp] theorem Fault.not_isRefusal_broken (invariant : BrokenInvariant) :
    ¬ (Fault.broken invariant).IsRefusal := fun ⟨_, h⟩ => nomatch h

@[simp] theorem Fault.not_isRefusal_outOfRange : ¬ Fault.outOfRange.IsRefusal :=
  fun ⟨_, h⟩ => nomatch h

namespace Attempt

variable {σ τ α β : Type}

@[simp] theorem pure_ok {a b : α} {s t : σ} :
    (pure a : Attempt σ α) s = .ok b t ↔ a = b ∧ s = t :=
  .of_eq (EStateM.Result.ok.injEq ..)

@[simp] theorem bind_ok {m : Attempt σ α} {f : α → Attempt σ β} {s u : σ} {b : β} :
    (m >>= f) s = .ok b u ↔ ∃ a t, m s = .ok a t ∧ f a t = .ok b u := by
  simp only [bind, EStateM.bind]
  cases m s <;> grind

@[simp] theorem map_ok {m : Attempt σ α} {f : α → β} {s t : σ} {b : β} :
    (f <$> m) s = .ok b t ↔ ∃ a, m s = .ok a t ∧ f a = b := by
  simp only [Functor.map, EStateM.map]
  cases m s <;> grind

@[simp] theorem get_ok {s t u : σ} : (get : Attempt σ σ) s = .ok u t ↔ s = u ∧ s = t :=
  .of_eq (EStateM.Result.ok.injEq ..)

theorem get_bind {f : σ → Attempt σ β} : (get >>= f) s = f s s := rfl

theorem get_bind_ok {f : σ → Attempt σ β} {s u : σ} {b : β} :
    (get >>= f) s = .ok b u ↔ f s s = .ok b u := Iff.rfl

@[simp] theorem set_ok {s t u : σ} {x : PUnit} : (set u : Attempt σ PUnit) s = .ok x t ↔ u = t := by
  change EStateM.Result.ok _ u = .ok x t ↔ _
  simp

@[simp] theorem modify_ok {f : σ → σ} {s t : σ} {x : PUnit} :
    (modify f : Attempt σ PUnit) s = .ok x t ↔ f s = t := by
  change EStateM.Result.ok _ (f s) = .ok x t ↔ _
  simp

@[simp] theorem throw_ok {e : Fault} {s t : σ} {a : α} :
    (throw e : Attempt σ α) s = .ok a t ↔ False := by
  change EStateM.Result.error e s = .ok a t ↔ _
  simp

@[simp] theorem reject_ok {cause : Cause} {s t : σ} {a : α} :
    (reject cause : Attempt σ α) s = .ok a t ↔ False := throw_ok

@[simp] theorem rejectIn_ok {funclet : Nat} {cause : Cause} {s t : σ} {a : α} :
    (rejectIn funclet cause : Attempt σ α) s = .ok a t ↔ False := throw_ok

@[simp] theorem violate_ok {invariant : BrokenInvariant} {s t : σ} {a : α} :
    (violate invariant : Attempt σ α) s = .ok a t ↔ False := throw_ok

@[simp] theorem require_ok {p : Prop} [Decidable p] {cause : Cause} {s t : σ} {x : Unit} :
    (require p cause : Attempt σ Unit) s = .ok x t ↔ p ∧ s = t := by
  unfold require
  split <;> simp_all

@[simp] theorem maintain_ok {p : Prop} [Decidable p] {invariant : BrokenInvariant} {s t : σ}
    {x : Unit} : (maintain p invariant : Attempt σ Unit) s = .ok x t ↔ p ∧ s = t := by
  unfold maintain
  split <;> simp_all

@[simp] theorem inRange_ok {found : Option α} {s t : σ} {a : α} :
    (inRange found : Attempt σ α) s = .ok a t ↔ found = some a ∧ s = t := by
  cases found <;> simp [inRange]

theorem within_ok [Inhabited τ] {part : σ → τ} {put : τ → σ → σ} {change : Attempt τ α} {s u : σ}
    {a : α} :
    within part put change s = .ok a u ↔
      ∃ t, change (part s) = .ok a t ∧ put t (put default s) = u := by
  simp only [within]
  cases change (part s) <;> grind

theorem length_of_mapM_ok {f : α → Attempt σ β} {items : List α} {results : List β} {s t : σ}
    (ok : items.mapM f s = .ok results t) : results.length = items.length := by
  induction items generalizing results s t with
  | nil =>
      rw [List.mapM_nil, pure_ok] at ok
      rw [← ok.1, List.length_nil, List.length_nil]
  | cons item items ih =>
      simp only [List.mapM_cons, bind_ok, pure_ok] at ok
      obtain ⟨_, _, _, rest, _, tail, rfl, _⟩ := ok
      simp [ih tail]

theorem mapM_look_ok {R : α → β → Prop} {f : α → Attempt σ β}
    (each : ∀ a b s t, f a s = .ok b t ↔ R a b ∧ s = t) {items : List α} {results : List β} {s t : σ} :
    items.mapM f s = .ok results t ↔ List.Forall₂ R items results ∧ s = t := by
  induction items generalizing results s t with
  | nil =>
      rw [List.mapM_nil, pure_ok, List.forall₂_nil_left_iff]
      exact and_congr_left fun _ => eq_comm
  | cons item items ih =>
      simp only [List.mapM_cons, bind_ok, each, ih, pure_ok]
      constructor
      · rintro ⟨first, _, ⟨here, rfl⟩, rest, _, ⟨others, rfl⟩, rfl, rfl⟩
        exact ⟨.cons here others, rfl⟩
      · rintro ⟨_ | ⟨here, others⟩, rfl⟩
        exact ⟨_, s, ⟨here, rfl⟩, _, s, ⟨others, rfl⟩, rfl, rfl⟩

theorem mapM_look_total {f : α → Attempt σ β} {items : List α} {s : σ}
    (each : ∀ a ∈ items, ∃ b, f a s = .ok b s) : ∃ results, items.mapM f s = .ok results s := by
  induction items with
  | nil => exact ⟨[], rfl⟩
  | cons item items ih =>
      obtain ⟨first, found⟩ := each item List.mem_cons_self
      obtain ⟨rest, others⟩ := ih fun a member => each a (List.mem_cons_of_mem _ member)
      refine ⟨first :: rest, ?_⟩
      rw [List.mapM_cons]
      exact bind_ok.mpr ⟨first, s, found, bind_ok.mpr ⟨rest, s, others, rfl⟩⟩

/-- Started in `s`, the attempt succeeds with what `Q` says or fails with what `E` says. -/
def Ends (m : Attempt σ α) (s : σ) (Q : α → σ → Prop) (E : Fault → σ → Prop) : Prop :=
  match m s with
  | .ok a t => Q a t
  | .error e t => E e t

variable {s : σ} {Q R : α → σ → Prop} {E F : Fault → σ → Prop}

theorem Ends.of_ok {m : Attempt σ α} {a : α} {t : σ} (ends : Ends m s Q E) (ok : m s = .ok a t) :
    Q a t := by
  simpa [Ends, ok] using ends

theorem Ends.of_error {m : Attempt σ α} {e : Fault} {t : σ} (ends : Ends m s Q E)
    (error : m s = .error e t) : E e t := by
  simpa [Ends, error] using ends

theorem ends_of_forall {m : Attempt σ α} (good : ∀ a t, m s = .ok a t → Q a t)
    (bad : ∀ e t, m s = .error e t → E e t) : Ends m s Q E := by
  unfold Ends
  split
  · exact good _ _ ‹_›
  · exact bad _ _ ‹_›

theorem Ends.mono {m : Attempt σ α} (ends : Ends m s Q E) (good : ∀ a t, Q a t → R a t)
    (bad : ∀ e t, E e t → F e t) : Ends m s R F :=
  ends_of_forall (fun a t ok => good a t (ends.of_ok ok)) fun e t error => bad e t (ends.of_error error)

theorem Ends.imp {m : Attempt σ α} (ends : Ends m s Q E) (good : ∀ a t, Q a t → R a t) :
    Ends m s R E :=
  ends.mono good fun _ _ bad => bad

theorem Ends.and {m : Attempt σ α} (ends : Ends m s Q E) (also : Ends m s R F) :
    Ends m s (fun a t => Q a t ∧ R a t) fun e t => E e t ∧ F e t :=
  ends_of_forall (fun _ _ ok => ⟨ends.of_ok ok, also.of_ok ok⟩) fun _ _ error =>
    ⟨ends.of_error error, also.of_error error⟩

@[simp] theorem ends_pure {a : α} : Ends (pure a : Attempt σ α) s Q E ↔ Q a s := Iff.rfl

@[simp] theorem ends_bind {m : Attempt σ α} {f : α → Attempt σ β} {R : β → σ → Prop} :
    Ends (m >>= f) s R E ↔ Ends m s (fun a t => Ends (f a) t R E) E := by
  simp only [Ends, bind, EStateM.bind]
  cases m s <;> rfl

theorem ends_bind_of_ok {m : Attempt σ α} {f : α → Attempt σ β} {R : β → σ → Prop} {a : α} {t : σ}
    (done : m s = .ok a t) (rest : Ends (f a) t R E) : Ends (m >>= f) s R E := by
  rwa [ends_bind, Ends, done]

@[simp] theorem ends_map {m : Attempt σ α} {f : α → β} {R : β → σ → Prop} :
    Ends (f <$> m) s R E ↔ Ends m s (fun a t => R (f a) t) E := by
  simp only [Ends, Functor.map, EStateM.map]
  cases m s <;> rfl

@[simp] theorem ends_get {R : σ → σ → Prop} : Ends (get : Attempt σ σ) s R E ↔ R s s := Iff.rfl

@[simp] theorem ends_modify {f : σ → σ} {R : PUnit → σ → Prop} :
    Ends (modify f : Attempt σ PUnit) s R E ↔ R ⟨⟩ (f s) := Iff.rfl

@[simp] theorem ends_throw {e : Fault} : Ends (throw e : Attempt σ α) s Q E ↔ E e s := Iff.rfl

@[simp] theorem ends_reject {cause : Cause} :
    Ends (reject cause : Attempt σ α) s Q E ↔ E (.invalid ⟨cause, none, none⟩) s := Iff.rfl

@[simp] theorem ends_rejectIn {funclet : Nat} {cause : Cause} :
    Ends (rejectIn funclet cause : Attempt σ α) s Q E ↔
      E (.invalid ⟨cause, some funclet, none⟩) s := Iff.rfl

@[simp] theorem ends_violate {invariant : BrokenInvariant} :
    Ends (violate invariant : Attempt σ α) s Q E ↔ E (.broken invariant) s := Iff.rfl

@[simp] theorem ends_require {p : Prop} [Decidable p] {cause : Cause} {R : Unit → σ → Prop} :
    Ends (require p cause : Attempt σ Unit) s R E ↔
      (p → R () s) ∧ (¬ p → E (.invalid ⟨cause, none, none⟩) s) := by
  unfold require
  split <;> simp [*]

@[simp] theorem ends_maintain {p : Prop} [Decidable p] {invariant : BrokenInvariant}
    {R : Unit → σ → Prop} :
    Ends (maintain p invariant : Attempt σ Unit) s R E ↔
      (p → R () s) ∧ (¬ p → E (.broken invariant) s) := by
  unfold maintain
  split <;> simp [*]

@[simp] theorem ends_inRange {found : Option α} :
    Ends (inRange found : Attempt σ α) s Q E ↔
      (∀ a, found = some a → Q a s) ∧ (found = none → E .outOfRange s) := by
  cases found <;> simp [inRange]

@[simp] theorem ends_ite {c : Prop} [Decidable c] {m n : Attempt σ α} :
    Ends (if c then m else n) s Q E ↔ (c → Ends m s Q E) ∧ (¬ c → Ends n s Q E) := by
  split <;> simp [*]

theorem ends_within [Inhabited τ] {part : σ → τ} {put : τ → σ → σ} {change : Attempt τ α} :
    Ends (within part put change) s Q E ↔
      Ends change (part s) (fun a t => Q a (put t (put default s)))
        (fun e t => E e (put t (put default s))) := by
  simp only [Ends, within]
  cases change (part s) <;> rfl

def after (m : Attempt σ α) (s : σ) : σ :=
  match m s with
  | .ok _ t => t
  | .error _ t => t

theorem Ends.after {P : σ → Prop} {m : Attempt σ α}
    (ends : Ends m s (fun _ t => P t) fun _ t => P t) : P (after m s) := by
  unfold Attempt.after
  cases outcome : m s with
  | ok a t => exact ends.of_ok outcome
  | error e t => exact ends.of_error outcome

/-- The attempt goes on as the one relation allows, or fails as the other one does. -/
def Along (R : σ → σ → Prop) (E : Fault → σ → σ → Prop) (m : Attempt σ α) : Prop :=
  ∀ s, Ends m s (fun _ t => R s t) fun e t => E e s t

/-- What holds of two attempts holds of both together. -/
class Composes (R : σ → σ → Prop) (E : Fault → σ → σ → Prop) : Prop where
  refl : ∀ s, R s s
  trans : ∀ {s t u}, R s t → R t u → R s u
  fails : ∀ {e s t u}, R s t → E e t u → E e s u

variable {R : σ → σ → Prop} {F : Fault → σ → σ → Prop}

theorem along_modify {f : σ → σ} (changes : ∀ s, R s (f s)) :
    Along R F (modify f : Attempt σ PUnit) := changes

theorem along_throw {e : Fault} (fails : ∀ s, F e s s) : Along R F (throw e : Attempt σ α) := fails

theorem Along.ends {P : σ → Prop} {m : Attempt σ α}
    (along : Along (fun s t => P s → R s t) (fun e s t => P s → F e s t) m) (before : P s) :
    Ends m s (fun _ t => R s t) fun e t => F e s t :=
  (along s).mono (fun _ _ after => after before) fun _ _ failed => failed before

theorem along_of_ends {P : σ → Prop} {m : Attempt σ α}
    (ends : ∀ s, P s → Ends m s (fun _ t => R s t) fun e t => F e s t) :
    Along (fun s t => P s → R s t) (fun e s t => P s → F e s t) m := by
  intro s
  refine ends_of_forall (fun a t ok before => (ends s before).of_ok ok) fun e t error before => ?_
  exact (ends s before).of_error error

theorem along_ite {c : Prop} [Decidable c] {m n : Attempt σ α} (yes : Along R F m)
    (no : Along R F n) : Along R F (if c then m else n) := by
  split
  · exact yes
  · exact no

section Composes

variable [Composes R F]

theorem along_pure (a : α) : Along R F (pure a) := fun s => Composes.refl F s

theorem along_bind {m : Attempt σ α} {f : α → Attempt σ β} (first : Along R F m)
    (rest : ∀ a, Along R F (f a)) : Along R F (m >>= f) := by
  intro s
  rw [ends_bind]
  refine (first s).imp fun a t step => ?_
  exact (rest a t).mono (fun _ _ => Composes.trans F step) fun _ _ => Composes.fails step

theorem along_get : Along R F (get : Attempt σ σ) := fun s => Composes.refl F s

theorem along_inRange (fails : ∀ s, F .outOfRange s s) (found : Option α) :
    Along R F (inRange found : Attempt σ α) := by
  cases found with
  | none => exact along_throw fails
  | some a => exact along_pure a

theorem along_maintain (p : Prop) [Decidable p] (invariant : BrokenInvariant)
    (fails : ∀ s, F (.broken invariant) s s) : Along R F (maintain p invariant : Attempt σ Unit) :=
  along_ite (along_pure ()) (along_throw fails)

theorem along_require (p : Prop) [Decidable p] (cause : Cause)
    (fails : ∀ s, F (.invalid ⟨cause, none, none⟩) s s) : Along R F (require p cause : Attempt σ Unit) :=
  along_ite (along_pure ()) (along_throw fails)

theorem along_mapM {items : List β} {f : β → Attempt σ α} (each : ∀ b ∈ items, Along R F (f b)) :
    Along R F (items.mapM f) := by
  induction items with
  | nil => exact along_pure _
  | cons item items ih =>
      rw [List.mapM_cons]
      rw [List.forall_mem_cons] at each
      exact along_bind each.1 fun _ => along_bind (ih each.2) fun _ => along_pure _

theorem along_forM {items : List β} {f : β → Attempt σ PUnit} (each : ∀ b ∈ items, Along R F (f b)) :
    Along R F (items.forM f) := by
  induction items with
  | nil => exact along_pure _
  | cons item items ih =>
      rw [List.forall_mem_cons] at each
      exact along_bind each.1 fun _ => ih each.2

theorem along_forM_array {items : Array β} {f : β → Attempt σ PUnit}
    (each : ∀ b, Along R F (f b)) : Along R F (items.forM f) := by
  have same : items.forM f = items.toList.forM f := List.forM_toArray items.toList f
  rw [same]
  exact along_forM fun b _ => each b

end Composes

variable {view : σ → τ}

/-- The attempt does not change what a view shows, whether it succeeds or fails. -/
def Leaves (view : σ → τ) (m : Attempt σ α) : Prop :=
  Along (fun s t => view t = view s) (fun _ s t => view t = view s) m

instance : Composes (fun s t => view t = view s) fun (_ : Fault) s t => view t = view s where
  refl _ := rfl
  trans first second := second.trans first
  fails first second := second.trans first

theorem Leaves.of_ok {m : Attempt σ α} {a : α} {t : σ} (leaves : Leaves view m)
    (ok : m s = .ok a t) : view t = view s := (leaves s).of_ok ok

theorem leaves_throw (e : Fault) : Leaves view (throw e : Attempt σ α) := along_throw fun _ => rfl

theorem leaves_inRange (found : Option α) : Leaves view (inRange found : Attempt σ α) :=
  along_inRange (fun _ => rfl) found

theorem leaves_maintain (p : Prop) [Decidable p] (invariant : BrokenInvariant) :
    Leaves view (maintain p invariant : Attempt σ Unit) := along_maintain p invariant fun _ => rfl

theorem leaves_require (p : Prop) [Decidable p] (cause : Cause) :
    Leaves view (require p cause : Attempt σ Unit) := along_require p cause fun _ => rfl

end Attempt

end WasmFunclets
