import WasmFunclets.Proofs.Ssa.Stable

/-! Reads, edges and the sealing of blocks make no value of unknown type. -/

namespace WasmFunclets

namespace Ssa.Builder

open Attempt

variable {old : ValueId → Prop}

/-- No local and no phi has an unknown type, and no other value but the old ones. -/
structure KnownTypes (old : ValueId → Prop) (b : Builder) : Prop where
  locals : ∀ type ∈ b.locals, type ≠ .any
  values : ∀ {id : ValueId} {v : Value}, b.values[id]? = some v → v.type = .any →
    v.phi? = none ∧ old id

theorem KnownTypes.type_phi {b : Builder} {phi : ValueId} (known : b.KnownTypes old) (isPhi : b.isPhi phi = true) :
    (b.values[phi]?.map Value.type).getD .null ≠ .any := by
  rw [Builder.isPhi] at isPhi
  cases shown : b.values[phi]? with
  | none => simp
  | some v =>
      rw [shown] at isPhi
      intro unknown
      rw [Option.bind_some, (known.values shown (by simpa using unknown)).1] at isPhi
      cases isPhi

theorem nextTrivial_knownTypes {b : Builder} (known : b.KnownTypes old) {worklist : List ValueId}
    {trivial : Trivial} (found : b.nextTrivial worklist = some trivial) : trivial.type ≠ .any := by
  induction worklist with
  | nil => cases found
  | cons id rest ih =>
      unfold nextTrivial at found
      split at found
      · rename_i type home p present
        split at found
        · exact ih found
        · split at found
          · cases found
            intro unknown
            exact absurd (known.values present unknown).1 (by simp [Value.phi?])
          · exact ih found
      · exact ih found

theorem lasting_knownTypes (spared : Fault → Prop) (old : ValueId → Prop) :
    Lasting (Spared spared (KnownTypes old)) (· ≠ .any) (KnownTypes old) where
  mishaps := mishaps_spared
  stuck := .inr
  locals known := known.locals
  onBlocks _ known := ⟨known.locals, known.values⟩
  onPhis id change := along_modify fun b known => by
    refine ⟨known.locals, fun {i v} present unknown => ?_⟩
    rw [Array.getElem?_modify] at present
    split at present
    · obtain ⟨⟨type, home, content⟩, before, rfl⟩ := Option.map_eq_some_iff.mp present
      cases content with
      | phi p => exact absurd (known.values before unknown).1 (by simp [Value.phi?])
      | _ => exact known.values before unknown
    · exact known.values present unknown
  onValues home content known := saves_get_bind fun b _ =>
    along_bind (saves_maintain mishaps_spared _ _) fun _ => along_bind
      (along_modify fun b before => by
        refine ⟨before.locals, fun {i v} present unknown => ?_⟩
        rw [Array.getElem?_push] at present
        split at present
        · cases present
          exact absurd unknown known
        · exact before.values present unknown) fun _ => along_pure _
  onSubstitution _ _ known := ⟨known.locals, known.values⟩
  trivials known := nextTrivial_knownTypes known

theorem stable_knownTypes (spared : Fault → Prop) (old : ValueId → Prop) :
    Stable (Spared spared (KnownTypes old)) (· ≠ .any) (KnownTypes old) := (lasting_knownTypes spared old).stable

end Ssa.Builder

end WasmFunclets
