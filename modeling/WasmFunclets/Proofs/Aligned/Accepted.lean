import WasmFunclets.Proofs.Aligned.Reached
import WasmFunclets.Proofs.Ssa.Requests
import WasmFunclets.Proofs.Ssa.WellTyped

/-! Who seals the blocks of the function under construction, and what holds of the function of a valid
body. -/

namespace WasmFunclets.Validation

open Ssa (Forest Block Value Phi)

variable {setting : Setting} {context : Context} {strict : Bool} {bytes : List UInt8} {s : State}
variable {f : Forest} {written : BlockId → Nat → Prop} {valid : ValidBody} {c : BlockId}

/-- The open blocks are the targets of the open frames, each of one frame, and the blocks of the
funclets of open regions that wait for their last predecessor. -/
structure Owned (s : State) : Prop where
  isOpen : ∀ c : BlockId, (∃ k, s.builder.blocks[c]? = some k ∧ k.isSealed = false) ↔
    (∃ frame ∈ s.control, frame.target = c) ∨
      ∃ r ∈ s.regions, ∃ (i : Nat) (node : FuncletNode), r.graph.nodes[i]? = some node ∧
        r.blocks[i]? = some c ∧ node.sealed = false
  single : (s.control.toList.map Frame.target ++ s.regions.flatMap OpenRegion.waiting).Nodup

theorem open_iff_shape {b : Ssa.Builder} :
    (∃ k, b.blocks[c]? = some k ∧ k.isSealed = false) ↔ ∃ x, b.shape c = some x ∧ x.isSealed = false := by
  constructor
  · rintro ⟨k, present, isOpen⟩
    exact ⟨_, Ssa.Builder.shape_of_outline (Ssa.Builder.outline_of_block present), isOpen⟩
  · rintro ⟨x, shown, isOpen⟩
    obtain ⟨o, present, rfl⟩ := Option.map_eq_some_iff.mp shown
    obtain ⟨k, block, rfl⟩ := Ssa.Builder.block_of_outline present
    exact ⟨k, block, isOpen⟩

theorem Aligned.owned (aligned : Aligned context strict f written [] s) : Owned s := by
  have opens := aligned.opens
  rw [List.nil_append] at opens
  refine ⟨fun c => ?_, ?_⟩
  · rw [open_iff_shape, opens.iff, State.opens, List.mem_append, List.mem_map, List.mem_flatMap]
    refine or_congr ?_ ?_
    · simp [State.frames]
    · simp only [OpenRegion.mem_waiting]
  · refine (opens.perm (List.Perm.append_right _ ?_)).nodup
    rw [State.frames, List.map_reverse]
    exact List.reverse_perm _

theorem aligned_of_valid (typed : strict = true → setting.context.ValueTyped)
    (accepted : validateWith setting bytes = .ok valid) :
    ∃ s f written, Aligned setting.context strict f written [] s ∧ s.frames = [] ∧ s.regions = [] ∧
      valid = ⟨s.decoded, s.closed, s.builder, s.exit⟩ := by
  obtain ⟨s, reached, closed, rfl⟩ := reached_of_valid accepted
  have midway := reached.midway typed
  obtain ⟨f, written, aligned⟩ := midway.aligned
  have frames : s.frames = [] := by simp [State.frames, closed]
  exact ⟨s, f, written, aligned, frames, midway.bottom frames, rfl⟩

theorem loose_of_valid (accepted : validateWith setting bytes = .ok valid) :
    ∃ s f written, Aligned setting.context false f written [] s ∧ s.frames = [] ∧ s.regions = [] ∧
      valid = ⟨s.decoded, s.closed, s.builder, s.exit⟩ := aligned_of_valid nofun accepted

theorem Aligned.final (aligned : Aligned context strict f written [] s) (frames : s.frames = [])
    (regions : s.regions = []) : s.builder.Final := by
  refine aligned.built.sound.final fun c x present => eq_true_of_ne_false fun isOpen => ?_
  have member := (aligned.opens.iff c).mp ⟨x, present, isOpen⟩
  simp [State.opens, frames, regions] at member

/-- The ids in a valid body name something, and its blocks and values agree. -/
structure Integral (valid : ValidBody) : Prop where
  function : valid.builder.Integral
  exit : valid.exit < valid.builder.blocks.size
  results : ∀ v ∈ valid.results, v < valid.builder.values.size
  regions : ∀ r ∈ valid.regions, r.exit < valid.builder.blocks.size ∧
    ∀ funclet ∈ r.funclets, funclet.block < valid.builder.blocks.size

theorem mem_results {b : Ssa.Builder} {exit decoded : Nat} {closed : Array Region} {v : ValueId}
    (member : v ∈ (⟨decoded, closed, b, exit⟩ : ValidBody).results) :
    ∃ k phi, b.blocks[exit]? = some k ∧ phi ∈ k.argIds ∧ v = b.representative phi := by
  rw [ValidBody.results] at member
  dsimp only at member
  cases present : b.blocks[exit]? with
  | none => simp [present] at member
  | some k =>
      rw [present, Option.map_some, Option.getD_some, Ssa.Builder.argsOf] at member
      obtain ⟨phi, listed, rfl⟩ := List.mem_map.mp member
      exact ⟨k, phi, rfl, listed, rfl⟩

/-- No trivial phi survives: whatever a builder is asked for, a phi that is complete and not replaced
has two operands that stand for different values other than itself, and so has every phi of a valid body
that is not replaced. -/
theorem phis_mix :
    (∀ (locals : Array ValueType) (paramCount : Nat) (requests : List Ssa.Builder.Request)
      (b : Ssa.Builder), (Ssa.Builder.ofLocals locals paramCount).served requests = some b →
        ∀ (id : ValueId) (v : Value) (p : Phi), b.values[id]? = some v → v.content = .phi p →
          p.complete = true → p.replacement = none → b.Mixes id p) ∧
    ∀ (setting : Setting) (bytes : List UInt8) (valid : ValidBody),
      validateWith setting bytes = .ok valid →
        ∀ (id : ValueId) (v : Value) (p : Phi), valid.builder.values[id]? = some v →
          v.content = .phi p → p.replacement = none → valid.builder.Mixes id p := by
  refine ⟨fun locals paramCount requests b served id v p present isPhi complete live => ?_,
    fun setting bytes valid accepted id v p present isPhi live => ?_⟩
  · have reduced := Ssa.Builder.Reduced.served Ssa.Builder.reduced_ofLocals served
    exact reduced.mixes_value present isPhi complete live
  · obtain ⟨s, _, _, aligned, frames, regions, rfl⟩ := loose_of_valid accepted
    have complete := (aligned.final frames regions).complete_phi present isPhi
    exact aligned.built.reduced.mixes_value present isPhi complete live

/-- A join of two constants, with a write of no value and an edge that comes too late. -/
def diamond : List Ssa.Builder.Request :=
  [.addBlock .body, .addBlock .body, .addBlock .join, .connect 0 1 [], .connect 0 2 [], .sealBlock 1,
    .sealBlock 2, .constant 1 .i32 1, .constant 2 .i32 2, .setLocal 1 0 0, .setLocal 2 0 1,
    .setLocal 2 0 9, .connect 1 3 [], .connect 2 3 [], .sealBlock 3, .connect 2 3 [], .getLocal 3 0]

theorem phis_mix_diamond :
    (∃ b p, (Ssa.Builder.ofLocals #[.i32] 0).served diamond = some b ∧ p.operands = #[0, 1] ∧
      b.Mixes 2 p) ∧
    ∃ valid p, validate unaryContext twoFunclets = .ok valid ∧ p.operands = #[2, 7] ∧
      valid.builder.Mixes 6 p := by
  constructor
  · have found : ((Ssa.Builder.ofLocals #[.i32] 0).served diamond).bind (·.values[2]?) =
        some ⟨.i32, some 3, .phi ⟨.local 0, #[0, 1], true, .empty, #[], none⟩⟩ := by decide +kernel
    obtain ⟨b, served, present⟩ := Option.bind_eq_some_iff.mp found
    exact ⟨b, _, served, rfl, phis_mix.1 _ _ _ _ served 2 _ _ present rfl rfl rfl⟩
  · have found : ((validate unaryContext twoFunclets).toOption.bind (·.builder.values[6]?)) =
        some ⟨.i32, some 5, .phi ⟨.local 0, #[2, 7], true, .empty, #[], none⟩⟩ := by decide +kernel
    obtain ⟨valid, accepted⟩ := twoFunclets_valid
    rw [accepted] at found
    exact ⟨valid, _, accepted, rfl, phis_mix.2 _ _ _ accepted 6 _ _ found rfl rfl⟩

end WasmFunclets.Validation
