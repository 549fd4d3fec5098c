import WasmFunclets.Proofs.Ssa.Dominance

/-! The types of a function: operands have the types that are required of them, and a value has an
unknown type only where no path leads. -/

namespace WasmFunclets.Ssa.Builder

variable {context : Context} {strict : Bool} {f : Forest} {written : BlockId → Nat → Prop}
variable {loose : List ValueId} {b : Builder} {c : BlockId} {v : ValueId} {type : ValueType}

/-- What stands in for a value has a type, where an unknown type will do for each. -/
def HasType (b : Builder) (v : ValueId) (type : ValueType) : Prop :=
  ∃ w, b.values[b.representative v]? = some w ∧ w.type.admits type = true

def IsIdleSelect (b : Builder) (v : Value) (operands : List ValueId) : Prop :=
  ∃ immediate c, v.block = some c ∧ v.content = .op Opcode.selectByte operands immediate ∧
    ¬ b.Reachable c

/-- Phis and instructions have operands of the right types. The type of a value is unknown only if it
is selected, or consumed by a select, where no path leads. -/
structure WellTyped (context : Context) (b : Builder) : Prop where
  phi : ∀ (id : ValueId) (v : Value) (p : Phi), b.values[id]? = some v → v.content = .phi p →
    (∀ o ∈ p.operands, b.HasType o v.type) ∧
      ∀ slot, p.role = .local slot → b.locals[slot]? = some v.type
  operation : ∀ (id : ValueId) (v : Value) (opcode : UInt8) (operands : List ValueId)
    (immediate : UInt64), b.values[id]? = some v → v.content = .op opcode operands immediate →
      ∃ params, Opcode.operandTypes context opcode immediate v.type = some params ∧
        List.Forall₂ b.HasType operands params
  unknown : ∀ (id : ValueId) (v : Value), b.values[id]? = some v → v.type = .any →
    (∃ operands, b.IsIdleSelect v operands) ∨
      v.content = .undef ∧ ∃ (i : ValueId) (w : Value) (operands : List ValueId),
        b.values[i]? = some w ∧ b.IsIdleSelect w operands ∧ id ∈ operands

theorem Formed.hasType (formed : b.Formed strict) (inside : v < b.values.size)
    (typed : ∀ w, b.look (b.representative v) = some w → w.type.admits type = true) :
    b.HasType v type := by
  obtain ⟨w, shown⟩ := look_of_lt (formed.representative_lt inside)
  obtain ⟨x, present, rfl⟩ := value_of_look shown
  exact ⟨x, present, type_plain x ▸ typed _ shown⟩

theorem Built.wellTyped (built : b.Built context true f written []) : b.WellTyped context where
  phi id v p present isPhi := by
    have shown := look_of_phi present isPhi
    refine ⟨fun o member => ?_, fun slot role => (built.sound.flow.slot shown role).1⟩
    refine built.sound.formed.hasType (built.sound.formed.operand_lt shown rfl o ?_)
      (built.sound.formed.typed rfl shown o member)
    exact Array.mem_toList_iff.mpr member
  operation id v opcode operands immediate present isOp := by
    have shown := look_of_value present
    rw [Value.plain_of_ne v (by simp [isOp])] at shown
    obtain ⟨params, required, length, suits⟩ := (built.typing rfl id v shown).operands isOp
    refine ⟨params, required, List.forall₂_iff_get.mpr ⟨length, fun i first second => ?_⟩⟩
    refine built.sound.formed.hasType (built.sound.formed.operand_lt shown (by rw [isOp]; rfl) _ ?_)
      (suits i _ _ (List.getElem?_eq_getElem first) ?_)
    · rw [Value.operands, isOp]
      exact List.getElem_mem first
    · rw [length, Nat.sub_self, Nat.zero_add]
      exact List.getElem?_eq_getElem second
  unknown id v present isAny := by
    have unreachable {c : BlockId} (dead : f.Dead c) : ¬ b.Reachable c :=
      fun reachable => reachable.not_dead built.rooted dead
    have shown := look_of_value present
    rcases (built.typing rfl id _ shown).any (by rw [type_plain, isAny]) with
      ⟨operands, immediate, c, same, dead⟩ | ⟨undef, absurd_ | consumed⟩
    · obtain ⟨_, _, _ | _ | _ | _ | _ | _ | _⟩ := v <;> cases same
      exact .inl ⟨operands, immediate, c, rfl, rfl, unreachable dead⟩
    · cases absurd_
    · obtain ⟨i, type, c, operands, immediate, select, dead, member⟩ := consumed
      obtain ⟨w, present', same⟩ := value_of_look select
      refine .inr ⟨?_, i, w, operands, present', ?_, member⟩
      · obtain ⟨_, _, _ | _ | _ | _ | _ | _ | _⟩ := v <;> cases undef
        rfl
      · obtain ⟨_, _, _ | _ | _ | _ | _ | _ | _⟩ := w <;> cases same
        exact ⟨immediate, c, rfl, rfl, unreachable dead⟩

end WasmFunclets.Ssa.Builder
