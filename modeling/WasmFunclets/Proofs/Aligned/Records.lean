import WasmFunclets.Proofs.Aligned.Lockstep

/-! What is recorded of a region: funclets have the parameters that their calls agree on, and calls
that are not checked in full come from code that no path leads to. -/

namespace WasmFunclets.Validation

variable {setting : Setting} {context : Context} {strict : Bool} {bytes : List UInt8} {s t : State}
variable {f : Ssa.Forest} {written : BlockId → Nat → Prop} {valid : ValidBody} {c : BlockId}
variable {b : Ssa.Builder} {r : Region} {q : OpenRegion}

/-- The parameters of funclets are exact: a call from reachable code has arguments of just these types,
and a polymorphic one has the last of them, or arguments of unknown type in their place. A funclet
other than the first that declares nothing is called from above, and never from below. -/
structure Exact (r : Region) : Prop where
  values : ∀ funclet ∈ r.funclets, ∀ type ∈ funclet.params, type.isValue = true
  direct : ∀ edge ∈ r.edges, edge.polymorphic = false →
    ∃ funclet, r.funclets[edge.target]? = some funclet ∧ edge.args = funclet.params
  polymorphic : ∀ edge ∈ r.edges, edge.polymorphic = true →
    ∃ funclet, r.funclets[edge.target]? = some funclet ∧ edge.args.length ≤ funclet.params.length ∧
      List.Forall₂ (fun arg param => arg = param ∨ arg = .any) edge.args
        (funclet.params.drop (funclet.params.length - edge.args.length))
  entry : ∃ funclet, r.funclets[0]? = some funclet ∧ funclet.params = r.signature.params
  inferred : ∀ (i : Nat) (funclet : Funclet), i ≠ 0 → r.funclets[i]? = some funclet →
    funclet.explicit = false → funclet.declared = 0 ∧ funclet.observed = 0 ∧
      ∃ edge ∈ r.edges, edge.target = i ∧ edge.backward = false ∧ edge.polymorphic = false

theorem agrees_drop {edge : CallEdge} {params : List ValueType}
    (agrees : edge.agrees params = true) : edge.args.length ≤ params.length ∧
      (edge.polymorphic = true ∨ edge.args.length = params.length) ∧
      List.Forall₂ (fun arg param => arg = param ∨ arg = .any) edge.args
        (params.drop (params.length - edge.args.length)) := by
  obtain ⟨short, length, each⟩ := CallEdge.agrees_spec agrees
  refine ⟨short, length, List.forall₂_iff_get.mpr ⟨?_, fun i one two => ?_⟩⟩
  · rw [List.length_drop, Nat.sub_sub_self short]
  · refine ValueType.admits_iff.mp (each (List.getElem?_eq_getElem one) ?_)
    rw [← List.getElem?_drop]
    exact List.getElem?_eq_getElem two

theorem eq_of_known {args params : List ValueType}
    (each : List.Forall₂ (fun arg param => arg = param ∨ arg = .any) args params)
    (known : ∀ type ∈ args, type.isValue = true) : args = params := by
  induction each with
  | nil => rfl
  | cons first _ ih =>
      obtain rfl := first.resolve_right (ValueType.ne_any (known _ List.mem_cons_self))
      rw [ih fun type member => known type (List.mem_cons_of_mem _ member)]

theorem Recorded.exact {current : BlockId} (recorded : Recorded true f b current r) : Exact r := by
  obtain ⟨q, yields, size, complete, prepared⟩ := recorded
  have derived := prepared.derived
  have agrees {edge : CallEdge} (member : edge ∈ r.edges) : ∃ funclet,
      r.funclets[edge.target]? = some funclet ∧ edge.agrees funclet.params = true := by
    obtain ⟨node, params, present, known, fits⟩ :=
      derived.agrees_of_complete complete (yields.edges ▸ member)
    obtain ⟨funclet, listed, rfl⟩ := yields.exists_funclet present known
    exact ⟨funclet, listed, fits⟩
  refine ⟨fun funclet member type carried => ?_, fun edge member isDirect => ?_,
    fun edge member isPoly => ?_, ?_, fun i funclet other recorded implicit => ?_⟩
  · obtain ⟨i, recorded⟩ := List.mem_iff_getElem?.mp member
    obtain ⟨node, types, c, present, params, there, rfl⟩ := yields.getElem?.mp recorded
    exact ((prepared.nodes present there).takes types params).2 rfl type carried
  · obtain ⟨funclet, recorded, fits⟩ := agrees member
    obtain ⟨_, length, each⟩ := agrees_drop fits
    have same := length.resolve_left (by simp [isDirect])
    rw [same, Nat.sub_self, List.drop_zero] at each
    exact ⟨funclet, recorded, eq_of_known each ((prepared.known rfl).2 edge (yields.edges ▸ member) isDirect)⟩
  · obtain ⟨funclet, recorded, fits⟩ := agrees member
    obtain ⟨short, _, each⟩ := agrees_drop fits
    exact ⟨funclet, recorded, short, each⟩
  · obtain ⟨node, present⟩ : ∃ node, q.graph.nodes[0]? = some node := ⟨_, Array.getElem?_eq_getElem size⟩
    have known := derived.params_of_complete complete (Array.mem_of_getElem? present)
    obtain ⟨types, params⟩ := Option.isSome_iff_exists.mp known
    obtain ⟨funclet, listed, rfl⟩ := yields.exists_funclet present params
    exact ⟨funclet, listed, yields.signature ▸ prepared.entry present params⟩
  · obtain ⟨node, types, c, present, params, there, rfl⟩ := yields.getElem?.mp recorded
    obtain ⟨none_, called⟩ := derived.inferred present other (by rw [params]; rfl) implicit
    have same := (complete.nodes node (Array.mem_of_getElem? present)).2.1
    exact ⟨none_, same.trans none_, yields.edges ▸ called⟩

/-- Polymorphic calls of a region, as the edges that they added to the blocks of their targets, come
from blocks that no path leads to. -/
def Idle (b : Ssa.Builder) (r : Region) : Prop :=
  ∀ (i : Nat) (funclet : Funclet), r.funclets[i]? = some funclet →
    ∃ k first rest, b.blocks[funclet.block]? = some k ∧ k.predecessors.toList = first ++ rest ∧
      first.length = (if i = 0 then 1 else 0) ∧
      List.Forall₂ (fun edge pred => edge.polymorphic = true → ¬ b.Reachable pred.block)
        (r.edges.toList.filter fun edge => edge.target == i) rest

theorem Recorded.idle {current : BlockId} (recorded : Recorded strict f b current r)
    (rooted : b.Rooted f written) : Idle b r := by
  obtain ⟨q, yields, _, _, prepared⟩ := recorded
  intro i funclet recorded
  obtain ⟨node, _, c, present, _, there, rfl⟩ := yields.getElem?.mp recorded
  obtain ⟨x, shown, _, _, arrive⟩ := (prepared.nodes present there).shape
  obtain ⟨o, present, rfl⟩ := Option.map_eq_some_iff.mp shown
  obtain ⟨k, block, rfl⟩ := Ssa.Builder.block_of_outline present
  obtain ⟨first, rest, split, length, _, calls⟩ := arrivals_split arrive
  rw [← yields.edges] at calls
  exact ⟨k, first, rest, block, split, length, calls.imp fun edge pred arrives isPoly reachable =>
    reachable.not_dead rooted (arrives.dead isPoly)⟩

end WasmFunclets.Validation
