import WasmFunclets.Proofs.Jumps

/-! The calls of funclets that a validation records: what it finds of their arguments is what the
region in the end records of the parameters. -/

namespace WasmFunclets

open Validation Attempt

theorem CallEdge.args_eq {edge : CallEdge} {params : List ValueType}
    (agrees : edge.agrees params = true) (direct : edge.polymorphic = false)
    (known : ∀ t ∈ edge.args, t ≠ .any) : edge.args = params := by
  simp only [CallEdge.agrees, direct, Bool.false_or, Bool.and_eq_true, decide_eq_true_eq,
    beq_iff_eq, List.all_eq_true] at agrees
  obtain ⟨⟨_, length⟩, all⟩ := agrees
  rw [length, Nat.sub_self, List.drop_zero] at all
  refine List.ext_getElem length fun i inside inside' => ?_
  have same := all (edge.args[i], params[i]) (by
    rw [← List.getElem_zip (i := i) (h := by rw [List.length_zip]; exact Nat.lt_min.mpr ⟨inside, inside'⟩)]
    exact List.getElem_mem _)
  simp only [Bool.or_eq_true, beq_iff_eq] at same
  exact same.resolve_right (known _ (List.getElem_mem inside))

namespace Validation

theorem Nested.reachable {layers : List Layer} (nested : Nested layers)
    (marks : ∀ l ∈ layers, l.frame.mark.polymorphic = false) :
    ∀ l ∈ layers, l.frame.outerUnreachable = false := by
  induction nested with
  | @function l construct mark reachable region =>
      intro m member
      rw [List.mem_singleton.mp member]
      exact reachable
  | @inside l parent outer nested inside ih =>
      have outside := ih fun m member => marks m (List.mem_cons_of_mem _ member)
      intro m member
      rcases List.mem_cons.mp member with rfl | deeper
      · cases region : m.region with
        | none =>
            rw [(inside.plain region).2, outside parent List.mem_cons_self,
              marks m List.mem_cons_self]
            rfl
        | some r => exact (inside.region r region).2.1
      · exact outside m deeper

/-- A call that is recorded has the parameters of its target for arguments. -/
theorem Course.called {setting : Setting} {code : List Located} {states : Nat → State} {j index : Nat}
    (course : Course setting code states) {u v w : State} {r : OpenRegion} {rest : List OpenRegion}
    {args : List Operand} {polymorphic : Bool} {i : Instruction} (framed : Framed u)
    (regions : u.regions = r :: rest) (ok : transferTo index args polymorphic u = .ok () v)
    (quiet : Quiet v w) (shift : Shift w i (states j)) (inside : j ≤ code.length) :
    ∃ params, paramsIn (states code.length).closed r.offset index = some params ∧
      index < r.graph.size ∧
      (polymorphic = false → (∀ o ∈ args, o.type ≠ .any) → args.map Operand.type = params) := by
  have settled : r.graph.Settled := framed.settled r (by rw [regions]; exact List.mem_cons_self)
  have calm := (transferTo_staysInFrame _ _ _).quiet framed ok
  obtain ⟨q, b, later, steady, _, n, edge, recorded, target, typed, direct⟩ :=
    transferTo_callsAdded regions settled ok
  have open_ : v.regions = q :: rest := by rw [later]
  obtain ⟨q', inner, steady'⟩ := quiet.region_on_top open_
  obtain ⟨deeper, l, outer, layers, region, _⟩ :=
    (framed.quiet (calm.trans quiet)).innermost_region inner
  have found : lowest (outer.length + 1) w.layers = l :: outer := by
    rw [layers, lowest]
    exact List.drop_left' (by simp)
  obtain ⟨g, keeps, finished, params⟩ := course.recorded (m := outer.length)
    (framed.quiet (calm.trans quiet)) shift inside (by
      rw [layers, List.length_append, List.length_cons]
      omega) found region
  obtain ⟨edge', recorded', same'⟩ := steady'.keeps.edges recorded
  obtain ⟨edge'', recorded'', same⟩ := keeps.edges recorded'
  obtain ⟨node, ps, present, known, agrees⟩ :=
    finished.agrees_of_checked recorded'' (finished.checked _ _ recorded'')
  have kept : edge''.target = index ∧ edge''.args = args.map Operand.type ∧
      edge''.polymorphic = polymorphic := by
    rw [same, same']
    exact ⟨target, typed, direct⟩
  obtain ⟨target, typed, direct⟩ := kept
  rw [target] at present
  have offset : q'.offset = r.offset := by rw [steady'.same, steady.same]
  refine ⟨ps, by rw [← offset]; exact params index node ps present known, ?_, fun reachable all => ?_⟩
  · have below := (Array.getElem?_eq_some_iff.mp present).1
    rw [← steady.keeps.size_eq, ← steady'.keeps.size_eq, ← keeps.size_eq]
    exact below
  · rw [← typed]
    refine CallEdge.args_eq agrees (direct.trans reachable) fun t member => ?_
    rw [typed] at member
    obtain ⟨o, present, rfl⟩ := List.mem_map.mp member
    exact all o present

end Validation

namespace Machine

variable {V : Type} {p : Program V} {setting : Setting} {states : Nat → State} {c : Config V}

/-- A call that a validation records is one of the innermost region, with the parameters of the target. -/
theorem Mid.callee (described : Described p setting states) (mid : Mid p states c) {cursor : Cursor}
    {u u' v w : State} {args : List Operand} {polymorphic : Bool} {index : Nat} {i : Instruction}
    (quiet : Quiet ((states c.pc).fetched cursor) u) (agrees : Agrees c u.stack)
    (operands : regionOperands u = .ok args u)
    (unreachable : operandsUnreachable u = .ok polymorphic u) (before : Quiet u u')
    (ok : transferTo index args polymorphic u' = .ok () v) (behind : Quiet v w)
    (shift : Shift w i (states (c.pc + 1))) :
    ∃ inner l outer r params, (states c.pc).layers = inner ++ l :: outer ∧ (∀ m ∈ inner, m.region = none) ∧
      l.region = some r ∧ p.params r.offset index = some params ∧
      (c.stack.drop l.frame.mark.height).map Typed.type = params ∧ index < r.graph.size ∧
      args = u.stack.operands.toList.drop l.frame.mark.height ∧
      ∀ q rest, u'.regions = q :: rest → q.blocks = r.blocks := by
  have framed := (mid.framed described).fetched cursor
  obtain ⟨r, head, above, _⟩ := regionOperands_ok.mp operands
  obtain ⟨rest, regions⟩ : ∃ rest, u.regions = r :: rest := by
    cases open_ : u.regions with
    | nil => simp [open_] at head
    | cons first rest =>
        rw [open_] at head
        exact ⟨rest, by rw [Option.some.inj head]⟩
  obtain ⟨r', regions', later⟩ := before.region_on_top regions
  obtain ⟨params, known, within, same⟩ := described.course.called
    ((framed.quiet quiet).quiet before) regions' ok behind shift mid.inside
  -- The region in the states of the course itself.
  obtain ⟨r₀, regions₀, first⟩ : ∃ r₀, (states c.pc).regions = r₀ :: rest ∧ CallsAdded r₀ r := by
    have top := quiet.region
    have tail := quiet.outer
    rw [regions] at top tail
    obtain ⟨r₀, opened, steady⟩ := rel_some top
    cases open_ : (states c.pc).regions with
    | nil =>
        change (states c.pc).regions.head? = _ at opened
        simp [open_] at opened
    | cons q others =>
        change (states c.pc).regions.head? = _ at opened
        change rest = (states c.pc).regions.tail at tail
        rw [open_] at opened tail
        exact ⟨r₀, by rw [Option.some.inj opened, tail, List.tail_cons], steady⟩
  obtain ⟨inner, l, outer, layers, region, plain⟩ :=
    (mid.framed described).innermost_region regions₀
  have found : (states c.pc).layers.drop inner.length = l :: outer := by
    rw [layers, List.drop_left]
  have base := (Nested.drop (mid.framed described).nested found).base_eq region
  have shared : r'.offset = r₀.offset ∧ r.base = r₀.base ∧ r'.graph.size = r₀.graph.size ∧
      r'.blocks = r₀.blocks := by
    refine ⟨by rw [later.same, first.same], by rw [first.same], ?_, by rw [later.same, first.same]⟩
    rw [later.keeps.size_eq, first.keeps.size_eq]
  obtain ⟨offset, ground, size, blocks⟩ := shared
  obtain ⟨reach, rfl⟩ := TypedStack.operandsFrom_eq_some.mp above
  obtain ⟨top, present, direct, _⟩ := operandsUnreachable_ok.mp unreachable
  have reachable : top.outerUnreachable = false := by
    have frames := quiet.frames
    rw [u.frame?_eq, frames] at present
    change (states c.pc).frames[0]? = _ at present
    rw [← State.map_frame_layers, List.getElem?_map] at present
    obtain ⟨m, member, rfl⟩ := Option.map_eq_some_iff.mp present
    exact (mid.framed described).nested.reachable mid.marks m (List.mem_of_getElem? member)
  rw [ground, base] at same ⊢
  refine ⟨inner, l, outer, r₀, params, layers, plain, region, ?_, ?_, by omega, rfl, fun q others open_ => ?_⟩
  · rw [← offset, described.params]
    exact known
  · rw [agrees.types_drop]
    refine same ?_ fun o member => agrees.solid.known o (List.mem_of_mem_drop member)
    rw [← direct, agrees.finite, reachable]
    rfl
  · rw [regions'] at open_
    rw [← (List.cons.inj open_).1, blocks]

theorem Mid.call (described : Described p setting states) (mid : Mid p states c) {cursor : Cursor}
    {u u' v w : State} {args : List Operand} {polymorphic : Bool} {index : Nat} {i : Instruction}
    (quiet : Quiet ((states c.pc).fetched cursor) u) (agrees : Agrees c u.stack)
    (operands : regionOperands u = .ok args u)
    (unreachable : operandsUnreachable u = .ok polymorphic u) (before : Quiet u u')
    (ok : transferTo index args polymorphic u' = .ok () v) (behind : Quiet v w)
    (shift : Shift w i (states (c.pc + 1))) : LiveOrEnded p states (p.transfer index c) := by
  obtain ⟨_, _, _, _, _, layers, plain, region, known, typed, within, _⟩ :=
    mid.callee described quiet agrees operands unreachable before ok behind shift
  exact mid.transfer described layers plain region known typed within

end Machine

end WasmFunclets
