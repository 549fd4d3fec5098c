import WasmFunclets.Proofs.Aligned.Regions

/-! Instructions that leave the block at hand for others. -/

namespace WasmFunclets.Validation

open Attempt
open Ssa (Forest)

variable {context : Context} {strict : Bool} {f g : Forest} {written : BlockId → Nat → Prop}
variable {extra : List BlockId} {s t u : State} {types : List ValueType} {args : List ValueId}
variable {c e : BlockId} {r : OpenRegion} {outer : List OpenRegion} {index : Nat} {frame : Frame}
variable {setting : Setting} {α : Type}

theorem StaysInFrame.framed {m : Step α} {Q : α → State → Prop} {E : Fault → State → Prop} (stays : StaysInFrame m)
    (framed : Framed s) (ends : Ends m s Q E) : Ends m s (fun a t => Q a t ∧ Framed t) E :=
  ends_of_forall (fun _ _ ok => ⟨ends.of_ok ok, framed.quiet (stays.quiet framed ok)⟩)
    fun _ _ error => ends.of_error error

structure Spreads (context : Context) (strict : Bool) (f : Forest) (written : BlockId → Nat → Prop)
    (s t : State) : Prop where
  same : t = { s with stack := t.stack, regions := t.regions, builder := t.builder }
  grows : s.builder.Grows t.builder
  aligned : Aligned context strict f written [] t

theorem Spreads.trans (first : Spreads context strict f written s t)
    (second : Spreads context strict f written t u) : Spreads context strict f written s u where
  same := by rw [second.same, first.same]
  grows := first.grows.trans second.grows
  aligned := second.aligned

theorem Stays.spreads (stays : Stays context strict f written [] s t) : Spreads context strict f written s t where
  same := by rw [stays.same]
  grows := stays.aside.grows
  aligned := stays.aligned

theorem Branches.spreads (branches : Branches context strict f written [] s c args t) :
    Spreads context strict f written s t where
  same := by rw [branches.same]
  grows := branches.joined.grows
  aligned := branches.aligned

theorem Framed.bottom (framed : Framed s) (bottom : s.control[0]? = some frame) :
    frame.construct = .function := by
  obtain ⟨l, last, construct⟩ := framed.nested.last
  have frames : s.frames.drop (s.control.size - 1) = [l.frame] := by
    rw [← State.map_frame_layers, ← List.map_drop, ← s.layers_length, last, List.map_singleton]
  have found : s.frame? (s.control.size - 1) = some l.frame := by
    rw [State.frame?_eq, ← List.head?_drop, frames, List.head?_cons]
  rw [State.frame?] at found
  split at found
  · rw [Nat.sub_self, bottom] at found
    cases found
    exact construct
  · cases found

theorem endBlock_behind {m : Step α} (framed : Framed s) (stays : StaysInFrame m)
    (ends : Ends m s (fun _ t => Spreads context strict f written s t) Refused) :
    Ends (m >>= fun _ => endBlock setting) s (fun _ t => Onward context strict f written s t) Refused := by
  rw [ends_bind]
  refine (stays.framed framed ends).imp ?_
  rintro _ t ⟨spreads, framed'⟩
  exact (endBlock_aligned spreads.aligned framed').imp fun _ u onward =>
    onward.after (.refl f) spreads.grows

theorem Aligned.labels (aligned : Aligned context strict f written extra s) (member : frame ∈ s.frames)
    (checked : strict = true) : ∀ type ∈ frame.labelTypes, type.isValue = true := by
  intro type listed
  obtain ⟨e, entered⟩ := aligned.frames frame member
  refine entered.known checked type ?_
  rw [Frame.labelTypes] at listed
  split at listed
  · exact List.mem_append_left _ listed
  · exact List.mem_append_right _ listed

theorem mem_frames {depth : Nat} (found : s.frame? depth = some frame) : frame ∈ s.frames := by
  rw [State.frame?_eq] at found
  exact List.mem_of_getElem? found

theorem unreachable_aligned (aligned : Aligned context strict f written [] s) (framed : Framed s) :
    Ends (execute setting .unreachable) s (fun _ t => Onward context strict f written s t) Refused := by
  refine endBlock_behind framed (emitStatement_staysInFrame _ _ _) ((emitStatement_aligned aligned .nil
    fun _ => Opcode.operandTypes_unreachable).imp ?_)
  rintro _ t ⟨same, aside, aligned'⟩
  exact ⟨by rw [same], aside.grows, aligned'⟩

theorem ends_conditional {opcode : UInt8} {immediate : Nat} {rest : Step α} {Q : α → State → Prop}
    (aligned : Aligned context strict f written [] s) (framed : Framed s)
    (required : strict = true →
      Opcode.operandTypes context opcode (UInt64.ofNat immediate) .null = some [.i32])
    (good : ∀ t, Stays context strict f written [] s t → Framed t → Ends rest t Q Refused) :
    Ends (takeValue .i32 >>= fun value => emitStatement opcode [value] immediate >>= fun _ => rest) s Q
      Refused := by
  rw [ends_bind]
  refine (StaysInFrame.framed (takeValue_staysInFrame _) framed (takeValue_aligned aligned fun _ => rfl)).imp ?_
  rintro value t ⟨taken, framed'⟩
  rw [ends_bind]
  refine (StaysInFrame.framed (emitStatement_staysInFrame _ _ _) framed'
    (emitStatement_aligned taken.aligned taken.at_hand required)).imp ?_
  rintro _ u ⟨⟨same, aside, emitted⟩, framed''⟩
  exact good u (taken.stays.trans ⟨by rw [same], aside, emitted⟩) framed''

theorem Stays.idle (stays : Stays context strict f written extra s t) (unused : ¬ s.builder.Used s.current) :
    ¬ t.builder.Used t.current := by
  have current : t.current = s.current := by rw [stays.same]
  rwa [current, stays.aside.used]

theorem branch_aligned (aligned : Aligned context strict f written [] s) (member : frame ∈ s.frames)
    (fresh : ¬ s.builder.HasEdge s.current frame.target) :
    Ends (shareValues frame.labelTypes >>= branchTo frame.target) s
      (fun _ t => Spreads context strict f written s t) Refused := by
  rw [ends_bind]
  refine (shareValues_aligned aligned (aligned.labels member)).imp fun vs t shared => ?_
  have member' : frame ∈ t.frames := by
    rw [shared.same]
    exact member
  have current : t.current = s.current := by rw [shared.same]
  refine (branchTo_frame shared.aligned member' shared.at_hand fun leads => fresh ?_).imp
    fun _ u branches => shared.stays.spreads.trans branches.spreads
  rw [current] at leads
  exact shared.aside.hasEdge.mp leads

theorem br_aligned {depth : Nat} (aligned : Aligned context strict f written [] s) (framed : Framed s)
    (unused : ¬ s.builder.Used s.current) :
    Ends (br setting depth) s (fun _ t => Onward context strict f written s t) Refused := by
  rw [br, ends_bind]
  refine ends_labelled fun frame found => ?_
  have same : (do branchTo frame.target (← shareValues frame.labelTypes); endBlock setting : Step Unit) =
      (shareValues frame.labelTypes >>= branchTo frame.target) >>= fun _ => endBlock setting := by
    rw [bind_assoc]
  rw [same]
  exact endBlock_behind framed (along_bind (shareValues_staysInFrame _) fun _ => branchTo_staysInFrame _ _)
    (branch_aligned aligned (mem_frames found) (Ssa.Builder.not_hasEdge_of_unused unused))

theorem ret_aligned (aligned : Aligned context strict f written [] s) (framed : Framed s)
    (unused : ¬ s.builder.Used s.current) :
    Ends (ret setting) s (fun _ t => Onward context strict f written s t) Refused := by
  obtain ⟨function, bottom⟩ : ∃ function, s.control[0]? = some function :=
    ⟨_, Array.getElem?_eq_getElem (Array.size_pos_iff.mpr framed.control)⟩
  have member : function ∈ s.frames :=
    List.mem_reverse.mpr (Array.mem_toList_iff.mpr (Array.mem_of_getElem? bottom))
  have types : function.labelTypes = function.signature.results :=
    Frame.labelTypes_eq (by simp [framed.bottom bottom])
  rw [ret, ends_bind, ends_get, bottom]
  have same : (do branchTo (← get).exit (← shareValues function.signature.results); endBlock setting :
      Step Unit) = get >>= fun s => (shareValues function.signature.results >>= branchTo s.exit) >>=
        fun _ => endBlock setting := by
    simp only [bind_assoc]
  dsimp only
  rw [same, ends_bind, ends_get, ← types, ← aligned.ground function bottom]
  exact endBlock_behind framed (along_bind (shareValues_staysInFrame _) fun _ => branchTo_staysInFrame _ _)
    (branch_aligned aligned member (Ssa.Builder.not_hasEdge_of_unused unused))

theorem brIf_aligned {depth : Nat} (aligned : Aligned context strict f written [] s)
    (unused : ¬ s.builder.Used s.current) :
    Ends (brIf depth) s (fun _ t => Onward context strict f written s t) Refused := by
  rw [brIf, ends_bind]
  refine (takeValue_aligned aligned fun _ => rfl).imp fun condition s₁ taken => ?_
  rw [ends_bind]
  refine ends_labelled fun frame found => ?_
  rw [ends_bind]
  refine (shareValues_aligned taken.aligned (taken.aligned.labels (mem_frames found))).imp
    fun vs s₂ shared => ?_
  rw [ends_bind]
  refine (emitStatement_aligned shared.aligned (shared.stays.keeps taken.aligned taken.at_hand)
    fun _ => Opcode.operandTypes_brIf).imp ?_
  rintro _ s₃ ⟨same, aside, emitted⟩
  have emits : Stays context strict f written [] s₂ s₃ := ⟨by rw [same], aside, emitted⟩
  have current : s₃.current = s.current := by rw [same, shared.same, taken.same]
  have member : frame ∈ s₃.frames := by
    rw [same, shared.same]
    exact mem_frames found
  have idle : ¬ s₃.builder.Used s₃.current := fun used => unused <| taken.aside.used.mp <|
    shared.aside.used.mp <| aside.used.mp <| current ▸ used
  rw [ends_bind]
  refine (branchTo_frame emitted member (emits.keeps shared.aligned shared.at_hand)
    (Ssa.Builder.not_hasEdge_of_unused idle)).imp fun _ s₄ branches => ?_
  refine (fallThrough_aligned branches.aligned).imp fun _ s₅ forks => ?_
  exact ⟨⟨_, Forest.grows_push f _, forks.aligned⟩, fun _ => forks.unused,
    (((taken.aside.grows.trans shared.aside.grows).trans aside.grows).trans branches.joined.grows).trans
      forks.added.grows⟩

theorem brTargets_aligned {expected : List ValueType} (depths : List Nat) (seen : Std.HashSet BlockId)
    (aligned : Aligned context strict f written [] s)
    (fresh : ∀ frame ∈ s.frames, ¬ seen.contains frame.target = true →
      ¬ s.builder.HasEdge s.current frame.target) :
    Ends (brTargets expected depths seen) s (fun _ t => Spreads context strict f written s t) Refused := by
  induction depths generalizing s seen with
  | nil =>
      rw [brTargets, ends_pure]
      exact ⟨rfl, .refl aligned.built.sound.formed, aligned⟩
  | cons depth rest ih =>
      rw [brTargets, ends_bind]
      refine ends_labelled fun frame found => ?_
      rw [ends_bind]
      refine ends_demand fun _ => ?_
      rw [ends_bind]
      refine (shareValues_aligned aligned (aligned.labels (mem_frames found))).imp fun vs t shared => ?_
      have frames : t.frames = s.frames := by rw [shared.same]; rfl
      have current : t.current = s.current := by rw [shared.same]
      have leads {d : BlockId} : t.builder.HasEdge t.current d ↔ s.builder.HasEdge s.current d := by
        rw [current, shared.aside.hasEdge]
      dsimp only
      rw [ends_ite]
      refine ⟨fun _ => ?_, fun first => ?_⟩
      · refine (ih (seen.insert frame.target) shared.aligned fun other member unseen => ?_).imp
          fun _ u spreads => shared.stays.spreads.trans spreads
        rw [leads]
        refine fresh other (frames ▸ member) fun listed => unseen ?_
        simp [listed]
      · rw [ends_bind]
        refine (branchTo_frame shared.aligned (frames ▸ mem_frames found) shared.at_hand
          (leads.not.mpr (fresh frame (mem_frames found) first))).imp fun _ u branches => ?_
        have frames' : u.frames = t.frames := by rw [branches.same]; rfl
        have current' : u.current = t.current := by rw [branches.same]
        refine (ih (seen.insert frame.target) branches.aligned fun other member unseen => ?_).imp
          fun _ w spreads => (shared.stays.spreads.trans branches.spreads).trans spreads
        intro gone
        rcases branches.joined.hasEdge (current' ▸ gone) with ⟨same, _⟩ | before
        · exact unseen (by simp [same])
        · refine fresh other (frames ▸ frames' ▸ member) (fun listed => unseen ?_) (leads.mp before)
          simp [listed]

theorem brTable_aligned {depths : List Nat} {default : Nat}
    (aligned : Aligned context strict f written [] s) (framed : Framed s)
    (unused : ¬ s.builder.Used s.current) :
    Ends (brTable setting depths default) s (fun _ t => Onward context strict f written s t) Refused := by
  refine ends_conditional aligned framed (fun _ => Opcode.operandTypes_brTable) fun t stays framed' => ?_
  have aligned' := stays.aligned
  rw [ends_bind]
  refine ends_labelled fun frame found => ?_
  exact (endBlock_behind framed' (brTargets_staysInFrame _ _ _) (brTargets_aligned _ ∅ aligned'
    fun _ _ _ => Ssa.Builder.not_hasEdge_of_unused (stays.idle unused))).imp fun _ u onward =>
      onward.after (.refl f) stays.aside.grows

theorem Prepared.place (prepared : Prepared strict f s.builder s.current r)
    (inside : index < r.graph.size) : ∃ c, r.blocks[index]? = some c :=
  ⟨_, Array.getElem?_eq_getElem (prepared.count ▸ inside)⟩

theorem call_aligned_of_gathered {operands : List Operand} {polymorphic : Bool}
    (aligned : Aligned context strict f written [] s) (framed : Framed s)
    (regions : s.regions = r :: outer) (inside : index < r.graph.size)
    (gathered : Gathered strict f s operands polymorphic)
    (fresh : ∀ c, r.blocks[index]? = some c → ¬ s.builder.HasEdge s.current c) :
    Ends (transferTo index operands polymorphic) s (fun _ t => ∃ h c, r.blocks[index]? = some c ∧
      Transfers context strict f written [] s r outer c t h) Refused := by
  have member : r ∈ s.regions := regions ▸ List.mem_cons_self
  obtain ⟨c, place⟩ := (aligned.regions r member).place inside
  exact (transferTo_aligned aligned regions (framed.settled r member) inside gathered.backs gathered.known
    gathered.dead (aligned.within_region framed regions) place (fresh c place)).imp
      fun _ t ⟨h, transfers⟩ => ⟨h, c, place, transfers⟩

theorem Transfers.spreads {h : FuncletCalls}
    (transfers : Transfers context strict f written [] s r outer c t h) :
    Spreads context strict f written s t where
  same := by rw [transfers.same]
  grows := transfers.grows
  aligned := transfers.aligned

theorem funcletCall_aligned (aligned : Aligned context strict f written [] s) (framed : Framed s)
    (unused : ¬ s.builder.Used s.current) (regions : s.regions = r :: outer)
    (inside : index < r.graph.size) :
    Ends (funcletCall setting index) s (fun _ t => Onward context strict f written s t) Refused := by
  rw [funcletCall, ends_bind]
  refine (StaysInFrame.framed (emitStatement_staysInFrame _ _ _) framed (emitStatement_aligned aligned .nil
    fun _ => Opcode.operandTypes_funcletCall)).imp ?_
  rintro _ t ⟨⟨same, aside, emitted⟩, framed'⟩
  have stays : Stays context strict f written [] s t := ⟨by rw [same], aside, emitted⟩
  have regions' : t.regions = r :: outer := by
    rw [same]
    exact regions
  refine ends_gather emitted framed' regions' fun operands polymorphic gathered => ?_
  refine (endBlock_behind framed' (transferTo_staysInFrame _ _ _) ((call_aligned_of_gathered emitted framed'
    regions' inside gathered fun c _ => Ssa.Builder.not_hasEdge_of_unused (stays.idle unused)).imp
      fun _ u ⟨_, _, _, transfers⟩ => transfers.spreads)).imp fun _ u onward => ?_
  exact onward.after (.refl f) aside.grows

theorem funcletCallIf_aligned (aligned : Aligned context strict f written [] s) (framed : Framed s)
    (unused : ¬ s.builder.Used s.current) (regions : s.regions = r :: outer)
    (inside : index < r.graph.size) :
    Ends (funcletCallIf index) s (fun _ t => Onward context strict f written s t) Refused := by
  refine ends_conditional aligned framed (fun _ => Opcode.operandTypes_funcletCallIf)
    fun t stays framed' => ?_
  have aligned' := stays.aligned
  have regions' : t.regions = r :: outer := by
    rw [stays.same]
    exact regions
  refine ends_gather aligned' framed' regions' fun operands polymorphic gathered => ?_
  rw [ends_bind]
  refine (call_aligned_of_gathered aligned' framed' regions' inside gathered
    fun c _ => Ssa.Builder.not_hasEdge_of_unused (stays.idle unused)).imp ?_
  rintro _ u ⟨h, c, place, transfers⟩
  refine (fallThrough_aligned transfers.aligned).imp fun _ w forks => ?_
  exact ⟨⟨_, Forest.grows_push f _, forks.aligned⟩, fun _ => forks.unused,
    (stays.aside.grows.trans transfers.grows).trans forks.added.grows⟩

theorem Gathered.called {operands : List Operand} {polymorphic : Bool} {h : FuncletCalls}
    (gathered : Gathered strict f s operands polymorphic)
    (aligned : Aligned context strict f written [] s)
    (transfers : Transfers context strict f written [] s r outer c t h) :
    Gathered strict f t operands polymorphic := by
  have current : t.current = s.current := by rw [transfers.same]
  refine ⟨fun operand member => ?_, gathered.known, current.symm ▸ gathered.dead⟩
  rw [current]
  exact (gathered.backs operand member).grow transfers.grows.toLater transfers.grows.size
    aligned.built.sound.formed transfers.aligned.built.sound.formed (.refl f)

theorem callTargets_aligned {operands : List Operand} {polymorphic : Bool} (targets : List Nat)
    (seen : Std.HashSet Nat) (aligned : Aligned context strict f written [] s) (framed : Framed s)
    (regions : s.regions = r :: outer) (inside : ∀ target ∈ targets, target < r.graph.size)
    (gathered : Gathered strict f s operands polymorphic)
    (fresh : ∀ (i : Nat) (c : BlockId), ¬ seen.contains i = true → r.blocks[i]? = some c →
      ¬ s.builder.HasEdge s.current c) :
    Ends (callTargets operands polymorphic targets seen) s (fun _ t => Spreads context strict f written s t)
      Refused := by
  -- A funclet that is not `seen` has no edge from here yet; a call adds the only one to its block.
  induction targets generalizing s r seen with
  | nil =>
      rw [callTargets, ends_pure]
      exact ⟨rfl, .refl aligned.built.sound.formed, aligned⟩
  | cons target rest ih =>
      have unlisted {i : Nat} (unseen : ¬ (seen.insert target).contains i = true) :
          ¬ seen.contains i = true := fun listed => unseen (by simp [listed])
      have inside' : ∀ target ∈ rest, target < r.graph.size :=
        fun other member => inside other (List.mem_cons_of_mem _ member)
      rw [callTargets]
      dsimp only
      rw [ends_ite]
      refine ⟨fun _ => ih (seen.insert target) aligned framed regions inside' gathered
        fun i c unseen => fresh i c (unlisted unseen), fun first => ?_⟩
      rw [ends_bind]
      refine (StaysInFrame.framed (transferTo_staysInFrame _ _ _) framed
        (call_aligned_of_gathered aligned framed regions
        (inside target List.mem_cons_self) gathered fun c => fresh target c first)).imp ?_
      rintro _ t ⟨⟨h, c, place, transfers⟩, framed'⟩
      have member : r ∈ s.regions := regions ▸ List.mem_cons_self
      have prepared := aligned.regions r member
      have current : t.current = s.current := by rw [transfers.same]
      have regions' : t.regions = { r with graph := h } :: outer := by rw [transfers.same]
      have prepared' := transfers.aligned.regions { r with graph := h } (by
        rw [regions']
        exact List.mem_cons_self)
      have size : h.size = r.graph.size := prepared'.count.symm.trans prepared.count
      refine (ih (seen.insert target) transfers.aligned framed' regions'
        (fun other listed => size.symm ▸ inside' other listed) (gathered.called aligned transfers)
        fun i d unseen place' leads => ?_).imp fun _ u spreads => transfers.spreads.trans spreads
      rcases transfers.leads _ _ leads with ⟨rfl, _⟩ | before
      · exact unseen (by simp [prepared.injective place place'])
      · exact fresh i d (unlisted unseen) place' (current ▸ before)

theorem funcletCallTable_aligned {targets : List Nat} {default : Nat}
    (aligned : Aligned context strict f written [] s) (framed : Framed s)
    (unused : ¬ s.builder.Used s.current) (regions : s.regions = r :: outer)
    (inside : ∀ target ∈ targets ++ [default], target < r.graph.size) :
    Ends (funcletCallTable setting targets default) s (fun _ t => Onward context strict f written s t)
      Refused := by
  refine ends_conditional aligned framed (fun _ => Opcode.operandTypes_funcletCallTable)
    fun t stays framed' => ?_
  have aligned' := stays.aligned
  have regions' : t.regions = r :: outer := by
    rw [stays.same]
    exact regions
  refine ends_gather aligned' framed' regions' fun operands polymorphic gathered => ?_
  refine (endBlock_behind framed' (callTargets_staysInFrame _ _ _ _) (callTargets_aligned _ ∅ aligned' framed'
    regions' inside gathered fun _ _ _ _ => Ssa.Builder.not_hasEdge_of_unused (stays.idle unused))).imp
      fun _ u onward => onward.after (.refl f) stays.aside.grows

/-- The end of a funclet passes all operands on to the next one. -/
theorem closeFunclet_aligned (aligned : Aligned context strict f written [] s) (framed : Framed s)
    (unused : ¬ s.builder.Used s.current) {frames : List Frame} (split : s.frames = frame :: frames)
    (isRegion : frame.construct = .region) :
    Ends (closeFunclet setting frame) s (fun _ t => Onward context strict f written s t) Refused := by
  obtain ⟨r, outer, top, settled⟩ := framed.top split isRegion
  rw [closeFunclet, ends_bind]
  refine ends_openRegion top.regions ?_
  dsimp only
  rw [ends_ite]
  refine ⟨fun more => ?_, fun _ => ?_⟩
  · refine ends_gather aligned framed top.regions fun operands polymorphic gathered => ?_
    rw [ends_bind]
    refine (StaysInFrame.framed (transferTo_staysInFrame _ _ _) framed (call_aligned_of_gathered aligned framed
      top.regions more gathered fun c _ => Ssa.Builder.not_hasEdge_of_unused unused)).imp ?_
    rintro _ t ⟨⟨h, c, _, transfers⟩, framed'⟩
    have control : t.control = s.control := by rw [transfers.same]
    have top' : Top t frame { r with graph := h } outer :=
      top.congr control (by rw [transfers.same]) (by rw [transfers.same])
    exact (nextFunclet_aligned transfers.aligned top' transfers.settled).imp fun _ u onward =>
      onward.after (.refl f) transfers.grows
  · have plain : frame.construct ≠ .loop := by simp [isRegion]
    have member : frame ∈ s.frames := split ▸ List.mem_cons_self
    rw [ends_bind, ← top.target]
    have known : strict = true → ∀ type ∈ frame.signature.results, type.isValue = true :=
      Frame.labelTypes_eq plain ▸ aligned.labels member
    refine (StaysInFrame.framed (takeAll_staysInFrame _) framed (takeAll_aligned aligned known)).imp ?_
    rintro vs t ⟨⟨_, taken⟩, framed'⟩
    have member' : frame ∈ t.frames := by
      rw [taken.same]
      exact member
    rw [ends_bind]
    refine (StaysInFrame.framed (branchTo_staysInFrame _ _) framed' (branchTo_frame taken.aligned member'
      (Frame.labelTypes_eq plain ▸ taken.at_hand) (Ssa.Builder.not_hasEdge_of_unused
        (taken.stays.idle unused)))).imp ?_
    rintro _ u ⟨branches, framed''⟩
    have top' : Top u frame { r with graph := r.graph } outer :=
      top.congr (by rw [branches.same, taken.same]) (by rw [branches.same, taken.same]; rfl)
        (by rw [branches.same, taken.same]; exact top.regions)
    have settled' : r.graph.Settled := settled
    exact (closeRegion_aligned branches.aligned top' settled').imp fun _ w onward =>
      onward.after (.refl f) (taken.aside.grows.trans branches.joined.grows)

end WasmFunclets.Validation
