import WasmFunclets.Proofs.Aligned.Straight

/-! Branches to open frames, and the blocks behind them. -/

namespace WasmFunclets.Validation

open Attempt
open Ssa (Forest Shape)

variable {context : Context} {strict : Bool} {f g : Forest} {written : BlockId → Nat → Prop}
variable {extra : List BlockId} {s t u : State} {types : List ValueType} {args : List ValueId}
variable {b : Ssa.Builder} {c d e : BlockId} {frame : Frame}

theorem Aligned.apart (aligned : Aligned context strict f written extra s)
    (frame : c ∈ extra ++ s.frames.map Frame.target) :
    ∀ r ∈ s.regions, ∀ d ∈ r.waiting, d ≠ c := by
  rintro r region d waits rfl
  have nodup := aligned.opens.nodup
  rw [State.opens, ← List.append_assoc] at nodup
  exact (List.nodup_append.mp nodup).2.2 d frame d (List.mem_flatMap.mpr ⟨r, region, waits⟩) rfl

theorem Aligned.joined (aligned : Aligned context strict f written extra s)
    (built : b.Built context strict f written []) (joined : s.builder.Joined s.current c args b)
    (place : c ∈ extra ++ s.frames.map Frame.target) :
    Aligned context strict f written extra { s with builder := b } := by
  have open_ : c ∈ extra ++ s.opens := by
    rw [State.opens, ← List.append_assoc]
    exact List.mem_append_left _ place
  obtain ⟨x, present, isOpen⟩ := aligned.opens.present open_
  have formed := aligned.built.sound.formed
  refine aligned.move (joined.advances present isOpen) built rfl rfl rfl rfl (.refl aligned.above)
    (joined.count.symm ▸ aligned.inside) aligned.within (fun operand member =>
      (aligned.operands operand member).grow joined.later joined.size formed built.sound.formed (.refl f))
    aligned.clear aligned.dead (fun r region d waits => ?_) (aligned.opens.joined joined)
  obtain ⟨_, _, _, shape⟩ := joined.edge
  rw [shape, if_neg (aligned.apart place r region d waits)]

theorem connect_aligned (aligned : Aligned context strict f written extra s)
    (place : c ∈ extra ++ s.frames.map Frame.target) (made : f[c]? = some (some e))
    (within : f.Within s.current e) (takes : s.builder.HasArguments c types)
    (holds : s.builder.HoldAll strict f s.current args types)
    (fresh : ¬ s.builder.HasEdge s.current c) :
    Ends (Ssa.Builder.connect s.current c args) s.builder (fun _ b =>
      s.builder.Joined s.current c args b ∧
        s.builder.Advances f s.current b f s.current (fun _ => False) ∧
        Aligned context strict f written extra { s with builder := b }) Ssa.Builder.Exhausted := by
  have open_ : c ∈ extra ++ s.opens := by
    rw [State.opens, ← List.append_assoc]
    exact List.mem_append_left _ place
  obtain ⟨x, present, isOpen⟩ := aligned.opens.present open_
  refine (Ssa.Builder.connect_built aligned.built aligned.inside present isOpen
    holds.mem (.inr ⟨types, takes, Nat.le_of_eq holds.length_eq, holds.suits, .inr holds.length_eq⟩)
    (within.imp_right fun under => ⟨e, made, under⟩)
    ((Ssa.Builder.not_hasEdge_iff present).mp fresh)).imp ?_
  rintro _ b ⟨built, joined⟩
  exact ⟨joined, joined.advances present isOpen, aligned.joined built joined place⟩

structure Branches (context : Context) (strict : Bool) (f : Forest) (written : BlockId → Nat → Prop)
    (extra : List BlockId) (s : State) (c : BlockId) (args : List ValueId) (t : State) : Prop where
  same : t = { s with builder := t.builder }
  joined : s.builder.Joined s.current c args t.builder
  advances : s.builder.Advances f s.current t.builder f s.current fun _ => False
  aligned : Aligned context strict f written extra t

theorem branchTo_aligned (aligned : Aligned context strict f written extra s)
    (place : c ∈ extra ++ s.frames.map Frame.target) (made : f[c]? = some (some e))
    (within : f.Within s.current e) (takes : s.builder.HasArguments c types)
    (holds : s.builder.HoldAll strict f s.current args types)
    (fresh : ¬ s.builder.HasEdge s.current c) :
    Ends (branchTo c args) s (fun _ t => Branches context strict f written extra s c args t)
      Refused :=
  ends_branchTo <| (connect_aligned aligned place made within takes holds fresh).imp
    fun _ _ ⟨joined, advances, aligned'⟩ => ⟨rfl, joined, advances, aligned'⟩

theorem branchTo_frame (aligned : Aligned context strict f written extra s)
    (member : frame ∈ s.frames) (holds : s.builder.HoldAll strict f s.current args frame.labelTypes)
    (fresh : ¬ s.builder.HasEdge s.current frame.target) :
    Ends (branchTo frame.target args) s
      (fun _ t => Branches context strict f written extra s frame.target args t) Refused := by
  obtain ⟨e, entered⟩ := aligned.frames frame member
  exact branchTo_aligned aligned (List.mem_append_right _ (List.mem_map_of_mem member)) entered.made
    entered.within entered.takes holds fresh

theorem used_lt (built : b.Built context strict f written []) (used : b.Used c) :
    c < b.blocks.size := by
  obtain ⟨_, k, present, pred, member, rfl⟩ := used
  exact built.sound.flow.pred_lt present pred member

theorem unused_added {x : Shape} {t : Ssa.Builder} (built : b.Built context strict f written [])
    (added : b.Added x t) (behind : ∀ pred ∈ x.predecessors, pred.block < b.blocks.size) :
    ¬ t.Used b.blocks.size := by
  intro used
  obtain ⟨e, y, shown, pred, member, here⟩ := Ssa.Builder.used_iff_shape.mp used
  rw [added.shape] at shown
  split at shown
  · cases shown
    exact Nat.lt_irrefl _ (here ▸ behind pred member)
  · exact Nat.lt_irrefl _ (used_lt built
      (Ssa.Builder.used_iff_shape.mpr ⟨e, y, shown, pred, member, here⟩))

/-- A block that may come to hand: no frame and no funclet without parameters needs it unused. -/
structure Wakes (s : State) (c : BlockId) : Prop where
  inside : c < s.builder.blocks.size
  unused : ¬ s.builder.Used c
  frames : ∀ frame ∈ s.frames, frame.target ≠ c
  regions : ∀ r ∈ s.regions, ∀ {i : Nat} {node : FuncletNode}, r.graph.nodes[i]? = some node →
    r.blocks[i]? = some c → node.params.isSome

theorem Wakes.congr (wakes : Wakes s c) (count : s.builder.blocks.size ≤ t.builder.blocks.size)
    (unused : ¬ t.builder.Used c) (control : t.control = s.control) (regions : t.regions = s.regions) :
    Wakes t c where
  inside := Nat.lt_of_lt_of_le wakes.inside count
  unused := unused
  frames := by
    rw [State.frames, control]
    exact wakes.frames
  regions := by
    rw [regions]
    exact wakes.regions

/-- Another block is at hand, with operands of its own. -/
theorem Aligned.resume {k : TypedStack} (aligned : Aligned context strict f written extra s)
    (wakes : c = s.current ∨ Wakes s c) (above : k.floor ≤ k.height)
    (rests : ∀ frame ∈ s.frames, frame.mark.height ≤ k.floor ∧
      k.operands.toList.take frame.mark.height = s.stack.operands.toList.take frame.mark.height)
    (within : ∀ frame ∈ s.frames, ∀ e, f[frame.target]? = some (some e) → f.Within c e)
    (operands : ∀ operand ∈ k.operands.toList, s.builder.Backs strict f c operand)
    (clear : strict = true → Clear k) (dead : k.polymorphic = true → f.Dead c) :
    Aligned context strict f written extra { s with current := c, stack := k } := by
  have formed := aligned.built.sound.formed
  have still : s.builder.Advances f s.current s.builder f s.current fun _ => False :=
    (Ssa.Builder.Aside.refl formed).advances
  rcases wakes with rfl | wakes
  · exact aligned.proceed still.toProceeds (fun _ _ => still.edges) aligned.built rfl rfl rfl above rests
      aligned.inside within operands clear dead (fun _ _ => id) aligned.regions aligned.opens
  · have woken := still.wake wakes.unused
    refine aligned.proceed woken.toProceeds (fun _ _ => woken.edges) aligned.built rfl rfl rfl above rests
      wakes.inside within operands clear dead wakes.frames (fun q member => ?_) aligned.opens
    have prepared := aligned.regions q member
    refine ⟨prepared.count, prepared.distinct, prepared.made, fun present place => ?_, prepared.known,
      prepared.derived, prepared.entry⟩
    refine (prepared.nodes present place).move woken.toProceeds formed formed (fun _ => rfl)
      fun undeclared same => ?_
    have some_ := wakes.regions q member present (place.trans (congrArg some same))
    simp [undeclared] at some_

theorem Aligned.stepTo (aligned : Aligned context strict f written extra s) (wakes : Wakes s c)
    (within : f.Within c s.current) :
    Aligned context strict f written extra { s with current := c } :=
  aligned.resume (.inr wakes) aligned.above (fun frame member => by
      obtain ⟨e, entered⟩ := aligned.frames frame member
      exact ⟨entered.reach, rfl⟩)
    (fun frame member e made => within.trans (aligned.within frame member e made))
    (fun operand member => (aligned.operands operand member).within within) aligned.clear
    fun polymorphic => within.dead (aligned.dead polymorphic)

theorem Aligned.added {x : Shape} {p : Option BlockId} {extra' : List BlockId}
    (aligned : Aligned context strict f written extra s)
    (built : b.Built context strict (f.push p) written []) (added : s.builder.Added x b)
    (from_ : ∀ pred ∈ x.predecessors, pred.block = s.current ∨ s.builder.Used pred.block)
    (opens : b.UnsealedAre (extra' ++ s.opens)) :
    Aligned context strict (f.push p) written extra' { s with builder := b } ∧
      Wakes { s with builder := b } s.builder.blocks.size := by
  have formed := aligned.built.sound.formed
  have grows := Forest.grows_push f p
  have none_ {c : BlockId} (place : c < s.builder.blocks.size) : b.shape c = s.builder.shape c := by
    rw [added.shape, if_neg (Nat.ne_of_lt place)]
  refine ⟨aligned.move (added.advances from_ (.inl rfl)) built rfl rfl rfl rfl (.refl aligned.above)
    (added.count ▸ Nat.lt_succ_of_lt aligned.inside) (fun frame member e made =>
      (aligned.within frame member e made).grow grows) (fun operand member =>
      (aligned.operands operand member).grow added.later added.size formed built.sound.formed grows)
    aligned.clear (fun polymorphic => (aligned.dead polymorphic).grow grows) (fun r region d waits => ?_)
    opens, ⟨added.count ▸ Nat.lt_succ_self _, ?_, fun frame member => ?_,
      fun r member {i node} present place => ?_⟩⟩
  · have open_ : d ∈ extra ++ s.opens := by
      rw [State.opens]
      exact List.mem_append_right _ (List.mem_append_right _ (List.mem_flatMap.mpr ⟨r, region, waits⟩))
    obtain ⟨_, present, _⟩ := aligned.opens.present open_
    exact none_ (Ssa.Builder.lt_of_shape present)
  · refine unused_added aligned.built added fun pred member => ?_
    rcases from_ pred member with same | used
    · exact same ▸ aligned.inside
    · exact used_lt aligned.built used
  · exact Nat.ne_of_lt (aligned.target_lt member)
  · obtain ⟨_, _, blocks⟩ := (aligned.regions r member).made
    have made := blocks _ (Array.mem_of_getElem? place)
    have below := (Array.getElem?_eq_some_iff.mp made).1
    exact absurd (aligned.built.rooted.size ▸ below) (Nat.lt_irrefl _)

theorem Aligned.fork {x : Shape} {p : Option BlockId}
    (aligned : Aligned context strict f written extra s)
    (built : b.Built context strict (f.push p) written []) (added : s.builder.Added x b)
    (isSealed : x.isSealed = true) (behind : ∀ pred ∈ x.predecessors, pred.block = s.current)
    (within : Forest.Within (f.push p) s.builder.blocks.size s.current) :
    Aligned context strict (f.push p) written extra
      { s with builder := b, current := s.builder.blocks.size } ∧ ¬ b.Used s.builder.blocks.size := by
  obtain ⟨aligned', wakes⟩ := aligned.added built added (fun pred member => .inl (behind pred member))
    (aligned.opens.closed added isSealed)
  exact ⟨aligned'.stepTo wakes within, wakes.unused⟩

structure Forks (context : Context) (strict : Bool) (f : Forest) (written : BlockId → Nat → Prop)
    (extra : List BlockId) (s t : State) : Prop where
  same : t = { s with builder := t.builder, current := s.builder.blocks.size }
  added : s.builder.Added ⟨.body, true, #[⟨s.current, []⟩], none⟩ t.builder
  aligned : Aligned context strict (f.push (some s.current)) written extra t
  unused : ¬ t.builder.Used t.current

theorem fallThrough_aligned (aligned : Aligned context strict f written extra s) :
    Ends fallThrough s (fun _ t => Forks context strict f written extra s t) Refused := by
  rw [fallThrough, ends_bind, ends_get]
  refine ends_followBlock <| (Ssa.Builder.follower_built aligned.built aligned.inside).imp ?_
  rintro _ b ⟨rfl, built, added⟩
  obtain ⟨aligned', unused⟩ := aligned.fork built added rfl (by simp)
    (Forest.within_of_made (aligned.built.rooted.made_push _))
  exact ⟨rfl, added, aligned', unused⟩

theorem Forks.advances (forks : Forks context strict f written extra s t) :
    s.builder.Advances f s.current t.builder (f.push (some s.current)) t.current fun _ => False :=
  forks.added.advances (fun pred member => .inl (by rw [Array.mem_singleton.mp member]))
    (.inr (by rw [forks.same]))

theorem Forks.within (forks : Forks context strict f written extra s t)
    (rooted : s.builder.Rooted f written) :
    Forest.Within (f.push (some s.current)) t.current s.current := by
  rw [forks.same]
  exact Forest.within_of_made (rooted.made_push _)

theorem Forks.used (forks : Forks context strict f written extra s t) : t.builder.Used s.current :=
  Ssa.Builder.used_iff_shape.mpr ⟨s.builder.blocks.size, _,
    by rw [forks.added.shape, if_pos rfl], ⟨s.current, []⟩, Array.mem_singleton.mpr rfl, rfl⟩

/-- Between instructions the block at hand is left on no edge, until the function ends. -/
structure Between (context : Context) (strict : Bool) (t : State) : Prop where
  aligned : ∃ f written, Aligned context strict f written [] t
  unused : t.frames ≠ [] → ¬ t.builder.Used t.current

structure Onward (context : Context) (strict : Bool) (f : Forest) (written : BlockId → Nat → Prop)
    (s t : State) : Prop where
  aligned : ∃ g, f.Grows g ∧ Aligned context strict g written [] t
  unused : t.frames ≠ [] → ¬ t.builder.Used t.current
  grows : s.builder.Grows t.builder

theorem Onward.after (onward : Onward context strict g written u t) (grows : f.Grows g)
    (before : s.builder.Grows u.builder) : Onward context strict f written s t where
  aligned := by
    obtain ⟨h, grows', aligned⟩ := onward.aligned
    exact ⟨h, grows.trans grows', aligned⟩
  unused := onward.unused
  grows := before.trans onward.grows

theorem Stays.onward (stays : Stays context strict f written [] s t)
    (unused : s.frames ≠ [] → ¬ s.builder.Used s.current) : Onward context strict f written s t where
  aligned := ⟨f, .refl f, stays.aligned⟩
  unused isOpen := by
    have current : t.current = s.current := by rw [stays.same]
    have control : t.control = s.control := by rw [stays.same]
    rw [current, stays.aside.used]
    exact unused (by rwa [State.frames, control] at isOpen)
  grows := stays.aside.grows

end WasmFunclets.Validation
