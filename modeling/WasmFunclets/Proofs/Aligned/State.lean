import WasmFunclets.Proofs.Accounts
import WasmFunclets.Proofs.Layers
import WasmFunclets.Proofs.Ssa.Advance

/-! How the frames, the regions and the operands of a validation agree with the blocks and values of
the function under construction. -/

namespace WasmFunclets

open Ssa (Forest Predecessor)

def waitingOf : List Bool → List BlockId → List BlockId
  | false :: sealed, block :: blocks => block :: waitingOf sealed blocks
  | true :: sealed, _ :: blocks => waitingOf sealed blocks
  | _, _ => []

def OpenRegion.waiting (r : OpenRegion) : List BlockId :=
  waitingOf (r.graph.nodes.toList.map FuncletNode.sealed) r.blocks.toList

theorem mem_waitingOf {sealed : List Bool} {blocks : List BlockId} {c : BlockId} :
    c ∈ waitingOf sealed blocks ↔ ∃ i : Nat, sealed[i]? = some false ∧ blocks[i]? = some c := by
  induction sealed generalizing blocks with
  | nil => simp [waitingOf]
  | cons head sealed ih =>
      cases blocks with
      | nil => cases head <;> simp [waitingOf]
      | cons block blocks =>
          have split (P : Nat → Prop) : (∃ i, P i) ↔ P 0 ∨ ∃ i, P (i + 1) :=
            ⟨fun ⟨i, holds⟩ => by cases i; exacts [.inl holds, .inr ⟨_, holds⟩],
              fun either => either.elim (fun holds => ⟨0, holds⟩) fun ⟨i, holds⟩ => ⟨i + 1, holds⟩⟩
          rw [split]
          cases head <;> simp [waitingOf, ih, eq_comm]

theorem OpenRegion.mem_waiting {r : OpenRegion} {c : BlockId} :
    c ∈ r.waiting ↔ ∃ (i : Nat) (node : FuncletNode), r.graph.nodes[i]? = some node ∧
      r.blocks[i]? = some c ∧ node.sealed = false := by
  rw [waiting, mem_waitingOf]
  refine exists_congr fun i => ?_
  rw [List.getElem?_map, Array.getElem?_toList, Array.getElem?_toList, Option.map_eq_some_iff]
  constructor
  · rintro ⟨⟨node, present, open_⟩, place⟩
    exact ⟨node, present, place, open_⟩
  · rintro ⟨node, present, place, open_⟩
    exact ⟨⟨node, present, open_⟩, place⟩

structure Arrival where
  args : List ValueType
  polymorphic : Bool

/-- The ways into a funclet: its region enters the first one, and then there are the calls. -/
def arrivals (params : List ValueType) (edges : List CallEdge) (index : Nat) : List Arrival :=
  (if index = 0 then [⟨params, false⟩] else []) ++
    (edges.filter fun edge => edge.target == index).map fun edge => ⟨edge.args, edge.polymorphic⟩

namespace Validation

variable {context : Context} {strict : Bool} {f g : Forest} {written : BlockId → Nat → Prop}
variable {b t : Ssa.Builder} {k : TypedStack} {current next c e : BlockId} {frame : Frame}
variable {woken : BlockId → Prop}

/-- An open frame has an open block that its branches go to, made for the block where the frame was
entered. What lies below the frame was known there. -/
structure Entered (strict : Bool) (f : Forest) (b : Ssa.Builder) (k : TypedStack)
    (current : BlockId) (frame : Frame) (e : BlockId) : Prop where
  made : f[frame.target]? = some (some e)
  within : f.Within current e
  reach : frame.mark.height ≤ k.floor
  below : ∀ operand ∈ k.operands.toList.take frame.mark.height, b.Backs strict f e operand
  clear : strict = true → ∀ operand ∈ (k.operands.toList.take frame.mark.height).drop frame.mark.floor,
    operand.type = .any → frame.mark.polymorphic = true
  dead : frame.mark.polymorphic = true ∨ frame.outerUnreachable = true → f.Dead e
  takes : b.HasArguments frame.target frame.labelTypes
  sleeps : frame.construct ≠ .loop → b.Sleeps current frame.target
  resumes : ∀ condition params, frame.construct = .ifThen condition params → condition = e ∧
    b.Used e ∧ e ≠ current ∧ b.HoldAll strict f e params frame.signature.params ∧
    ∀ x, b.shape frame.target = some x → ∀ pred ∈ x.predecessors, pred.block ≠ e
  known : strict = true → ∀ type ∈ frame.signature.params ++ frame.signature.results, type.isValue = true

def Around (f : Forest) (inner outer : Frame) : Prop :=
  outer.mark.height ≤ inner.mark.floor ∧
    ∀ a e, f[inner.target]? = some (some a) → f[outer.target]? = some (some e) → f.Within a e

theorem Entered.move {k' : TypedStack} (entered : Entered strict f b k current frame e)
    (advances : b.Proceeds f current t g next woken)
    (links : (∀ condition params, frame.construct ≠ .ifThen condition params) ∨
      b.Links current woken t frame.target)
    (rooted : b.Rooted f written) (formed : b.Formed strict) (formed' : t.Formed strict)
    (within : g.Within next e) (floor : frame.mark.height ≤ k'.floor)
    (rests : k'.operands.toList.take frame.mark.height = k.operands.toList.take frame.mark.height)
    (calm : frame.construct ≠ .loop → ¬ woken frame.target) : Entered strict g t k' next frame e := by
  have inside : frame.target < b.blocks.size :=
    rooted.size ▸ (Array.getElem?_eq_some_iff.mp entered.made).1
  refine ⟨advances.grows _ _ entered.made, within, floor, fun operand member => ?_,
    by rw [rests]; exact entered.clear, fun unreachable => (entered.dead unreachable).grow advances.grows,
    advances.hasArguments entered.takes, fun other => advances.sleeps inside (calm other) (entered.sleeps other),
    fun condition params isIf => ?_, entered.known⟩
  · rw [rests] at member
    exact (entered.below operand member).grow advances.later advances.size formed formed'
      advances.grows
  · obtain ⟨same, used, other, holds, fresh⟩ := entered.resumes condition params isIf
    have idle := advances.not_active (Nat.lt_trans (rooted.lt entered.made) inside) used other
    refine ⟨same, advances.later.used used, fun here => idle (here ▸ advances.next),
      holds.grow advances.later advances.size formed formed' advances.grows, fun y shown pred member => ?_⟩
    obtain ⟨x, present⟩ := Ssa.Builder.shape_of_lt inside
    rcases links.resolve_left (fun plain => plain _ _ isIf) present shown pred member with
      active | ⟨old, listed, alike⟩
    · rintro rfl
      exact idle active
    · rw [← alike]
      exact fresh x present old listed

/-- An edge to the block of a funclet is the call it belongs to. Before the funclet has parameters
the edge carries the arguments of the call. -/
structure Arrives (strict : Bool) (f : Forest) (b : Ssa.Builder) (params : Option (List ValueType))
    (arrival : Arrival) (pred : Predecessor) : Prop where
  dead : arrival.polymorphic = true → f.Dead pred.block
  args : params = none → b.HoldAll strict f pred.block pred.args arrival.args

/-- The block of a funclet has an edge for each way into the funclet. It takes the parameters of the
funclet, and is not used before these are known. -/
structure Ready (strict : Bool) (f : Forest) (b : Ssa.Builder) (current : BlockId)
    (ways : List Arrival) (node : FuncletNode) (block : BlockId) : Prop where
  shape : ∃ x, b.shape block = some x ∧ x.isSealed = node.sealed ∧
    (node.params = none → x.args = none) ∧
    List.Forall₂ (Arrives strict f b node.params) ways x.predecessors.toList
  sleeps : node.params = none → node.sealed = false ∧ b.Sleeps current block
  takes : ∀ types, node.params = some types → b.HasArguments block types ∧
    (strict = true → ∀ type ∈ types, type.isValue = true)

/-- The funclets of an open region have their blocks, which are made where the region was entered. -/
structure Prepared (strict : Bool) (f : Forest) (b : Ssa.Builder) (current : BlockId)
    (r : OpenRegion) : Prop where
  count : r.blocks.size = r.graph.size
  distinct : r.blocks.toList.Nodup
  made : ∃ e, f[r.exit]? = some (some e) ∧ ∀ block ∈ r.blocks, f[block]? = some (some e)
  nodes : ∀ {i : Nat} {node : FuncletNode} {block : BlockId}, r.graph.nodes[i]? = some node →
    r.blocks[i]? = some block →
      Ready strict f b current (arrivals r.signature.params r.graph.edges.toList i) node block
  known : strict = true → (∀ type ∈ r.signature.params, type.isValue = true) ∧
    ∀ edge ∈ r.graph.edges, edge.polymorphic = false → ∀ type ∈ edge.args, type.isValue = true
  derived : r.graph.Derived
  entry : ∀ {node : FuncletNode} {types : List ValueType}, r.graph.nodes[0]? = some node →
    node.params = some types → types = r.signature.params

theorem Arrives.grow {params : Option (List ValueType)} {arrival : Arrival} {pred : Predecessor}
    (arrives : Arrives strict f b params arrival pred) (later : b.Later t)
    (size : b.values.size ≤ t.values.size) (formed : b.Formed strict) (formed' : t.Formed strict)
    (grows : f.Grows g) : Arrives strict g t params arrival pred where
  dead unreachable := (arrives.dead unreachable).grow grows
  args undeclared := (arrives.args undeclared).grow later size formed formed' grows

theorem Ready.move {ways : List Arrival} {node : FuncletNode} {block : BlockId}
    (ready : Ready strict f b current ways node block)
    (advances : b.Proceeds f current t g next woken) (formed : b.Formed strict)
    (formed' : t.Formed strict) (still : node.sealed = false → t.shape block = b.shape block)
    (calm : node.params = none → ¬ woken block) : Ready strict g t next ways node block := by
  obtain ⟨x, present, sealed, undeclared, arrive⟩ := ready.shape
  refine ⟨⟨x, ?_, sealed, undeclared, arrive.imp fun arrival pred arrives => arrives.grow
    advances.later advances.size formed formed' advances.grows⟩, fun open_ =>
      (ready.sleeps open_).imp_right (advances.sleeps (Ssa.Builder.lt_of_shape present) (calm open_)),
    fun types known => ⟨advances.hasArguments (ready.takes types known).1, (ready.takes types known).2⟩⟩
  cases isSealed : node.sealed with
  | false => rw [still isSealed, present]
  | true =>
      obtain ⟨y, shown, _, same⟩ := advances.shape present
      rw [shown, same (sealed.trans isSealed)]

theorem Prepared.waits {r : OpenRegion} (prepared : Prepared strict f b current r) {i : Nat}
    {node : FuncletNode} {block : BlockId} (present : r.graph.nodes[i]? = some node)
    (place : r.blocks[i]? = some block) (undeclared : node.params = none) : block ∈ r.waiting :=
  OpenRegion.mem_waiting.mpr
    ⟨i, node, present, place, ((prepared.nodes present place).sleeps undeclared).1⟩

theorem Prepared.move {r : OpenRegion} (prepared : Prepared strict f b current r)
    (advances : b.Proceeds f current t g next woken) (formed : b.Formed strict)
    (formed' : t.Formed strict) (still : ∀ c ∈ r.waiting, t.shape c = b.shape c)
    (calm : ∀ c ∈ r.waiting, ¬ woken c) : Prepared strict g t next r where
  count := prepared.count
  distinct := prepared.distinct
  made := by
    obtain ⟨e, made, blocks⟩ := prepared.made
    exact ⟨e, advances.grows _ _ made, fun block member => advances.grows _ _ (blocks block member)⟩
  nodes present place := (prepared.nodes present place).move advances formed formed'
    (fun open_ => still _ (OpenRegion.mem_waiting.mpr ⟨_, _, present, place, open_⟩))
    fun undeclared => calm _ (prepared.waits present place undeclared)
  known := prepared.known
  derived := prepared.derived
  entry := prepared.entry

/-- A region that is closed was complete in the end, and none of its funclets waits for calls. -/
def Recorded (strict : Bool) (f : Forest) (b : Ssa.Builder) (current : BlockId) (r : Region) : Prop :=
  ∃ q : OpenRegion, OpenRegion.RecordedAs q r ∧ 0 < q.graph.size ∧ q.graph.Complete ∧
    Prepared strict f b current q

theorem waiting_of_complete {q : OpenRegion} (complete : q.graph.Complete) : q.waiting = [] := by
  refine List.eq_nil_iff_forall_not_mem.mpr fun c waits => ?_
  obtain ⟨i, node, present, _, open_⟩ := OpenRegion.mem_waiting.mp waits
  have sealed := (complete.nodes node (Array.mem_of_getElem? present)).2.2
  rw [sealed] at open_
  cases open_

theorem Recorded.move {r : Region} (recorded : Recorded strict f b current r)
    (advances : b.Proceeds f current t g next woken) (formed : b.Formed strict)
    (formed' : t.Formed strict) : Recorded strict g t next r := by
  obtain ⟨q, same, size, complete, prepared⟩ := recorded
  refine ⟨q, same, size, complete, prepared.move advances formed formed' ?_ ?_⟩
  · simp [waiting_of_complete complete]
  · simp [waiting_of_complete complete]

/-- Only a polymorphic stack has operands of unknown type above its floor. -/
def Clear (k : TypedStack) : Prop :=
  ∀ operand ∈ k.operands.toList.drop k.floor, operand.type = .any → k.polymorphic = true

def State.opens (s : State) : List BlockId :=
  s.frames.map Frame.target ++ s.regions.flatMap OpenRegion.waiting

/-- A validation agrees with the function under construction. Between instructions the open blocks
are those of its frames and of the funclets that wait for calls; while an instruction is carried out
there may be some more. -/
structure Aligned (context : Context) (strict : Bool) (f : Forest)
    (written : BlockId → Nat → Prop) (extra : List BlockId) (s : State) : Prop where
  built : s.builder.Built context strict f written []
  inside : s.current < s.builder.blocks.size
  above : s.stack.floor ≤ s.stack.height
  operands : ∀ operand ∈ s.stack.operands.toList, s.builder.Backs strict f s.current operand
  clear : strict = true → Clear s.stack
  dead : s.stack.polymorphic = true → f.Dead s.current
  frames : ∀ frame ∈ s.frames, ∃ e, Entered strict f s.builder s.stack s.current frame e
  nested : s.frames.Pairwise (Around f)
  regions : ∀ r ∈ s.regions, Prepared strict f s.builder s.current r
  closed : ∀ r ∈ s.closed, Recorded strict f s.builder s.current r
  opens : s.builder.UnsealedAre (extra ++ s.opens)
  exit : s.builder.HasArguments s.exit context.signature.results
  ground : ∀ frame, s.control[0]? = some frame → frame.target = s.exit

theorem Around.grow {inner outer : Frame} (around : Around f inner outer) (grows : f.Grows g)
    (entered : ∃ e, f[inner.target]? = some (some e)) (entered' : ∃ e, f[outer.target]? = some (some e)) :
    Around g inner outer := by
  refine ⟨around.1, fun a e made made' => ?_⟩
  obtain ⟨a', before⟩ := entered
  obtain ⟨e', before'⟩ := entered'
  cases (grows _ _ before).symm.trans made
  cases (grows _ _ before').symm.trans made'
  exact (around.2 a e before before').grow grows

section Move

variable {extra extra' : List BlockId} {s u : State} {written' : BlockId → Nat → Prop}

theorem Aligned.target_lt (aligned : Aligned context strict f written extra s)
    (member : frame ∈ s.frames) : frame.target < s.builder.blocks.size := by
  obtain ⟨e, entered⟩ := aligned.frames frame member
  exact aligned.built.rooted.size ▸ (Array.getElem?_eq_some_iff.mp entered.made).1

theorem Aligned.within (aligned : Aligned context strict f written extra s) :
    ∀ frame ∈ s.frames, ∀ e, f[frame.target]? = some (some e) → f.Within s.current e := by
  intro frame member e made
  obtain ⟨e', entered⟩ := aligned.frames frame member
  cases made.symm.trans entered.made
  exact entered.within

theorem Aligned.proceed (aligned : Aligned context strict f written extra s)
    (advances : s.builder.Proceeds f s.current u.builder g u.current woken)
    (links : ∀ frame ∈ s.frames, s.builder.Links s.current woken u.builder frame.target)
    (built : u.builder.Built context strict g written' [])
    (control : u.control = s.control) (closed : u.closed = s.closed)
    (exit : u.exit = s.exit) (above : u.stack.floor ≤ u.stack.height)
    (rests : ∀ frame ∈ s.frames, frame.mark.height ≤ u.stack.floor ∧
      u.stack.operands.toList.take frame.mark.height =
        s.stack.operands.toList.take frame.mark.height)
    (inside : u.current < u.builder.blocks.size)
    (within : ∀ frame ∈ s.frames, ∀ e, f[frame.target]? = some (some e) → g.Within u.current e)
    (operands : ∀ operand ∈ u.stack.operands.toList, u.builder.Backs strict g u.current operand)
    (clear : strict = true → Clear u.stack)
    (dead : u.stack.polymorphic = true → g.Dead u.current)
    (calm : ∀ frame ∈ s.frames, ¬ woken frame.target)
    (regions : ∀ r ∈ u.regions, Prepared strict g u.builder u.current r)
    (opens : u.builder.UnsealedAre (extra' ++ u.opens)) :
    Aligned context strict g written' extra' u := by
  have formed := aligned.built.sound.formed
  have formed' := built.sound.formed
  have frames : u.frames = s.frames := by rw [State.frames, control, State.frames]
  refine ⟨built, inside, above, operands, clear, dead, ?_, ?_, regions, ?_, opens, ?_, ?_⟩
  · rw [frames]
    intro frame member
    obtain ⟨e, entered⟩ := aligned.frames frame member
    refine ⟨e, entered.move advances (.inr (links frame member)) aligned.built.rooted formed formed'
      (within frame member e entered.made) (rests frame member).1 (rests frame member).2
      fun _ => calm frame member⟩
  · rw [frames]
    refine aligned.nested.imp_of_mem fun {inner outer} one two around => ?_
    obtain ⟨a, first⟩ := aligned.frames inner one
    obtain ⟨e, second⟩ := aligned.frames outer two
    exact around.grow advances.grows ⟨a, first.made⟩ ⟨e, second.made⟩
  · rw [closed]
    exact fun r member => (aligned.closed r member).move advances formed formed'
  · rw [exit]
    exact advances.hasArguments aligned.exit
  · rw [control, exit]
    exact aligned.ground

theorem Aligned.carry (aligned : Aligned context strict f written extra s)
    (advances : s.builder.Advances f s.current u.builder g u.current woken)
    (built : u.builder.Built context strict g written' [])
    (control : u.control = s.control) (closed : u.closed = s.closed)
    (exit : u.exit = s.exit) (rests : TypedStack.Rests s.stack u.stack)
    (inside : u.current < u.builder.blocks.size)
    (within : ∀ frame ∈ s.frames, ∀ e, f[frame.target]? = some (some e) → g.Within u.current e)
    (operands : ∀ operand ∈ u.stack.operands.toList, u.builder.Backs strict g u.current operand)
    (clear : strict = true → Clear u.stack)
    (dead : u.stack.polymorphic = true → g.Dead u.current)
    (calm : ∀ frame ∈ s.frames, ¬ woken frame.target)
    (regions : ∀ r ∈ u.regions, Prepared strict g u.builder u.current r)
    (opens : u.builder.UnsealedAre (extra' ++ u.opens)) :
    Aligned context strict g written' extra' u :=
  aligned.proceed advances.toProceeds (fun _ _ => advances.edges) built control closed exit rests.above
    (fun frame member => by
      obtain ⟨e, entered⟩ := aligned.frames frame member
      exact ⟨rests.floor ▸ entered.reach, TypedStack.take_of_take entered.reach rests.below⟩)
    inside within operands clear dead calm regions opens

theorem Aligned.move (aligned : Aligned context strict f written extra s)
    (advances : s.builder.Advances f s.current u.builder g u.current fun _ => False)
    (built : u.builder.Built context strict g written' [])
    (control : u.control = s.control) (regions : u.regions = s.regions) (closed : u.closed = s.closed)
    (exit : u.exit = s.exit) (rests : TypedStack.Rests s.stack u.stack)
    (inside : u.current < u.builder.blocks.size)
    (within : ∀ frame ∈ s.frames, ∀ e, f[frame.target]? = some (some e) → g.Within u.current e)
    (operands : ∀ operand ∈ u.stack.operands.toList, u.builder.Backs strict g u.current operand)
    (clear : strict = true → Clear u.stack)
    (dead : u.stack.polymorphic = true → g.Dead u.current)
    (still : ∀ r ∈ s.regions, ∀ c ∈ r.waiting, u.builder.shape c = s.builder.shape c)
    (opens : u.builder.UnsealedAre (extra' ++ s.opens)) :
    Aligned context strict g written' extra' u := by
  refine aligned.carry advances built control closed exit rests inside within operands clear dead
    (fun _ _ => id) (fun r member => ?_) ?_
  · rw [regions] at member
    exact (aligned.regions r member).move advances.toProceeds aligned.built.sound.formed built.sound.formed
      (still r member) fun _ _ => id
  · rwa [State.opens, State.frames, control, ← State.frames, regions]

theorem Aligned.beside {k : TypedStack} {b : Ssa.Builder}
    (aligned : Aligned context strict f written extra s)
    (built : b.Built context strict f written' []) (apart : s.builder.Apart b)
    (rests : TypedStack.Rests s.stack k) (polymorphic : k.polymorphic = s.stack.polymorphic)
    (operands : ∀ operand ∈ k.operands.toList, operand ∈ s.stack.operands.toList ∨
      b.Backs strict f s.current operand)
    (clear : strict = true → Clear k) :
    Aligned context strict f written' extra { s with stack := k, builder := b } := by
  refine aligned.move apart.advances built rfl rfl rfl rfl rests
    (apart.count.symm ▸ aligned.inside) aligned.within (fun operand member => ?_) clear (fun poly =>
      aligned.dead (polymorphic ▸ poly)) (fun r _ c _ => by rw [apart.shape])
    (aligned.opens.apart apart)
  rcases operands operand member with old | new
  · exact (aligned.operands operand old).grow apart.later apart.size aligned.built.sound.formed
      built.sound.formed (.refl f)
  · exact new

end Move

end Validation

end WasmFunclets
