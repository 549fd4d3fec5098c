import WasmFunclets.Proofs.Meaning.Edges

/-! Where the machine jumps to, the validation has come to a block that it had not been in before: behind a
construct, at the start of a loop or a funclet, and behind a conditional transfer. -/

namespace WasmFunclets

namespace Validation

open Ssa (Forest)

variable {context : Context} {bytes : List UInt8} {code : List Located} {states : Nat → State}
variable {f : Forest} {j k : Nat} {target : BlockId} {frame : Frame}

namespace Story

variable (story : Story context bytes code states f)
include story

theorem takes (inside : k ≤ code.length) (member : frame ∈ (states k).frames) :
    ∃ phis, (states k).builder.argsAt frame.target = some phis ∧ phis.size = frame.labelTypes.length := by
  obtain ⟨_, _, _, _, aligned⟩ := story.linked k inside
  obtain ⟨_, entered⟩ := aligned.frames frame member
  exact entered.takes.given

theorem funclet_takes (inside : k ≤ code.length) {r : OpenRegion} (member : r ∈ (states k).regions) {i : Nat}
    {node : FuncletNode} {params : List ValueType} (present : r.graph.nodes[i]? = some node)
    (known : node.params = some params) (place : r.blocks[i]? = some target) :
    ∃ phis, (states k).builder.argsAt target = some phis ∧ phis.size = params.length := by
  obtain ⟨_, _, _, _, aligned⟩ := story.linked k inside
  exact (((aligned.regions r member).nodes present place).takes params known).1.given

theorem keeps_below (inside : k ≤ code.length) (member : frame ∈ (states k).frames)
    (same : f[target]? = f[frame.target]?) (reachable : (finished code states).Reachable target) :
    ∀ o ∈ (states k).stack.operands.toList.take frame.mark.height, ∀ v, o.value = some v →
      ∃ w, (finished code states).look ((finished code states).representative v) = some w ∧
        w.block ≠ some target := by
  obtain ⟨_, sound, rooted, _⟩ := story.whole
  obtain ⟨a, made, known⟩ := story.below inside member
  rw [← same] at made
  intro o listed v value
  exact sound.made_above rooted reachable (.step made (.refl a)) (Nat.ne_of_lt (rooted.lt made))
    (known o listed v value)

end Story

end Validation

namespace Machine

open Validation Attempt
open Ssa (Forest Point)

variable {V : Type} {context : Context} {bytes : List UInt8} {code : List Located} {states : Nat → State}
variable {f : Forest} {b : Ssa.Builder} {j k n h e : Nat} {s t u : State} {c d : Config V} {x y : Point V}
variable {p : Program V} {ids : List ValueId} {v : ValueId} {target : BlockId} {types : List ValueType}
variable {l : Layer} {outer : List Layer}

theorem lands_of_heads (heads : Heads s (states k) target h types) (within : k < code.length)
    (unseen : Unseen states k target)
    (takes : ∃ phis, (states k).builder.argsAt target = some phis ∧ phis.size = types.length)
    (keeps : ∀ o ∈ s.stack.operands.toList.take h, ∀ v, o.value = some v →
      ∃ w, (finished code states).look ((finished code states).representative v) = some w ∧
        w.block ≠ some target) :
    Landing code states k target (s.stack.operands.toList.take h) types := by
  obtain ⟨l, present, operands⟩ := heads.operands
  obtain ⟨phis, given, size⟩ := takes
  have args : l.args = some phis := by rwa [Ssa.Builder.argsAt, present] at given
  refine ⟨within, heads.current, unseen, ⟨phis, size, .inr given, ?_⟩, keeps⟩
  rw [operands, Ssa.Builder.argsOf, Ssa.Block.argIds, args]
  rfl

theorem lands_of_follower (story : Story context bytes code states f) (within : k < code.length)
    {source : BlockId} (made : follower source b = .ok target (states k).builder)
    (current : (states k).current = target) (unseen : Unseen states k target)
    (reachable : (finished code states).Reachable source)
    (known : ∀ o ∈ (states k).stack.operands.toList, ∀ v, o.value = some v →
      (finished code states).Reaches f source v) :
    EdgeCarries (finished code states) source target [] ∧
      Landing code states k target (states k).stack.operands.toList [] := by
  obtain ⟨passes, keeps⟩ := edgeCarries_of_follower story (Nat.le_of_lt within) made
  refine ⟨passes, within, current, unseen, ⟨#[], rfl, .inl rfl, (List.append_nil _).symm⟩,
    fun o member v value => keeps ?_ v (known o member v value)⟩
  exact EdgeCarries.reachable (x := ⟨source, 0, fun _ => (none : Option Unit), []⟩) passes reachable

theorem mem_frames_of_layers {s : State} (member : l ∈ s.layers) : l.frame ∈ s.frames := by
  rw [← State.map_frame_layers]
  exact List.mem_map_of_mem member

variable (described : Described p ⟨context, true⟩ states) (story : Story context bytes p.code states f)
include described story

theorem Mid.lands_behind (mid : Mid p states c) (found : (states c.pc).layers.drop e = l :: outer)
    (inner : outer ≠ []) (notLoop : l.frame.construct ≠ .loop)
    (reachable : (finished p.code states).Reachable l.frame.target) :
    Landing p.code states (p.behind c.pc outer.length) l.frame.target
      ((states c.pc).stack.operands.toList.take l.frame.mark.height) l.frame.signature.results := by
  have length := length_of_drop found
  have here := Nat.le_of_lt mid.inside
  have some_ : 0 < outer.length := List.length_pos_of_ne_nil inner
  obtain ⟨q, le, inside, low, above⟩ := described.course.exists_exit (n := outer.length) here (by omega)
  obtain ⟨l', layers, later, _, _, _, _, heads⟩ :=
    described.course.behind le inside low some_ above (lowest_of_drop found)
  have member : l.frame ∈ (states c.pc).frames := mem_frames_of_layers
    (List.mem_of_mem_drop (i := e) (found ▸ List.mem_cons_self))
  rw [described.behind_eq le inside low above]
  have isOpen : (states (q + 1)).layers ≠ [] := by
    intro empty
    rw [empty, List.length_nil] at low
    omega
  refine lands_of_heads (heads notLoop) (described.inside_of_layers inside isOpen) ?_ ?_
    (story.keeps_below here member rfl reachable)
  · refine story.unseen_of_goesOnIn (Nat.le_of_lt inside) (layers ▸ List.mem_cons_self) (.inl ⟨?_, ?_⟩)
    · exact fun isLoop => notLoop (later.loop.mp isLoop)
    · rw [later.frame]
  · obtain ⟨phis, given, size⟩ := story.takes here member
    refine ⟨phis, (story.lasts (Nat.le_succ_of_le le) inside).given given, ?_⟩
    rw [size, Frame.labelTypes_eq notLoop]

theorem Mid.lands_back (mid : Mid p states c) (found : (states c.pc).layers.drop e = l :: outer)
    {start : Nat} (opened : Course.OpenSince states start outer.length c.pc)
    (isLoop : l.frame.construct = .loop) (reachable : (finished p.code states).Reachable l.frame.target) :
    Landing p.code states start l.frame.target
      ((states c.pc).stack.operands.toList.take l.frame.mark.height) l.frame.signature.params := by
  have here := Nat.le_of_lt mid.inside
  obtain ⟨first, layers, size, tops, finite, _, loop, _, fresh, _⟩ := described.course.started opened here
  have sizes : (states start).layers.length = outer.length + 1 := by
    rw [layers, List.length_cons, size]
  have le := opened.le
  have later := described.course.stable le here (n := outer.length + 1) opened.above
  rw [lowest_of_drop found, ← sizes, lowest_length, layers] at later
  cases later with
  | cons later _ =>
      have frame := later.frame
      have mark : first.frame.mark = l.frame.mark := by rw [frame]
      have target : first.frame.target = l.frame.target := by rw [frame]
      have signature : first.frame.signature = l.frame.signature := by rw [frame]
      have operands := described.course.operands le here (n := outer.length + 1) opened.above
        (by rw [← sizes, lowest_length, layers])
      have member : l.frame ∈ (states c.pc).frames := mem_frames_of_layers
        (List.mem_of_mem_drop (i := e) (found ▸ List.mem_cons_self))
      have heads := (loop (later.loop.mp isLoop)).of_take (tops.take.symm.trans operands.symm)
      have atStart : first.frame ∈ (states start).frames := mem_frames_of_layers
        (layers ▸ List.mem_cons_self)
      have within : start < p.code.length := Nat.lt_of_le_of_lt le mid.inside
      rw [mark, target, signature] at heads
      refine lands_of_heads heads within ?_ ?_ (story.keeps_below here member rfl reachable)
      · have unseen := story.unseen_of_fresh (Nat.le_trans (Nat.sub_le start 1) (Nat.le_of_lt within))
          (target ▸ fresh)
        rwa [Nat.sub_add_cancel opened.pos] at unseen
      · obtain ⟨phis, given, size⟩ := story.takes (Nat.le_of_lt within) atStart
        rw [Frame.labelTypes, if_pos (later.loop.mp isLoop), signature] at size
        exact ⟨phis, target ▸ given, size⟩

omit described story in
theorem FuncletPlace.funclet {r : OpenRegion} {index start k : Nat} {params : List ValueType}
    (entrance : FuncletPlace p states k l r n index start j params) (region : l.region = some r) :
    ∃ frame q around node, (states j).layers = ⟨frame, some q⟩ :: around ∧
      frame.mark.height = l.frame.mark.height ∧ q.blocks = r.blocks ∧ q.graph.nodes[index]? = some node ∧
      node.params = some params := by
  obtain ⟨frame, q, around, layers, _, _, ⟨node, present, known⟩, _⟩ := entrance.at_.layers
  have alike := entrance.alike _ _ layers
  have blocks := alike.blocks
  rw [region] at blocks
  exact ⟨frame, q, around, node, layers, congrArg Mark.height alike.mark, Option.some.inj blocks, present, known⟩

omit described in
theorem FuncletPlace.takes {r : OpenRegion} {index start k : Nat} {params : List ValueType}
    (entrance : FuncletPlace p states k l r n index start j params) (region : l.region = some r)
    (place : r.blocks[index]? = some target) :
    ∃ phis, (states j).builder.argsAt target = some phis ∧ phis.size = params.length := by
  obtain ⟨frame, q, around, node, layers, _, blocks, present, known⟩ := entrance.funclet region
  exact story.funclet_takes (Nat.le_of_lt entrance.inside)
    (mem_regions_of_layersOf (l := ⟨frame, some q⟩) (layers ▸ List.mem_cons_self) rfl) present known
    (blocks ▸ place)

theorem FuncletPlace.lands {r : OpenRegion} {index start : Nat} {params : List ValueType}
    (entrance : FuncletPlace p states c.pc l r outer.length index start j params) (mid : Mid p states c)
    (found : (states c.pc).layers.drop e = l :: outer)
    (opened : Course.OpenSince states start outer.length c.pc) (region : l.region = some r)
    (place : r.blocks[index]? = some target) (reachable : (finished p.code states).Reachable target) :
    Landing p.code states j target ((states c.pc).stack.operands.toList.take l.frame.mark.height) params := by
  have here := Nat.le_of_lt mid.inside
  have within := entrance.inside
  have nested := Nested.drop (mid.framed described).nested found
  have member : l ∈ (states c.pc).layers := List.mem_of_mem_drop (i := e) (found ▸ List.mem_cons_self)
  obtain ⟨frame, r', around, node, layers, mark, blocks, present, known⟩ := entrance.funclet region
  obtain ⟨block, place', heads⟩ := entrance.at_.heads _ _ _ layers rfl
  obtain rfl : target = block := Option.some.inj (place.symm.trans (blocks ▸ place'))
  have heads : Heads (states j) (states j) target l.frame.mark.height params := mark ▸ heads
  refine lands_of_heads (heads.of_take entrance.below) within ?_ (entrance.takes story region place)
    (story.keeps_below here (mem_frames_of_layers member) ?_ reachable)
  · have le := opened.le
    rcases Nat.eq_or_lt_of_le entrance.from_ with rfl | after
    · -- The first funclet starts with its region.
      obtain ⟨first, layers', _, _, _, _, _, _, _, fresh⟩ :=
        described.course.started (opened.move fun m from_ upto => entrance.above m from_ upto)
          (Nat.le_of_lt within)
      obtain ⟨rfl, _⟩ := List.cons.inj (layers.symm.trans layers')
      have unseen := story.unseen_of_fresh (Nat.le_trans (Nat.sub_le start 1) (Nat.le_of_lt within))
        (fresh r' rfl target (Array.mem_of_getElem? place'))
      rwa [Nat.sub_add_cancel opened.pos] at unseen
    · -- Before any other one, the funclet at hand was an earlier one.
      obtain ⟨before, rfl⟩ : ∃ before, j = before + 1 := ⟨j - 1, by omega⟩
      have still (m : Nat) (from_ : start ≤ m) (upto : m ≤ before + 1) :
          outer.length < (states m).layers.length := by
        by_cases early : m ≤ c.pc
        · exact opened.above m from_ early
        · exact entrance.above m (by omega) (by omega)
      have early : before < p.code.length := Nat.lt_of_succ_lt within
      have same := described.course.stable (Nat.le_succ before) (Nat.le_of_lt within)
        (n := outer.length + 1) fun m from_ upto => still m (by omega) upto
      have whole : lowest (outer.length + 1) (states (before + 1)).layers = ⟨frame, some r'⟩ :: around := by
        rw [← entrance.size, lowest_length, layers]
      rw [whole] at same
      generalize split : lowest (outer.length + 1) (states before).layers = earlier at same
      cases same with
      | @cons m _ rest _ later _ =>
          obtain ⟨q, opened', grown⟩ := rel_some later.region
          have at_ : Course.regionAtLevel (states before) outer.length = some q := by
            rw [Course.regionAtLevel, split, List.head?_cons, Option.bind_some, opened']
          have behind := entrance.first before (Nat.le_of_lt_succ after) (Nat.lt_succ_self before) q at_
          have listed : m ∈ (states before).layers :=
            List.mem_of_mem_drop (i := (states before).layers.length - (outer.length + 1))
              (show m ∈ lowest _ _ from split ▸ List.mem_cons_self)
          have settled : q.graph.Settled := (described.course.framed early).settled q
            (mem_regions_of_layersOf listed opened')
          have smaller : index < q.graph.nodes.size := by
            have inside := (Array.getElem?_eq_some_iff.mp present).1
            have same := grown.keeps.size_eq
            exact Nat.lt_of_lt_of_eq inside same
          have node := Array.getElem?_eq_getElem smaller
          refine story.unseen_of_goesOnIn (Nat.le_of_lt early) listed (.inr ⟨q, index, _, opened', node,
            undeclared_of_ahead settled behind node, ?_⟩)
          rw [grown.same] at place'
          exact place'
  · rw [story.funclets here (mem_regions_of_layersOf member region) target (Array.mem_of_getElem? place),
      nested.exit_eq region]

end Machine

end WasmFunclets
