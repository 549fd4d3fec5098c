import WasmFunclets.Proofs.Meaning.Landings

/-! Where the machine transfers control, the function follows an edge. -/

namespace WasmFunclets

namespace Validation

open Ssa (Forest)

variable {context : Context} {bytes : List UInt8} {code : List Located} {states : Nat → State}
variable {f : Forest} {k : Nat}

theorem Story.exit_eq (story : Story context bytes code states f) (inside : k ≤ code.length) :
    (states k).exit = (states code.length).exit :=
  (story.toCourse.exit inside).trans (story.toCourse.exit (Nat.le_refl _)).symm

theorem Story.target_eq_exit (story : Story context bytes code states f) (inside : k ≤ code.length) {e : Nat}
    {l : Layer} (found : (states k).layers.drop e = [l]) : l.frame.target = (states code.length).exit := by
  obtain ⟨_, _, _, _, aligned⟩ := story.linked k inside
  rw [← story.exit_eq inside]
  refine aligned.ground l.frame ?_
  have frames : (states k).frames.drop e = [l.frame] := by
    rw [← State.map_frame_layers, ← List.map_drop, found, List.map_singleton]
  have last : (states k).frames.getLast? = some l.frame := by
    rw [← List.take_append_drop e (states k).frames, frames, List.getLast?_append]
    rfl
  rwa [State.frames, List.getLast?_reverse, List.head?_eq_getElem?, Array.getElem?_toList] at last

end Validation

namespace Machine

open Validation Attempt
open Ssa (Forest Point)

variable {V : Type} {context : Context} {bytes : List UInt8} {states : Nat → State} {f : Forest}
variable {k n e : Nat} {s t u : State} {c d d' : Config V} {x y : Point V} {p : Program V}
variable {ids : List ValueId} {v : ValueId} {target : BlockId} {types : List ValueType}
variable {l : Layer} {outer : List Layer} {args : List (Typed V)}

/-- The function is at the exit, and has there what the machine returns. -/
structure Returns (b : Ssa.Builder) (exit : BlockId) (results : List (Typed V)) (history : List (Event V))
    (y : Point V) : Prop where
  block : y.block = exit
  history : y.history = history
  results : ∃ values, Ssa.Builder.args exit b = .ok values b ∧
    List.Forall₂ (fun a v => y.read b v = some a.datum) results values

def Answers (p : Program V) (states : Nat → State) (f : Forest) (x : Point V) :
    Except Flaw (Outcome V) → Prop
  | .ok (.running d) => ∃ y, x.GoesTo (finished p.code states) p.meaning y ∧ Meets p.code states f d y
  | .ok (.returned results history) => ∃ y, x.GoesTo (finished p.code states) p.meaning y ∧
      Returns (finished p.code states) (states p.code.length).exit results history y
  | .ok (.trapped history) => ∃ y, x.Performs (finished p.code states) p.meaning y ∧ y.history = history
  | .error _ => True

theorem Answers.after {result : Except Flaw (Outcome V)} (answers : Answers p states f y result)
    (first : x.Performs (finished p.code states) p.meaning y) : Answers p states f x result := by
  match result, answers with
  | .ok (.running d), ⟨z, moves, meets⟩ => exact ⟨z, first.goesTo moves, meets⟩
  | .ok (.returned results history), ⟨z, moves, returns⟩ =>
      exact ⟨z, first.goesTo moves, returns⟩
  | .ok (.trapped history), ⟨z, performs, same⟩ => exact ⟨z, first.trans performs, same⟩
  | .error _, _ => trivial

theorem Shows.mid (shows : Shows p.code states f c.pc s d x) (live : Live p states c) (beside : Beside c d) :
    Mid p states d := live.mid_of beside shows.agrees shows.rests

theorem Shows.below (shows : Shows p.code states f k s d x) {h : Nat} (reach : h ≤ (states k).stack.floor) :
    List.Forall₂ (fun a o => ∃ v, o.value = some v ∧ x.read (finished p.code states) v = some a.datum)
      (d.stack.take h) ((states k).stack.operands.toList.take h) := by
  rw [← TypedStack.take_of_take reach shows.rests.below]
  exact reads_of_matches (List.forall₂_take h shows.stack)

variable (story : Story context bytes p.code states f)
include story

theorem Leaving.return (leaving : Leaving p.code states d x)
    (passes : EdgeCarries (finished p.code states) x.block (states p.code.length).exit ids)
    (above : List.Forall₂ (fun a v => x.read (finished p.code states) v = some a.datum) args ids) :
    Answers p states f x (.ok (.returned args d.history)) := by
  obtain ⟨_, sound, rooted, _⟩ := story.whole
  obtain ⟨_, _, aligned⟩ := story.last
  obtain ⟨phis, given, _⟩ := aligned.exit.given
  have reachable := passes.reachable leaving.reachable
  obtain ⟨l, edge, present, place, follows⟩ := leaving.follow story passes
  have declared : l.args = some phis := by
    have given : (finished p.code states).argsAt (states p.code.length).exit = some phis := given
    rwa [Ssa.Builder.argsAt, present] at given
  have size : ids.length = phis.size := sound.ledger.carried (Ssa.Builder.outline_of_block present) declared
    (Array.getElem?_eq_some_iff.mp place).1 place
  refine ⟨_, .across (.refl x) follows, rfl, leaving.history, _, args_ok.mpr ⟨l, present, rfl, rfl⟩, ?_⟩
  rw [Ssa.Builder.argsOf, Ssa.Block.argIds, declared, Option.getD_some, List.forall₂_map_right_iff]
  refine List.forall₂_iff_get.mpr ⟨above.length_eq.trans (size.trans Array.length_toList.symm), fun j one two => ?_⟩
  have read := (List.forall₂_iff_get.mp above).2 j one (above.length_eq ▸ one)
  have listed : phis[j]? = some (phis.toList.get ⟨j, two⟩) := by
    rw [← Array.getElem?_toList, List.getElem?_eq_getElem two, List.get_eq_getElem]
  rw [← read]
  change x.carried _ _ _ _ = _
  rw [(story.lasts (Nat.le_refl _) (Nat.le_refl _)).representative]
  exact sound.carried_argument rooted reachable present declared place listed
    (List.getElem?_eq_getElem (above.length_eq ▸ one))

theorem Leaving.run (leaving : Leaving p.code states d x) (live : Live p states d')
    {kept : List Operand} {front : List (Typed V)} (landing : Landing p.code states d'.pc target kept types)
    (passes : EdgeCarries (finished p.code states) x.block target ids)
    (below : List.Forall₂ (fun a o => ∃ v, o.value = some v ∧
      x.read (finished p.code states) v = some a.datum) front kept)
    (above : List.Forall₂ (fun a v => x.read (finished p.code states) v = some a.datum) args ids)
    (size : args.length = types.length) (stack : d'.stack = front ++ args) (locals : d'.locals = d.locals)
    (history : d'.history = d.history) : Answers p states f x (.ok (.running d')) := by
  obtain ⟨y, edge, follows, meets⟩ := leaving.cross story landing passes below above
    (above.length_eq ▸ size) rfl stack locals history live.agrees
  exact ⟨y, .across (.refl x) follows, meets⟩

theorem Leaving.follows (leaving : Leaving p.code states d x) {b : Ssa.Builder}
    (made : follower x.block b = .ok target (states (k + 1)).builder)
    (current : (states (k + 1)).current = target)
    (size : (states k).builder.blocks.size ≤ b.blocks.size)
    (stack : List.Forall₂ (Matches (finished p.code states) f n x) d'.stack
      (states (k + 1)).stack.operands.toList) (pc : d'.pc = k + 1) (locals : d'.locals = d.locals)
    (history : d'.history = d.history) (live : Live p states d') :
    Answers p states f x (.ok (.running d')) := by
  have within : k + 1 < p.code.length := pc ▸ live.inside
  have unseen : Unseen states (k + 1) target :=
    story.unseen_of_fresh (Nat.le_of_lt (Nat.lt_of_succ_lt within))
      ((Ssa.Builder.follower_ok made).1 ▸ size)
  obtain ⟨passes, landing⟩ := lands_of_follower story within made current unseen leaving.reachable
    fun o member v value => by
      obtain ⟨a, _, v', value', bears⟩ := exists_of_forall₂ stack o member
      cases value.symm.trans value'
      exact bears.older.reaches
  have landing : Landing p.code states d'.pc target (states (k + 1)).stack.operands.toList [] :=
    pc.symm ▸ landing
  exact leaving.run story live landing passes (reads_of_matches stack) .nil rfl (List.append_nil _).symm
    locals history

theorem Leaving.falls (leaving : Leaving p.code states d x) (shows : Shows p.code states f k s d x)
    (falls : fallThrough s = .ok () (states (k + 1))) (live : Live p states d.next) :
    Answers p states f x (.ok (.running d.next)) := by
  obtain ⟨block, b, followed, later⟩ := followBlock_ok.mp (fallThrough_ok.mp falls)
  have here : s.current = x.block := shows.current.trans shows.block.symm
  have stack : s.stack = (states (k + 1)).stack := by rw [← later]
  have made : follower x.block s.builder = .ok block (states (k + 1)).builder := by rw [← here, followed, ← later]
  have current : (states (k + 1)).current = block := by rw [← later]
  exact leaving.follows story made current shows.lasts.blocks (stack ▸ shows.stack)
    (congrArg (· + 1) shows.pc) rfl rfl live

variable (described : Described p ⟨context, true⟩ states)
include described

/-- A branch follows the edge that the validation supplies for its label. -/
theorem Leaving.branch (leaving : Leaving p.code states d x) (shows : Shows p.code states f d.pc s d x)
    (mid : Mid p states d) {depth : Nat} {frame : Frame} (found : (states d.pc).frame? depth = some frame)
    (taking : d.take frame.labelTypes = .ok (args, d'))
    (passes : EdgeCarries (finished p.code states) x.block frame.target ids)
    (above : List.Forall₂ (fun a v => x.read (finished p.code states) v = some a.datum) args ids)
    (sound : LiveOrEnded p states (p.branch depth d)) : Answers p states f x (p.branch depth d) := by
  obtain ⟨l, outer, layers, rfl⟩ := layer_of_frame found
  obtain ⟨label, labels, head⟩ := mid.labelled.label layers
  have present : d.labels[depth]? = some label := by
    rw [← List.head?_drop, labels, List.head?_cons]
  have nested := Nested.drop (mid.framed described).nested layers
  have types := head.types nested
  obtain ⟨rfl, split, typed, low⟩ := take_ok taking
  have reach := mid.height_le described layers
  have reachable := passes.reachable leaving.reachable
  have stack : (d.without l.frame.labelTypes.length).stack.take l.frame.mark.height =
      d.stack.take l.frame.mark.height := by
    conv_rhs => rw [split, List.take_append_of_le_length (Nat.le_trans reach low)]
  have below := shows.below (mid.floor ▸ reach)
  have count : args.length = l.frame.labelTypes.length := by rw [← typed, List.length_map]
  have size : outer.length = (d.labels.drop (depth + 1)).length := by
    have lengths := (mid.labelled.drop depth).length
    rw [layers, labels, List.length_cons, List.length_cons] at lengths
    omega
  rw [Program.branch, present] at sound ⊢
  dsimp only at sound ⊢
  rw [types, taking] at sound ⊢
  change LiveOrEnded p states (if d.labels.drop (depth + 1) = [] then _ else _) at sound
  change Answers p states f x (if d.labels.drop (depth + 1) = [] then _ else _)
  -- A branch to the outermost label returns from the function.
  by_cases last : d.labels.drop (depth + 1) = []
  · rw [if_pos last]
    have alone : outer = [] := List.eq_nil_of_length_eq_zero (by rw [size, last, List.length_nil])
    have exit := story.target_eq_exit (Nat.le_of_lt mid.inside) (alone ▸ layers)
    change Answers p states f x (.ok (.returned args d.history))
    exact leaving.return story (exit ▸ passes) above
  · rw [if_neg last] at sound ⊢
    have inner : outer ≠ [] := by
      rintro rfl
      exact last (List.eq_nil_of_length_eq_zero size.symm)
    have target := head.target
    -- All other labels but those of loops go on behind their construct.
    have behind (notLoop : l.frame.construct ≠ .loop)
        (sound : Live p states
          { d with
            pc := p.behind d.pc (d.labels.drop (depth + 1)).length
            stack := (d.without l.frame.labelTypes.length).stack.take label.height ++ args
            labels := d.labels.drop (depth + 1) }) :
        Answers p states f x (.ok (.running
          { d with
            pc := p.behind d.pc (d.labels.drop (depth + 1)).length
            stack := (d.without l.frame.labelTypes.length).stack.take label.height ++ args
            labels := d.labels.drop (depth + 1) })) := by
      have landing := mid.lands_behind described story layers inner notLoop reachable
      rw [size] at landing
      refine leaving.run story sound landing passes below above ?_ ?_ rfl rfl
      · rw [count, Frame.labelTypes, if_neg notLoop]
      · rw [head.height, stack]
    cases shape : label.target with
    | again start =>
        rw [shape] at target
        simp only [shape] at sound ⊢
        change Live p states _ at sound
        have landing := mid.lands_back described story layers target.2 target.1 reachable
        refine leaving.run story sound landing passes below above ?_ ?_ rfl rfl
        · rw [count, Frame.labelTypes, if_pos target.1]
        · rw [head.height, stack]
    | behind =>
        rw [shape] at target
        simp only [shape] at sound ⊢
        exact behind target.1 sound
    | funclets start offset =>
        have isRegion := head.isRegion nested shape
        simp only [shape] at sound ⊢
        refine behind (fun isLoop => ?_) sound
        cases isLoop.symm.trans isRegion

/-- Where a construct that is no loop ends, the function follows the edge to the block behind it. -/
theorem Leaving.leave (leaving : Leaving p.code states d x) (mid : Mid p states d)
    (layers : (states d.pc).layers = l :: outer) (notLoop : l.frame.construct ≠ .loop)
    (passes : EdgeCarries (finished p.code states) x.block l.frame.target ids)
    (below : List.Forall₂ (fun a o => ∃ v, o.value = some v ∧
      x.read (finished p.code states) v = some a.datum) (d.stack.take l.frame.mark.height)
        ((states d.pc).stack.operands.toList.take l.frame.mark.height))
    (above : List.Forall₂ (fun a v => x.read (finished p.code states) v = some a.datum)
      (d.stack.drop d.floor) ids)
    (typed : (d.stack.drop d.floor).map Typed.type = l.frame.signature.results) :
    Answers p states f x (Program.leave d (p.behind d.pc outer.length)) := by
  have sound := mid.leave described layers typed
  rw [mid.leave_eq layers typed] at sound ⊢
  by_cases last : outer = []
  · rw [if_pos last]
    have exit := story.target_eq_exit (e := 0) (Nat.le_of_lt mid.inside) (last ▸ layers)
    exact leaving.return story (exit ▸ passes) above
  · rw [if_neg last] at sound ⊢
    have landing := mid.lands_behind (e := 0) described story layers last notLoop
      (passes.reachable leaving.reachable)
    refine leaving.run story sound landing passes below above ?_ ?_ rfl rfl
    · rw [← typed, List.length_map]
    · rw [← mid.floor_eq layers, List.take_append_drop]

/-- A call of a funclet follows the edge that the validation supplies for it. -/
theorem Leaving.transfer (leaving : Leaving p.code states d x) (mid : Mid p states d)
    {inner : List Layer} {r : OpenRegion} {index : Nat} {params : List ValueType}
    (layers : (states d.pc).layers = inner ++ l :: outer) (plain : ∀ m ∈ inner, m.region = none)
    (region : l.region = some r) (known : p.params r.offset index = some params)
    (typed : (d.stack.drop l.frame.mark.height).map Typed.type = params) (within : index < r.graph.size)
    (place : r.blocks[index]? = some target)
    (supplies : (finished p.code states).HasSupplied x.block target ids)
    (below : List.Forall₂ (fun a o => ∃ v, o.value = some v ∧
      x.read (finished p.code states) v = some a.datum) (d.stack.take l.frame.mark.height)
        ((states d.pc).stack.operands.toList.take l.frame.mark.height))
    (above : List.Forall₂ (fun a v => x.read (finished p.code states) v = some a.datum)
      (d.stack.drop l.frame.mark.height) ids) : Answers p states f x (p.transfer index d) := by
  have sound := mid.transfer described layers plain region known typed within
  have found : (states d.pc).layers.drop inner.length = l :: outer := by
    rw [layers, List.drop_left]
  have nested := Nested.drop (mid.framed described).nested found
  have isRegion : l.frame.construct = .region := by rw [nested.region_iff, region, Option.isSome]
  have around : outer ≠ [] := by
    rintro rfl
    cases nested with
    | function _ _ _ plain => simp [plain] at region
  have length := length_of_drop found
  obtain ⟨label, start, labels, height, shape, opened, same⟩ :=
    Labelled.transferWithin (p := p) (c := d) index (layers ▸ mid.labelled) plain region isRegion
  obtain ⟨j, params', entrance⟩ := described.funcletPlace (Nat.le_of_lt mid.inside) (lowest_of_drop found)
    around (by omega) region opened within
  have recorded : params' = params := Option.some.inj (entrance.known.symm.trans known)
  have others : (d.labels.drop (inner.length + 1)).length = outer.length := by
    have total := mid.labelled.length
    rw [List.length_drop]
    omega
  have passes := edgeCarries_of_hasSupplied story supplies (by
    obtain ⟨phis, given, size⟩ := entrance.takes story region place
    refine ⟨phis, (story.lasts (Nat.le_of_lt entrance.inside) (Nat.le_refl _)).given given, ?_⟩
    rw [size, recorded, ← above.length_eq, ← typed, List.length_map])
  have landing := entrance.lands described story mid found opened region place
    (passes.reachable leaving.reachable)
  rw [Program.transfer, same, labels, Program.transferWithin, shape] at sound ⊢
  dsimp only at sound ⊢
  rw [if_pos (by rw [known, height, typed]), others, entrance.found] at sound ⊢
  refine leaving.run story sound landing passes below above ?_ ?_ rfl rfl
  · rw [recorded, ← typed, List.length_map]
  · exact (List.take_append_drop _ _).symm

end Machine

end WasmFunclets
