import WasmFunclets.Proofs.Meaning.Crossing

/-! The edges that an instruction supplies are edges of the finished function, and behind the last of them the
block at hand is complete. -/

namespace WasmFunclets

namespace Ssa.Builder

open Attempt

variable {b t : Builder} {c source target block : BlockId} {types : List ValueType} {ids : List ValueId}

theorem HasArguments.given (takes : b.HasArguments c types) :
    ∃ phis, b.argsAt c = some phis ∧ phis.size = types.length := by
  obtain ⟨x, phis, shape, args, each⟩ := takes
  obtain ⟨_, outline, rfl⟩ := Option.map_eq_some_iff.mp shape
  obtain ⟨k, present, rfl⟩ := block_of_outline outline
  refine ⟨phis, ?_, ?_⟩
  · rw [argsAt, present]
    exact args
  · rw [← each.length_eq, Array.length_toList]

theorem sealBlock_isSealed (ok : sealBlock c b = .ok () t) :
    ∃ k, t.blocks[c]? = some k ∧ k.isSealed = true := by
  have leaves : Leaves blockCount (sealBlock c) := sealBlock_leaves c
  have count : t.blocks.size = b.blocks.size := leaves.of_ok ok
  simp only [sealBlock, bind_ok] at ok
  obtain ⟨k, _, found, ok⟩ := ok
  obtain ⟨present, rfl⟩ := blockAt_ok found
  split at ok
  · rename_i isSealed
    obtain ⟨_, rfl⟩ := pure_ok.mp ok
    exact ⟨k, present, isSealed⟩
  · simp only [bind_ok] at ok
    obtain ⟨_, _, _, _, _, _, _, _, _, _, _, _, _, u, _, ok⟩ := ok
    obtain rfl := modify_ok.mp ok
    have inside : c < u.blocks.size := by
      rw [Array.size_modify] at count
      exact count ▸ lt_of_block present
    refine ⟨{ u.blocks[c] with isSealed := true }, ?_, rfl⟩
    rw [Array.getElem?_modify, if_pos rfl, Array.getElem?_eq_getElem inside]
    rfl

theorem follower_ok (ok : Validation.follower source b = .ok block t) :
    block = b.blocks.size ∧ ∃ k, t.blocks[block]? = some k ∧ k.isSealed = true ∧ k.predecessors = #[⟨source, []⟩] := by
  simp only [Validation.follower, bind_ok] at ok
  obtain ⟨_, u, made, _, v, connected, _, w, complete, done⟩ := ok
  obtain ⟨rfl, rfl⟩ := pure_ok.mp done
  rw [addBlock, get_bind_ok] at made
  obtain ⟨_, _, pushed, made⟩ := bind_ok.mp made
  obtain rfl := modify_ok.mp pushed
  obtain ⟨rfl, rfl⟩ := pure_ok.mp made
  have present : (b.blocks.push (.fresh .body))[b.blocks.size]? = some (.fresh .body) := by simp
  obtain ⟨es, front, before, after, bare, _⟩ := connect_edges connected
  have edges : some #[] = some es := by
    rw [← before, Builder.edges, present]
    rfl
  cases edges
  obtain rfl := bare (by rw [argsAt, present]; rfl)
  obtain ⟨k, found, isSealed⟩ := sealBlock_isSealed complete
  have same : w.edges = v.edges := (sealBlock_leaves _).of_ok complete
  have single := (congrFun same b.blocks.size).trans ((after _).trans (if_pos rfl))
  rw [Builder.edges, found] at single
  exact ⟨rfl, k, found, isSealed, Option.some.inj single⟩

theorem Lasts.used (lasts : b.Lasts t) (used : b.Used c) : t.Used c := by
  obtain ⟨e, k, present, pred, member, rfl⟩ := used
  obtain ⟨es, found, last⟩ := lasts.edges e _ (by rw [Builder.edges, present]; rfl)
  obtain ⟨l, present', rfl⟩ := Option.map_eq_some_iff.mp found
  obtain ⟨pred', member', same⟩ := last.mem member
  exact ⟨e, l, present', pred', member', same⟩

theorem Lasts.blocks (lasts : b.Lasts t) : b.blocks.size ≤ t.blocks.size := by
  by_contra less
  obtain ⟨k, present⟩ := block_of_lt (Nat.lt_of_not_le less)
  obtain ⟨es, found, _⟩ := lasts.edges _ k.predecessors (by rw [Builder.edges, present]; rfl)
  rw [Builder.edges, Array.getElem?_eq_none (Nat.le_refl _)] at found
  cases found

def HasSupplied (t : Builder) (source target : BlockId) (ids : List ValueId) : Prop :=
  ∃ b b', connect source target ids b = .ok () b' ∧ b'.Lasts t

theorem HasSupplied.later {u : Builder} (supplies : t.HasSupplied source target ids) (lasts : t.Lasts u) :
    u.HasSupplied source target ids := by
  obtain ⟨b, b', ok, before⟩ := supplies
  exact ⟨b, b', ok, before.trans lasts⟩

theorem HasSupplied.used (supplies : t.HasSupplied source target ids) : t.Used source := by
  obtain ⟨b, b', ok, lasts⟩ := supplies
  obtain ⟨es, front, _, after, _⟩ := connect_edges ok
  obtain ⟨k, present, same⟩ := Option.map_eq_some_iff.mp ((after target).trans (if_pos rfl))
  exact lasts.used ⟨target, k, present, ⟨source, front ++ ids⟩, by simp [same], rfl⟩

theorem follower_hasSupplied (ok : Validation.follower source b = .ok block t) (aliased : b.Aliased) :
    t.HasSupplied source block [] := by
  simp only [Validation.follower, bind_ok] at ok
  obtain ⟨_, u, made, _, v, connected, _, w, complete, done⟩ := ok
  obtain ⟨rfl, rfl⟩ := pure_ok.mp done
  have added := (Request.addBlock .body).lasts aliased (bind_ok.mpr ⟨_, u, made, rfl⟩)
  have joined := (Request.connect source _ []).lasts added.aliased connected
  exact ⟨u, v, connected, (Request.sealBlock _).lasts joined.aliased complete⟩

end Ssa.Builder

namespace Machine

open Validation Attempt
open Ssa (Forest Point)

variable {V : Type} {context : Context} {bytes : List UInt8} {code : List Located} {states : Nat → State}
variable {f : Forest} {b : Ssa.Builder} {k n : Nat} {s t u : State} {c d e : Config V} {x y : Point V}
variable {ids : List ValueId} {v : ValueId} {source target : BlockId} {types : List ValueType}

theorem edgeCarries_of_hasSupplied (story : Story context bytes code states f)
    (supplies : (finished code states).HasSupplied source target ids)
    (fits : ∃ phis, (finished code states).argsAt target = some phis ∧ phis.size = ids.length) :
    EdgeCarries (finished code states) source target ids := by
  obtain ⟨_, sound, _⟩ := story.whole
  obtain ⟨b, b', ok, lasts⟩ := supplies
  obtain ⟨es, front, _, after, _⟩ := Ssa.Builder.connect_edges ok
  obtain ⟨es', found, last⟩ := lasts.edges target _ ((after target).trans (if_pos rfl))
  obtain ⟨pred, place, from_, suffix⟩ := last es.size ⟨source, front ++ ids⟩ (by simp)
  obtain ⟨l, present, rfl⟩ := Option.map_eq_some_iff.mp found
  obtain ⟨phis, given, size⟩ := fits
  have declared : l.args = some phis := by rwa [Ssa.Builder.argsAt, present] at given
  have length : pred.args.length = phis.size := sound.ledger.carried (Ssa.Builder.outline_of_block present)
    declared (Array.getElem?_eq_some_iff.mp place).1 place
  -- The edge carries as many values as its target takes, and nothing came in front of them.
  have same : ids = pred.args :=
    ((List.suffix_append front ids).trans suffix).eq_of_length (size.symm.trans length.symm)
  have whole : pred = ⟨source, ids⟩ := by rw [same, ← show pred.block = source from from_]
  exact ⟨l, es.size, present, whole ▸ place⟩

theorem edgeCarries_of_follower (story : Story context bytes code states f) (inside : k ≤ code.length)
    (made : follower source b = .ok target (states k).builder) :
    EdgeCarries (finished code states) source target [] ∧
      ((finished code states).Reachable target → ∀ v, (finished code states).Reaches f source v →
        ∃ w, (finished code states).look ((finished code states).representative v) = some w ∧
          w.block ≠ some target) := by
  obtain ⟨_, sound, rooted, _⟩ := story.whole
  obtain ⟨_, l, present, isSealed, single⟩ := Ssa.Builder.follower_ok made
  obtain ⟨l', present', _, _, same⟩ := (story.later inside (Nat.le_refl _)).block present
  have edges : l'.predecessors = #[⟨source, []⟩] := (same isSealed).2.trans single
  have inner : target ≠ Ssa.Builder.entryId := by
    rintro rfl
    obtain ⟨k', entry, _, none_, _⟩ := sound.flow.entry
    cases present'.symm.trans entry
    simp [edges] at none_
  refine ⟨⟨l', 0, present', by rw [edges]; rfl⟩, fun reachable v reaches => ?_⟩
  refine sound.made_past rooted reachable inner present' fun pred member => ?_
  rw [edges, List.mem_toArray, List.mem_singleton] at member
  exact member ▸ reaches

theorem Shows.connect (shows : Shows code states f k s d x) {b' : Ssa.Builder}
    (ok : Ssa.Builder.connect s.current target ids s.builder = .ok () b')
    (later : b'.Lasts (finished code states)) : Shows code states f k { s with builder := b' } d x :=
  shows.rebuild (Ssa.Builder.Request.lasts (.connect s.current target ids) shows.lasts.aliased ok)
    later (congrFun ((Ssa.Builder.connect_leaves _ _ _).of_ok ok) x.block)

theorem Shows.leaving (shows : Shows code states f k s d x) (story : Story context bytes code states f)
    {sources : BlockId → Prop} {m : Step Unit} (trails : Trails sources m)
    (ok : m s = .ok () (states (k + 1))) (used : (states (k + 1)).builder.Used x.block)
    (keeps : KeepsLocals code k) : Leaving code states d x := by
  have within := shows.within
  have after : k + 1 ≤ code.length := within
  refine ⟨shows.reachable, ?_, shows.history, fun slot a v place last => ?_⟩
  · rw [shows.position, ← (trails s).bodyOf ok, story.body_of_used after (Nat.le_refl _) used]
  by_cases wrote : Wrote code states k x.block slot
  · obtain ⟨w, written, read⟩ := shows.written slot a place wrote
    obtain ⟨w', known, same⟩ := (story.grows k within keeps).knows written
    have alike := story.definition after used known last
    have step := story.lasts after (Nat.le_refl _)
    rw [← read, Point.read, Point.read, alike, ← step.representative w', same, step.representative]
  · refine shows.fresh slot a place wrote v (story.startsWith last fun later => ?_)
    rcases (wrote_succ within).mp (story.wrote_of_used used later) with before | ⟨_, writes⟩
    · exact wrote before
    · exact keeps _ (List.getElem?_eq_getElem within) slot writes

theorem Shows.branchTo (shows : Shows code states f k s d x) (story : Story context bytes code states f)
    {sources : BlockId → Prop} {rest : Unit → Step Unit} (trails : Trails sources (rest ()))
    (ok : (branchTo target ids >>= rest) s = .ok () (states (k + 1)))
    (keeps : KeepsLocals code k) :
    (finished code states).HasSupplied x.block target ids ∧ Leaving code states d x ∧
      ∃ b', rest () { s with builder := b' } = .ok () (states (k + 1)) ∧
        Shows code states f k { s with builder := b' } d x := by
  obtain ⟨_, w, joined, behind⟩ := bind_ok.mp ok
  obtain ⟨b', connected, rfl⟩ := branchTo_ok.mp joined
  have here : s.current = x.block := shows.current.trans shows.block.symm
  have step : s.builder.Lasts b' := Ssa.Builder.Request.lasts
    (.connect s.current target ids) shows.lasts.aliased connected
  have later : b'.Lasts (states (k + 1)).builder := (trails _).lasts behind step.aliased
  have supplies : (states (k + 1)).builder.HasSupplied x.block target ids := ⟨_, _, here ▸ connected, later⟩
  have onward := story.lasts shows.within (Nat.le_refl _)
  exact ⟨supplies.later onward, shows.leaving story (trails_bind (asks_branchTo target ids) fun _ => trails) ok
    supplies.used keeps, b', behind, shows.connect connected (later.trans onward)⟩

end Machine

end WasmFunclets
