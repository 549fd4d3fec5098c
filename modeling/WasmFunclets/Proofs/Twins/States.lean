import WasmFunclets.Proofs.Twins.Calls
import WasmFunclets.Proofs.Typing.Mimics

/-! Two validations that have recorded the same calls to each funclet: they agree in all but byte offsets,
the ids of blocks and values, and the order of calls to different funclets. -/

namespace WasmFunclets

def Construct.kind : Construct → Construct
  | .ifThen _ _ => .ifThen 0 []
  | construct => construct

def Frame.shape (f : Frame) : Frame := { f with target := 0, construct := f.construct.kind }

def Funclet.blockless (f : Funclet) : Funclet := { f with block := 0 }

structure OpenRegion.Alike (r q : OpenRegion) : Prop where
  signature : q.signature = r.signature
  depth : q.depth = r.depth
  base : q.base = r.base
  blocks : q.blocks.size = r.blocks.size
  graph : r.graph.Alike q.graph
  accounted : r.graph.Accounted
  accounted' : q.graph.Accounted

/-- Regions that agree in all but byte offsets, the ids of blocks and the order of their calls. -/
structure Region.Alike (r q : Region) : Prop where
  signature : q.signature = r.signature
  depth : q.depth = r.depth
  funclets : q.funclets.map Funclet.blockless = r.funclets.map Funclet.blockless
  edges : (q.edges.toList.map CallEdge.placeless).Perm (r.edges.toList.map CallEdge.placeless)

theorem Frame.labelTypes_shape (f : Frame) : f.shape.labelTypes = f.labelTypes := by
  obtain ⟨_, _, _, construct, _⟩ := f
  cases construct <;> rfl

theorem Frame.labelTypes_of_shape {f g : Frame} (same : g.shape = f.shape) :
    g.labelTypes = f.labelTypes := by
  rw [← g.labelTypes_shape, same, f.labelTypes_shape]

theorem Construct.alike_of_kind {a b : Construct} (same : b.kind = a.kind) :
    a.Alike b ∨ a = .region ∧ b = .region := by
  cases a <;> cases b <;> first
    | exact .inr ⟨rfl, rfl⟩
    | exact .inl (by constructor)
    | cases same

theorem Construct.kind_of_alike {a b : Construct} (alike : a.Alike b) : b.kind = a.kind := by
  cases alike <;> rfl

namespace Frame

variable {f g : Frame}

theorem signature_of_shape (same : g.shape = f.shape) : g.signature = f.signature :=
  (congrArg Frame.signature same :)

theorem mark_of_shape (same : g.shape = f.shape) : g.mark = f.mark := (congrArg Frame.mark same :)

theorem outer_of_shape (same : g.shape = f.shape) : g.outerUnreachable = f.outerUnreachable :=
  (congrArg Frame.outerUnreachable same :)

theorem kind_of_shape (same : g.shape = f.shape) : g.construct.kind = f.construct.kind :=
  (congrArg Frame.construct same :)

theorem alike_of_shape (same : g.shape = f.shape) :
    f.Alike g ∨ f.construct = .region ∧ g.construct = .region :=
  (Construct.alike_of_kind (kind_of_shape same)).imp_left (⟨signature_of_shape same, ·⟩)

end Frame

namespace Validation

open Attempt
open TypedStack (Same sameTypes)

variable {s t u v : State} {f g : Frame} {setting : Setting} {mark mark' : Mark}
variable {signature : Signature} {r q : OpenRegion}

/-- The second validation has recorded the same calls as the first one. -/
structure Twins (s t : State) : Prop where
  stack : Same s.stack t.stack
  control : t.control.map Frame.shape = s.control.map Frame.shape
  regions : List.Forall₂ OpenRegion.Alike s.regions t.regions
  closed : List.Forall₂ Region.Alike s.closed.toList t.closed.toList
  locals : t.builder.locals = s.builder.locals
  rest : t.cursor.rest = s.cursor.rest

theorem Twins.refl (accounted : ∀ r ∈ s.regions, r.graph.Accounted) : Twins s s where
  stack := .refl _
  control := rfl
  regions := List.forall₂_same.mpr fun r member =>
    ⟨rfl, rfl, rfl, rfl, .refl _, accounted r member, accounted r member⟩
  closed := List.forall₂_same.mpr fun _ _ => ⟨rfl, rfl, rfl, .refl _⟩
  locals := rfl
  rest := rfl

theorem Near.closed (near : Near s t) : t.closed = s.closed := by rw [near.same]

theorem stackRelation_twins : StackRelation sameTypes Twins where
  compares twins := twins.stack
  kept twins kept := {
    stack := kept.compares
    control := by rw [kept.near.control, kept.near'.control, twins.control]
    regions := by
      rw [kept.near.regions, kept.near'.regions]
      exact twins.regions
    closed := by
      rw [kept.near.closed, kept.near'.closed]
      exact twins.closed
    locals := by rw [kept.near.locals, kept.near'.locals, twins.locals]
    rest := by rw [kept.near.cursor, kept.near'.cursor, twins.rest] }

theorem StackRelation.and {C : TypedStack.Comparison} {P : State → State → Prop} (stable : StackRelation C P)
    (fact : Prop) : StackRelation C fun s t => P s t ∧ fact where
  compares related := stable.compares related.1
  kept related kept := ⟨stable.kept related.1 kept, related.2⟩

namespace Twins

theorem size (twins : Twins s t) : t.control.size = s.control.size := by
  have sizes := congrArg Array.size twins.control
  rwa [Array.size_map, Array.size_map] at sizes

theorem frames (twins : Twins s t) (i : Nat) :
    t.control[i]?.map Frame.shape = s.control[i]?.map Frame.shape := by
  rw [← Array.getElem?_map, twins.control, Array.getElem?_map]

theorem frame? (twins : Twins s t) (depth : Nat) :
    (t.frame? depth).map Frame.shape = (s.frame? depth).map Frame.shape := by
  rw [State.frame?, State.frame?, twins.size]
  split
  · exact twins.frames _
  · rfl

theorem exists_frame (twins : Twins s t) {depth : Nat} (found : s.frame? depth = some f) :
    ∃ g, t.frame? depth = some g ∧ g.shape = f.shape := by
  have same := twins.frame? depth
  rwa [found, Option.map_some, Option.map_eq_some_iff] at same

theorem unreachableIn (twins : Twins s t) {kind kind' : Construct} (same : kind'.kind = kind.kind) :
    t.unreachableIn kind' mark = s.unreachableIn kind mark := by
  have parent := twins.frame? 0
  cases here : s.frame? 0 with
  | none =>
      rw [here, Option.map_none, Option.map_eq_none_iff] at parent
      unfold State.unreachableIn
      rw [here, parent]
      cases kind <;> cases kind' <;> rfl
  | some f =>
      rw [here, Option.map_some, Option.map_eq_some_iff] at parent
      obtain ⟨g, there, shape⟩ := parent
      have outer := Frame.outer_of_shape shape
      unfold State.unreachableIn
      rw [here, there]
      cases kind <;> cases kind' <;> first | exact congrArg (· || _) outer | rfl | cases same

end Twins

theorem exists_forall₂ {α β γ : Type} {R : α → β → Prop} {S : α → γ → Prop} {T : γ → β → Prop}
    (each : ∀ a b, R a b → ∃ c, S a c ∧ T c b) {as : List α} {bs : List β}
    (related : List.Forall₂ R as bs) : ∃ cs, List.Forall₂ S as cs ∧ List.Forall₂ T cs bs := by
  induction related with
  | nil => exact ⟨[], .nil, .nil⟩
  | cons head _ ih =>
      obtain ⟨c, here, there⟩ := each _ _ head
      obtain ⟨cs, before, behind⟩ := ih
      exact ⟨c :: cs, .cons here before, .cons there behind⟩

theorem alike_funclet (alike : r.Alike q) {i : Nat} {funclet : Funclet}
    (has : OpenRegion.HasFunclet r i funclet) :
    ∃ other, OpenRegion.HasFunclet q i other ∧ other.blockless = funclet.blockless := by
  obtain ⟨node, params, block, present, known, place, rfl⟩ := has
  obtain ⟨node', present', same⟩ := alike.graph.lookup present
  have inside : i < q.blocks.size := by
    rw [alike.blocks]
    exact (Array.getElem?_eq_some_iff.mp place).1
  have params' : node'.params = node.params := (congrArg FuncletNode.params same :)
  refine ⟨_, ⟨node', params, _, present', params'.trans known, Array.getElem?_eq_getElem inside, rfl⟩, ?_⟩
  have explicit : node'.explicit = node.explicit := (congrArg FuncletNode.explicit same :)
  have declared : node'.declared = node.declared := (congrArg FuncletNode.declared same :)
  have observed : node'.observed = node.observed := (congrArg FuncletNode.observed same :)
  have sealed : node'.sealed = node.sealed := (congrArg FuncletNode.sealed same :)
  simp only [Funclet.blockless, explicit, declared, observed, sealed]

theorem alike_record (alike : r.Alike q) {record : Region} (yields : OpenRegion.RecordedAs r record) :
    ∃ other, OpenRegion.RecordedAs q other ∧ record.Alike other := by
  obtain ⟨funclets, has, same⟩ := exists_forall₂ (S := OpenRegion.HasFunclet q)
    (T := fun other funclet => other.blockless = funclet.blockless)
    (fun _ _ => alike_funclet alike) yields.funclets
  have size : q.graph.size = r.graph.size := alike.graph.size
  refine ⟨⟨q.signature, q.depth, q.offset, funclets, q.graph.edges, q.exit⟩,
    ⟨rfl, rfl, rfl, rfl, rfl, size ▸ has⟩, ?_, ?_, ?_, ?_⟩
  · exact alike.signature.trans yields.signature.symm
  · exact alike.depth.trans yields.depth.symm
  · have names : List.Forall₂ (· = ·) (funclets.map Funclet.blockless)
        (record.funclets.map Funclet.blockless) :=
      List.forall₂_map_left_iff.mpr (List.forall₂_map_right_iff.mpr same)
    rwa [List.forall₂_eq_eq_eq] at names
  · rw [yields.edges]
    exact perm_of_callsOf alike.graph.calls

theorem twins_record (alike : r.Alike q) : Mimics Twins (OpenRegion.record r) (OpenRegion.record q)
    fun record other s t => Twins s t ∧ record.Alike other :=
  mimics_of_ok fun twins ok => by
    obtain ⟨yields, rfl⟩ := record_ok.mp ok
    obtain ⟨other, yields', same⟩ := alike_record alike yields
    exact ⟨other, _, record_ok.mpr ⟨yields', rfl⟩, twins, same⟩

theorem twins_labelled (depth : Nat) : Mimics Twins (labelled depth) (labelled depth)
    fun f g s t => Twins s t ∧ g.labelTypes = f.labelTypes :=
  mimics_of_ok fun twins ok => by
    obtain ⟨found, rfl⟩ := labelled_ok.mp ok
    obtain ⟨g, found', same⟩ := twins.exists_frame found
    exact ⟨g, _, labelled_ok.mpr ⟨found', rfl⟩, twins, Frame.labelTypes_of_shape same⟩

theorem twins_innermost : Mimics Twins innermost innermost
    fun f g s t => Twins s t ∧ g.shape = f.shape :=
  mimics_of_ok fun twins ok => by
    obtain ⟨found, rfl⟩ := innermost_ok.mp ok
    obtain ⟨g, found', same⟩ := twins.exists_frame found
    exact ⟨g, _, innermost_ok.mpr ⟨found', rfl⟩, twins, same⟩

theorem twins_enter (params : List ValueType) :
    Mimics Twins (onStack (TypedStack.enter params)) (onStack (TypedStack.enter params))
      fun m m' s t => Twins s t ∧ m' = m :=
  mimics_of_ok fun twins ok => by
    obtain ⟨k, entered, rfl⟩ := onStack_ok.mp ok
    obtain ⟨accepted, rfl, rfl⟩ := TypedStack.enter_ok.mp entered
    have same := twins.stack
    refine ⟨_, _, onStack_ok.mpr ⟨_, TypedStack.enter_ok.mpr
      ⟨(same.accepts params).trans accepted, rfl, rfl⟩, rfl⟩, ?_, ?_⟩
    · exact { twins with stack := same.entered params }
    · rw [(same.without params).height, same.floor, same.polymorphic]

theorem twins_pushFrame {kind kind' : Construct} (signature : Signature) (block block' : BlockId)
    (same : kind'.kind = kind.kind) :
    Mimics (fun s t => Twins s t ∧ mark' = mark) (pushFrame signature mark block kind)
      (pushFrame signature mark' block' kind') fun _ _ => Twins :=
  mimics_of_ok fun ⟨twins, marks⟩ ok => by
    subst marks
    obtain rfl := pushFrame_ok.mp ok
    refine ⟨(), _, pushFrame_ok.mpr rfl, { twins with control := ?_ }⟩
    simp only [Array.map_push, twins.control, Frame.shape, same, twins.unreachableIn same]

theorem twins_turn (same : g.shape = f.shape) :
    Shadows Twins
      (modify fun s => { s with control := s.control.pop.push { f with construct := .ifElse } })
      (modify fun s => { s with control := s.control.pop.push { g with construct := .ifElse } }) :=
  mimics_of_ok fun twins ok => by
    obtain rfl := modify_ok.mp ok
    refine ⟨(), _, modify_ok.mpr rfl, { twins with control := ?_ }⟩
    simp only [Array.map_push, Array.map_pop, twins.control, Frame.shape,
      Frame.signature_of_shape same, Frame.mark_of_shape same, Frame.outer_of_shape same]

theorem twins_leave (same : g.shape = f.shape) :
    Shadows Twins (onStack (TypedStack.leave f.mark)) (onStack (TypedStack.leave g.mark)) :=
  mimics_of_ok fun twins ok => by
    obtain ⟨k, left, rfl⟩ := onStack_ok.mp ok
    obtain rfl := TypedStack.leave_ok.mp left
    refine ⟨(), _, onStack_ok.mpr ⟨_, TypedStack.leave_ok.mpr rfl, rfl⟩, ?_⟩
    rw [Frame.mark_of_shape same]
    exact { twins with stack := twins.stack.left f.mark }

theorem twins_popFrame : Shadows Twins popFrame popFrame :=
  mimics_of_ok fun twins ok => by
    obtain rfl := popFrame_ok.mp ok
    refine ⟨(), _, popFrame_ok.mpr rfl, { twins with control := ?_ }⟩
    simp only [Array.map_pop, twins.control]

end Validation

end WasmFunclets
