import WasmFunclets.Proofs.TypedStack
import WasmFunclets.Validation

/-! The parts that validation steps are made of, taken apart where they succeed. -/

namespace WasmFunclets

namespace Validation

open Attempt

variable {α : Type} {s t : State}

@[simp] theorem onCursor_ok {change : Attempt Cursor α} {a : α} :
    onCursor change s = .ok a t ↔ ∃ c, change s.cursor = .ok a c ∧ { s with cursor := c } = t :=
  within_ok

@[simp] theorem onStack_ok {change : Attempt TypedStack α} {a : α} :
    onStack change s = .ok a t ↔ ∃ u, change s.stack = .ok a u ∧ { s with stack := u } = t :=
  within_ok

@[simp] theorem onBuilder_ok {change : Attempt Ssa.Builder α} {a : α} :
    onBuilder change s = .ok a t ↔ ∃ b, change s.builder = .ok a b ∧ { s with builder := b } = t :=
  within_ok

@[simp] theorem onGraph_ok {change : Attempt FuncletCalls α} {a : α} :
    onGraph change s = .ok a t ↔
      ∃ region outer graph, s.regions = region :: outer ∧ change region.graph = .ok a graph ∧
        { s with regions := { region with graph } :: outer } = t := by
  cases regions : s.regions with
  | nil => simp [onGraph, regions]
  | cons region outer =>
      simp only [onGraph, regions, within, List.cons.injEq]
      constructor
      · intro ok
        split at ok
        · rename_i split
          split at split <;> cases split
          cases ok
          exact ⟨region, outer, _, ⟨rfl, rfl⟩, ‹_›, rfl⟩
        · cases ok
      · rintro ⟨_, _, graph, ⟨rfl, rfl⟩, ok, rfl⟩
        simp only [ok]

@[simp] theorem innermost_ok {frame : Frame} :
    innermost s = .ok frame t ↔ s.frame? 0 = some frame ∧ s = t := by
  simp only [innermost, get_bind_ok]
  cases s.frame? 0 <;> simp

@[simp] theorem openRegion_ok {region : OpenRegion} :
    openRegion s = .ok region t ↔ s.regions.head? = some region ∧ s = t := by
  simp only [openRegion, get_bind_ok]
  cases s.regions <;> simp

@[simp] theorem labelled_ok {depth : Nat} {frame : Frame} :
    labelled depth s = .ok frame t ↔ s.frame? depth = some frame ∧ s = t := by
  simp only [labelled, get_bind_ok]
  cases s.frame? depth <;> simp

@[simp] theorem popFrame_ok {x : Unit} :
    popFrame s = .ok x t ↔ { s with control := s.control.pop } = t := modify_ok

@[simp] theorem moveTo_ok {block : BlockId} {x : Unit} :
    moveTo block s = .ok x t ↔ { s with current := block } = t := modify_ok

def supplyOne (operand : Operand) : Attempt Ssa.Builder ValueId :=
  match operand.value with
  | some id => pure id
  | none => Ssa.Builder.undef operand.type

def supply (operands : List Operand) : Attempt Ssa.Builder (List ValueId) :=
  operands.mapM supplyOne

theorem valuesOf_cons (operand : Operand) (operands : List Operand) :
    valuesOf (operand :: operands) = do
      let value ← valueOf operand
      return value :: (← valuesOf operands) := List.mapM_cons

theorem supply_cons (operand : Operand) (operands : List Operand) :
    supply (operand :: operands) = do
      let value ← supplyOne operand
      return value :: (← supply operands) := List.mapM_cons

@[simp] theorem valueOf_ok {operand : Operand} {value : ValueId} :
    valueOf operand s = .ok value t ↔
      ∃ b, supplyOne operand s.builder = .ok value b ∧ { s with builder := b } = t := by
  unfold valueOf supplyOne
  cases operand.value with
  | none => exact onBuilder_ok
  | some id =>
      simp only [pure_ok]
      constructor
      · rintro ⟨rfl, rfl⟩
        exact ⟨_, ⟨rfl, rfl⟩, rfl⟩
      · rintro ⟨_, ⟨rfl, rfl⟩, rfl⟩
        exact ⟨rfl, rfl⟩

@[simp] theorem valuesOf_ok {operands : List Operand} {values : List ValueId} :
    valuesOf operands s = .ok values t ↔
      ∃ b, supply operands s.builder = .ok values b ∧ { s with builder := b } = t := by
  induction operands generalizing s t values with
  | nil =>
      simp only [valuesOf, supply, List.mapM_nil, pure_ok]
      constructor
      · rintro ⟨rfl, rfl⟩
        exact ⟨_, ⟨rfl, rfl⟩, rfl⟩
      · rintro ⟨_, ⟨rfl, rfl⟩, rfl⟩
        exact ⟨rfl, rfl⟩
  | cons operand operands ih =>
      simp only [valuesOf_cons, supply_cons, bind_ok, pure_ok, valueOf_ok, ih]
      constructor
      · rintro ⟨v, _, ⟨b, first, rfl⟩, vs, _, ⟨c, rest, rfl⟩, rfl, rfl⟩
        exact ⟨c, ⟨v, b, first, vs, c, rest, rfl, rfl⟩, rfl⟩
      · rintro ⟨c, ⟨v, b, first, vs, _, rest, rfl, rfl⟩, rfl⟩
        exact ⟨v, _, ⟨b, first, rfl⟩, vs, _, ⟨_, rest, rfl⟩, rfl, rfl⟩

@[simp] theorem takeValues_ok {types : List ValueType} {values : List ValueId} :
    takeValues types s = .ok values t ↔
      s.stack.accepts types = true ∧ ∃ b, supply (s.stack.taken types) s.builder = .ok values b ∧
        { s with stack := s.stack.without types, builder := b } = t := by
  simp only [takeValues, bind_ok, onStack_ok, TypedStack.popTypes_ok, valuesOf_ok]
  constructor
  · rintro ⟨_, _, ⟨_, ⟨accepted, rfl, rfl⟩, rfl⟩, b, supplied, rfl⟩
    exact ⟨accepted, b, supplied, rfl⟩
  · rintro ⟨accepted, b, supplied, rfl⟩
    exact ⟨_, _, ⟨_, ⟨accepted, rfl, rfl⟩, rfl⟩, b, supplied, rfl⟩

@[simp] theorem takeValue_ok {type : ValueType} {value : ValueId} :
    takeValue type s = .ok value t ↔
      ∃ values, takeValues [type] s = .ok values t ∧ values.headD 0 = value := by
  simp only [takeValue, bind_ok, pure_ok]
  grind

def operandsOf (types : List ValueType) (values : List ValueId) : List Operand :=
  TypedStack.withValues types (values.map some)

@[simp] theorem putValue_ok {type : ValueType} {value : ValueId} {x : Unit} :
    putValue type value s = .ok x t ↔
      { s with stack := s.stack.extend [⟨type, some value⟩] } = t := by
  simp [putValue]

@[simp] theorem putValues_ok {types : List ValueType} {values : List ValueId} {x : Unit} :
    putValues types values s = .ok x t ↔
      { s with stack := s.stack.extend (operandsOf types values) } = t := by
  simp [putValues, operandsOf]

@[simp] theorem shareValues_ok {types : List ValueType} {values : List ValueId} :
    shareValues types s = .ok values t ↔
      s.stack.accepts types = true ∧ ∃ b, supply (s.stack.taken types) s.builder = .ok values b ∧
        { s with
          stack := (s.stack.without types).extend (operandsOf types values)
          builder := b } = t := by
  simp only [shareValues, bind_ok, takeValues_ok, putValues_ok, pure_ok]
  constructor
  · rintro ⟨_, _, ⟨accepted, b, supplied, rfl⟩, _, _, rfl, rfl, rfl⟩
    exact ⟨accepted, b, supplied, rfl⟩
  · rintro ⟨accepted, b, supplied, rfl⟩
    exact ⟨_, _, ⟨accepted, b, supplied, rfl⟩, (), _, rfl, rfl, rfl⟩

@[simp] theorem takeAll_ok {types : List ValueType} {values : List ValueId} :
    takeAll types s = .ok values t ↔
      s.stack.holdsExactly types = true ∧
        ∃ b, supply (s.stack.taken types) s.builder = .ok values b ∧
          { s with stack := s.stack.without types, builder := b } = t := by
  simp only [takeAll, get_bind_ok]
  simp only [bind_ok, require_ok, takeValues_ok]
  constructor
  · rintro ⟨_, _, ⟨exactly, rfl⟩, _, b, supplied, rfl⟩
    exact ⟨exactly, b, supplied, rfl⟩
  · rintro ⟨exactly, b, supplied, rfl⟩
    have accepted : s.stack.accepts types = true := by
      simp only [TypedStack.holdsExactly, Bool.and_eq_true] at exactly
      exact exactly.2
    exact ⟨(), _, ⟨exactly, rfl⟩, accepted, b, supplied, rfl⟩

@[simp] theorem emit_ok {opcode : UInt8} {type : ValueType} {operands : List ValueId}
    {immediate : UInt64} {value : ValueId} :
    emit opcode type operands immediate s = .ok value t ↔
      ∃ b, Ssa.Builder.emit s.current opcode type operands immediate s.builder = .ok value b ∧
        { s with builder := b } = t := by
  simp only [emit, get_bind_ok, onBuilder_ok]

@[simp] theorem emitStatement_ok {opcode : UInt8} {operands : List ValueId} {immediate : Nat}
    {x : Unit} :
    emitStatement opcode operands immediate s = .ok x t ↔
      ∃ value b, Ssa.Builder.emit s.current opcode .null operands (UInt64.ofNat immediate) s.builder
        = .ok value b ∧ { s with builder := b } = t := by
  simp only [emitStatement, bind_ok, emit_ok, pure_ok]
  grind

@[simp] theorem branchTo_ok {target : BlockId} {args : List ValueId} {x : Unit} :
    branchTo target args s = .ok x t ↔
      ∃ b, Ssa.Builder.connect s.current target args s.builder = .ok x b ∧
        { s with builder := b } = t := by
  simp only [branchTo, get_bind_ok, onBuilder_ok]

def follower (source : BlockId) : Attempt Ssa.Builder BlockId := do
  let block ← Ssa.Builder.addBlock .body
  Ssa.Builder.connect source block []
  Ssa.Builder.sealBlock block
  pure block

def orphan : Attempt Ssa.Builder BlockId := do
  let block ← Ssa.Builder.addBlock .body
  Ssa.Builder.sealBlock block
  pure block

@[simp] theorem followBlock_ok {source : BlockId} {x : Unit} :
    followBlock source s = .ok x t ↔
      ∃ block b, follower source s.builder = .ok block b ∧
        { s with builder := b, current := block } = t := by
  have same : followBlock source = onBuilder (follower source) >>= moveTo := rfl
  simp only [same, bind_ok, onBuilder_ok, moveTo_ok]
  grind

@[simp] theorem fallThrough_ok {x : Unit} :
    fallThrough s = .ok x t ↔ followBlock s.current s = .ok x t := by
  simp only [fallThrough, get_bind_ok]

def target (kind : Ssa.BlockKind) (types : List ValueType) : Attempt Ssa.Builder BlockId := do
  let block ← Ssa.Builder.addBlock kind
  Ssa.Builder.declareArguments block types
  pure block

@[simp] theorem newTarget_ok {kind : Ssa.BlockKind} {types : List ValueType} {block : BlockId} :
    newTarget kind types s = .ok block t ↔
      ∃ b, target kind types s.builder = .ok block b ∧ { s with builder := b } = t := onBuilder_ok

/-- Whether a frame opened here is entered on the stack of unreachable code. -/
def State.unreachableIn (s : State) (construct : Construct) (mark : Mark) : Bool :=
  match construct, s.frame? 0 with
  | .region, _ => false
  | _, none => false
  | _, some parent => parent.outerUnreachable || mark.polymorphic

@[simp] theorem pushFrame_ok {signature : Signature} {mark : Mark} {block : BlockId}
    {construct : Construct} {x : Unit} :
    pushFrame signature mark block construct s = .ok x t ↔
      { s with
        control := s.control.push
          ⟨signature, mark, block, construct, s.unreachableIn construct mark⟩ } = t := modify_ok

@[simp] theorem blockOf_ok {region : OpenRegion} {index : Nat} {block : BlockId} :
    blockOf region index s = .ok block t ↔ region.blocks[index]? = some block ∧ s = t :=
  inRange_ok

@[simp] theorem completeFunclet_ok {index : Nat} {x : Unit} :
    completeFunclet index s = .ok x t ↔
      ∃ region outer graph block b, s.regions = region :: outer ∧
        FuncletCalls.markComplete index region.graph = .ok () graph ∧
        region.blocks[index]? = some block ∧ Ssa.Builder.sealBlock block s.builder = .ok () b ∧
        { s with regions := { region with graph } :: outer, builder := b } = t := by
  simp only [completeFunclet, bind_ok, onGraph_ok, openRegion_ok, blockOf_ok, onBuilder_ok]
  constructor
  · rintro ⟨_, _, ⟨region, outer, graph, regions, marked, rfl⟩, _, _, ⟨head, rfl⟩, block, _,
      ⟨found, rfl⟩, b, complete, rfl⟩
    obtain rfl := Option.some.inj head
    exact ⟨region, outer, graph, block, b, regions, marked, found, complete, rfl⟩
  · rintro ⟨region, outer, graph, block, b, regions, marked, found, complete, rfl⟩
    exact ⟨(), _, ⟨region, outer, graph, regions, marked, rfl⟩, _, _, ⟨rfl, rfl⟩, block, _,
      ⟨found, rfl⟩, b, complete, rfl⟩

@[simp] theorem regionOperands_ok {operands : List Operand} :
    regionOperands s = .ok operands t ↔
      ∃ region, s.regions.head? = some region ∧
        s.stack.operandsFrom region.base = some operands ∧ s = t := by
  simp only [regionOperands, bind_ok, openRegion_ok, get_ok, inRange_ok]
  constructor
  · rintro ⟨region, _, ⟨head, rfl⟩, _, _, ⟨rfl, rfl⟩, found, rfl⟩
    exact ⟨region, head, found, rfl⟩
  · rintro ⟨region, head, found, rfl⟩
    exact ⟨region, _, ⟨head, rfl⟩, _, _, ⟨rfl, rfl⟩, found, rfl⟩

@[simp] theorem operandsUnreachable_ok {unreachable : Bool} :
    operandsUnreachable s = .ok unreachable t ↔
      ∃ frame, s.frame? 0 = some frame ∧
        (s.stack.polymorphic || frame.outerUnreachable) = unreachable ∧ s = t := by
  simp only [operandsUnreachable, get_bind_ok]
  simp only [bind_ok, innermost_ok, pure_ok]
  constructor
  · rintro ⟨frame, _, ⟨found, rfl⟩, rfl, rfl⟩
    exact ⟨frame, found, rfl, rfl⟩
  · rintro ⟨frame, found, rfl, rfl⟩
    exact ⟨frame, _, ⟨found, rfl⟩, rfl, rfl⟩

theorem transferTo_ok {index : Nat} {args : List Operand} {polymorphic : Bool} {x : Unit} :
    transferTo index args polymorphic s = .ok x t ↔
      ∃ region outer last graph block values b c, s.regions = region :: outer ∧
        FuncletCalls.call index (args.map Operand.type) polymorphic s.start region.graph =
          .ok last graph ∧
        region.blocks[index]? = some block ∧ supply args s.builder = .ok values b ∧
        Ssa.Builder.connect s.current block values b = .ok () c ∧
        (if last then completeFunclet index else pure ())
          { s with regions := { region with graph } :: outer, builder := c } = .ok x t := by
  simp only [transferTo, get_bind_ok]
  simp only [bind_ok, onGraph_ok, openRegion_ok, blockOf_ok, valuesOf_ok, branchTo_ok]
  constructor
  · rintro ⟨last, _, ⟨region, outer, graph, regions, called, rfl⟩, _, _, ⟨head, rfl⟩, block, _,
      ⟨found, rfl⟩, values, _, ⟨b, supplied, rfl⟩, _, _, ⟨c, connected, rfl⟩, ok⟩
    obtain rfl := Option.some.inj head
    exact ⟨region, outer, last, graph, block, values, b, c, regions, called, found, supplied,
      connected, ok⟩
  · rintro ⟨region, outer, last, graph, block, values, b, c, regions, called, found, supplied,
      connected, ok⟩
    exact ⟨last, _, ⟨region, outer, graph, regions, called, rfl⟩, _, _, ⟨rfl, rfl⟩, block, _,
      ⟨found, rfl⟩, values, _, ⟨b, supplied, rfl⟩, (), _, ⟨c, connected, rfl⟩, ok⟩

theorem args_ok {b c : Ssa.Builder} {id : BlockId} {values : List ValueId} :
    Ssa.Builder.args id b = .ok values c ↔
      ∃ k, b.blocks[id]? = some k ∧ b.argsOf k = values ∧ b = c := by
  simp only [Ssa.Builder.args, Ssa.Builder.blockAt, bind_ok, get_ok, inRange_ok, pure_ok]
  constructor
  · rintro ⟨k, _, ⟨_, _, ⟨rfl, rfl⟩, present, rfl⟩, _, _, ⟨rfl, rfl⟩, rfl, rfl⟩
    exact ⟨k, present, rfl, rfl⟩
  · rintro ⟨k, present, rfl, rfl⟩
    exact ⟨k, _, ⟨_, _, ⟨rfl, rfl⟩, present, rfl⟩, _, _, ⟨rfl, rfl⟩, rfl, rfl⟩

def OpenRegion.HasFunclet (q : OpenRegion) (index : Nat) (funclet : Funclet) : Prop :=
  ∃ node params block, q.graph.nodes[index]? = some node ∧ node.params = some params ∧
    q.blocks[index]? = some block ∧
    funclet = ⟨index, params, node.explicit, node.declared, node.observed, node.sealed, block⟩

structure OpenRegion.RecordedAs (q : OpenRegion) (r : Region) : Prop where
  signature : r.signature = q.signature
  depth : r.depth = q.depth
  offset : r.offset = q.offset
  edges : r.edges = q.graph.edges
  exit : r.exit = q.exit
  funclets : List.Forall₂ (OpenRegion.HasFunclet q) (List.range q.graph.size) r.funclets

theorem funclet_ok {σ : Type} {q : OpenRegion} {index : Nat} {funclet : Funclet} {s t : σ} :
    OpenRegion.funclet q index s = .ok funclet t ↔ OpenRegion.HasFunclet q index funclet ∧ s = t := by
  simp only [OpenRegion.funclet, OpenRegion.HasFunclet, bind_ok, inRange_ok]
  constructor
  · rintro ⟨node, _, ⟨present, rfl⟩, ok⟩
    cases known : node.params with
    | none => simp [known] at ok
    | some params =>
        simp only [known, bind_ok, inRange_ok, pure_ok] at ok
        obtain ⟨block, _, ⟨place, rfl⟩, rfl, rfl⟩ := ok
        exact ⟨⟨node, params, block, present, known, place, rfl⟩, rfl⟩
  · rintro ⟨⟨node, params, block, present, known, place, rfl⟩, rfl⟩
    refine ⟨node, s, ⟨present, rfl⟩, ?_⟩
    simp [known, place]

theorem record_ok {σ : Type} {q : OpenRegion} {r : Region} {s t : σ} :
    OpenRegion.record q s = .ok r t ↔ OpenRegion.RecordedAs q r ∧ s = t := by
  simp only [OpenRegion.record, bind_ok, pure_ok, mapM_look_ok (@funclet_ok σ q)]
  constructor
  · rintro ⟨funclets, _, ⟨each, rfl⟩, rfl, rfl⟩
    exact ⟨⟨rfl, rfl, rfl, rfl, rfl, each⟩, rfl⟩
  · rintro ⟨⟨signature, depth, offset, edges, exit, each⟩, rfl⟩
    obtain ⟨_, _, _, funclets, _, _⟩ := r
    cases signature
    cases depth
    cases offset
    cases edges
    cases exit
    exact ⟨funclets, s, ⟨each, rfl⟩, rfl, rfl⟩

theorem OpenRegion.RecordedAs.getElem? {q : OpenRegion} {r : Region} (yields : OpenRegion.RecordedAs q r) {i : Nat}
    {funclet : Funclet} : r.funclets[i]? = some funclet ↔ OpenRegion.HasFunclet q i funclet := by
  have each := List.forall₂_iff_get.mp yields.funclets
  have size : r.funclets.length = q.graph.size := by rw [← each.1, List.length_range]
  constructor
  · intro found
    obtain ⟨inside, rfl⟩ := List.getElem?_eq_some_iff.mp found
    have here := each.2 i (by rw [List.length_range, ← size]; exact inside) inside
    rwa [List.get_eq_getElem, List.get_eq_getElem, List.getElem_range] at here
  · intro has
    have inside : i < r.funclets.length := by
      obtain ⟨node, _, _, present, _⟩ := has
      rw [size]
      exact (Array.getElem?_eq_some_iff.mp present).1
    have here := each.2 i (by rw [List.length_range, ← size]; exact inside) inside
    rw [List.get_eq_getElem, List.get_eq_getElem, List.getElem_range] at here
    obtain ⟨node, params, block, present, known, place, same⟩ := has
    obtain ⟨node', params', block', present', known', place', same'⟩ := here
    cases present.symm.trans present'
    cases known.symm.trans known'
    cases place.symm.trans place'
    rw [List.getElem?_eq_getElem inside, same, same']

theorem OpenRegion.RecordedAs.length {q : OpenRegion} {r : Region} (yields : OpenRegion.RecordedAs q r) :
    r.funclets.length = q.graph.size := by
  rw [← yields.funclets.length_eq, List.length_range]

theorem OpenRegion.RecordedAs.exists_funclet {q : OpenRegion} {r : Region} (yields : OpenRegion.RecordedAs q r)
    {i : Nat} {node : FuncletNode} {params : List ValueType} (present : q.graph.nodes[i]? = some node)
    (known : node.params = some params) :
    ∃ funclet, r.funclets[i]? = some funclet ∧ funclet.params = params := by
  have inside : i < r.funclets.length := by
    rw [yields.length]
    exact (Array.getElem?_eq_some_iff.mp present).1
  obtain ⟨node', params', _, present', known', _, same⟩ :=
    yields.getElem?.mp (List.getElem?_eq_getElem inside)
  cases present.symm.trans present'
  cases known.symm.trans known'
  exact ⟨_, List.getElem?_eq_getElem inside, by rw [same]⟩

def State.shut (s : State) (region : OpenRegion) (record : Region) (outer : List OpenRegion) (frame : Frame)
    (results : List ValueId) (builder : Ssa.Builder) : State :=
  { s with
    closed := s.closed.push record
    stack := (s.stack.left frame.mark).extend (operandsOf frame.signature.results results)
    current := region.exit
    regions := outer
    control := s.control.pop
    builder }

theorem closeRegion_ok {x : Unit} (ok : closeRegion s = .ok x t) :
    ∃ region outer graph frame results record b c, s.regions = region :: outer ∧
      FuncletCalls.finish region.graph = .ok () graph ∧ s.frame? 0 = some frame ∧
      Ssa.Builder.sealBlock region.exit s.builder = .ok () b ∧
      Ssa.Builder.args region.exit b = .ok results c ∧ OpenRegion.RecordedAs { region with graph } record ∧
      t = s.shut { region with graph } record outer frame results c := by
  rw [closeRegion, bind_ok] at ok
  obtain ⟨_, u, finished, ok⟩ := ok
  obtain ⟨region, outer, graph, regions, finishing, rfl⟩ := onGraph_ok.mp finished
  rw [bind_ok] at ok
  obtain ⟨_, _, opened, ok⟩ := ok
  obtain ⟨head, rfl⟩ := openRegion_ok.mp opened
  obtain rfl := Option.some.inj head
  rw [bind_ok] at ok
  obtain ⟨frame, _, top, ok⟩ := ok
  obtain ⟨found, rfl⟩ := innermost_ok.mp top
  rw [bind_ok] at ok
  obtain ⟨results, _, built, ok⟩ := ok
  obtain ⟨c, changed, rfl⟩ := onBuilder_ok.mp built
  obtain ⟨_, b, complete, listed⟩ := bind_ok.mp changed
  rw [bind_ok] at ok
  obtain ⟨record, _, recorded, ok⟩ := ok
  obtain ⟨yields, rfl⟩ := record_ok.mp recorded
  -- The rest cannot fail.
  refine ⟨region, outer, graph, frame, results, record, b, c, regions, finishing, found, complete, listed,
    yields, ?_⟩
  have same : EStateM.Result.ok () (s.shut { region with graph } record outer frame results c) =
      EStateM.Result.ok x t := ok
  injection same with _ same
  exact same.symm

theorem closeRegion_of_ok {region : OpenRegion} {outer : List OpenRegion} {graph : FuncletCalls}
    {frame : Frame} {results : List ValueId} {record : Region} {b c : Ssa.Builder}
    (regions : s.regions = region :: outer)
    (finished : FuncletCalls.finish region.graph = .ok () graph) (found : s.frame? 0 = some frame)
    (complete : Ssa.Builder.sealBlock region.exit s.builder = .ok () b)
    (listed : Ssa.Builder.args region.exit b = .ok results c)
    (yields : OpenRegion.RecordedAs { region with graph } record) :
    closeRegion s = .ok () (s.shut { region with graph } record outer frame results c) := by
  rw [closeRegion, bind_ok]
  refine ⟨(), _, onGraph_ok.mpr ⟨region, outer, graph, regions, finished, rfl⟩, bind_ok.mpr
    ⟨{ region with graph }, _, openRegion_ok.mpr ⟨rfl, rfl⟩, bind_ok.mpr
      ⟨frame, _, innermost_ok.mpr ⟨found, rfl⟩, bind_ok.mpr ⟨results, _, onBuilder_ok.mpr
        ⟨c, bind_ok.mpr ⟨(), b, complete, listed⟩, rfl⟩, bind_ok.mpr
          ⟨record, _, record_ok.mpr ⟨yields, rfl⟩, rfl⟩⟩⟩⟩⟩

end Validation

end WasmFunclets
