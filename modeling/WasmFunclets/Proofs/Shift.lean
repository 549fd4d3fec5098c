import WasmFunclets.Machine
import WasmFunclets.Proofs.Decoding
import WasmFunclets.Proofs.Layers
import WasmFunclets.Proofs.Ssa.LocalTypes

/-! What each instruction does to the layers of a validation: it stays inside the innermost one,
opens a layer, turns to an `else`, goes on with the next funclet or closes a layer. -/

namespace WasmFunclets.Validation

open Attempt
open Ssa.Builder (locals)

variable {s t u : State}

theorem supplyOne_leaves {α : Type} {view : Ssa.Builder → α} [Ssa.Builder.HidesValues view]
    (operand : Operand) : Leaves view (supplyOne operand) := by
  unfold supplyOne
  cases operand.value with
  | none => exact Ssa.Builder.undef_leaves _
  | some id => exact along_pure id

theorem supply_leaves {α : Type} {view : Ssa.Builder → α} [Ssa.Builder.HidesValues view]
    (operands : List Operand) : Leaves view (supply operands) :=
  along_mapM fun _ _ => supplyOne_leaves _

theorem follower_leaves (source : BlockId) : Leaves locals (follower source) :=
  along_bind (Ssa.Builder.addBlock_leaves _) fun _ =>
    along_bind (Ssa.Builder.connect_leaves _ _ _) fun _ =>
      along_bind (Ssa.Builder.sealBlock_leaves _) fun _ => along_pure _

theorem orphan_leaves : Leaves locals orphan :=
  along_bind (Ssa.Builder.addBlock_leaves _) fun _ =>
    along_bind (Ssa.Builder.sealBlock_leaves _) fun _ => along_pure _

theorem target_leaves (kind : Ssa.BlockKind) (types : List ValueType) :
    Leaves locals (target kind types) :=
  along_bind (Ssa.Builder.addBlock_leaves _) fun _ =>
    along_bind (Ssa.Builder.declareArguments_leaves _ _) fun _ => along_pure _

theorem target_size {kind : Ssa.BlockKind} {types : List ValueType} {b c : Ssa.Builder}
    {block : BlockId} (ok : target kind types b = .ok block c) : block = b.blocks.size := by
  simp only [target, Ssa.Builder.addBlock, bind_ok, get_ok, modify_ok, pure_ok] at ok
  obtain ⟨_, _, ⟨_, _, ⟨rfl, rfl⟩, _, _, _, rfl, rfl⟩, _, _, _, rfl, _⟩ := ok
  rfl

/-- The current block is a certain one, and its arguments are the operands above a height. -/
structure Heads (s t : State) (block : BlockId) (h : Nat) (types : List ValueType) : Prop where
  current : t.current = block
  operands : ∃ k, t.builder.blocks[block]? = some k ∧ t.stack.operands.toList =
    s.stack.operands.toList.take h ++ operandsOf types (t.builder.argsOf k)

theorem heads_of_args {b : Ssa.Builder} {block : BlockId} {h : Nat} {types : List ValueType}
    {values : List ValueId} (listed : Ssa.Builder.args block b = .ok values t.builder)
    (current : t.current = block) (operands : t.stack.operands.toList =
      s.stack.operands.toList.take h ++ operandsOf types values) : Heads s t block h types := by
  obtain ⟨k, present, rfl, rfl⟩ := args_ok.mp listed
  exact ⟨current, k, present, operands⟩

theorem heads_cleared {b : Ssa.Builder} {block : BlockId} {k : TypedStack} {h : Nat}
    {types : List ValueType} {values : List ValueId} {polymorphic : Bool} (above : k.floor ≤ k.height)
    (below : k.operands.toList.take k.floor = s.stack.operands.toList.take h)
    (listed : Ssa.Builder.args block b = .ok values t.builder) (current : t.current = block)
    (stack : t.stack = (k.cleared polymorphic).extend (operandsOf types values)) :
    Heads s t block h types := by
  refine heads_of_args listed current ?_
  rw [stack, TypedStack.toList_extend, ← below]
  exact congrArg (· ++ _) (TypedStack.toList_resize above)

theorem completeFunclet_settles {region : OpenRegion} {outer : List OpenRegion} {index : Nat}
    (regions : s.regions = region :: outer) (settled : region.graph.SettledBut index)
    {node : FuncletNode} (present : region.graph.nodes[index]? = some node)
    (ready : node.ready = true) (ok : completeFunclet index s = .ok () t) :
    ∃ graph b, t = { s with regions := { region with graph } :: outer, builder := b } ∧
      graph.Settled ∧ FuncletCalls.KeepsCalls region.graph graph ∧
      graph = { region.graph with nodes := graph.nodes } ∧ b.locals = s.builder.locals := by
  obtain ⟨region', outer', graph, block, b, regions', marked, _, complete, rfl⟩ :=
    completeFunclet_ok.mp ok
  rw [regions] at regions'
  obtain ⟨rfl, rfl⟩ := List.cons.inj regions'
  obtain ⟨settled, keeps, same, _⟩ := (settled.markComplete_ends present ready).of_ok marked
  exact ⟨graph, b, rfl, settled, keeps, same, (Ssa.Builder.sealBlock_leaves block).of_ok complete⟩

/-- A transfer is recorded among the calls of the innermost region. -/
theorem transferTo_callsAdded {region : OpenRegion} {outer : List OpenRegion} {index : Nat}
    {args : List Operand} {polymorphic : Bool} (regions : s.regions = region :: outer)
    (settled : region.graph.Settled) (ok : transferTo index args polymorphic s = .ok () t) :
    ∃ r b, t = { s with regions := r :: outer, builder := b } ∧ CallsAdded region r ∧
      b.locals = s.builder.locals ∧
      ∃ (n : Nat) (edge : CallEdge), r.graph.edges[n]? = some edge ∧ edge.target = index ∧
        edge.args = args.map Operand.type ∧ edge.polymorphic = polymorphic := by
  obtain ⟨region', outer', last, graph, block, values, b, c, regions', called, _, supplied,
    connected, ok⟩ := transferTo_ok.mp ok
  rw [regions] at regions'
  obtain ⟨rfl, rfl⟩ := List.cons.inj regions'
  have inside := FuncletCalls.call_inside called
  obtain ⟨later, keeps, same, _, _, node, present, ready⟩ :=
    (FuncletCalls.call_settledBut settled inside).of_ok called
  have locals : c.locals = s.builder.locals :=
    ((Ssa.Builder.connect_leaves _ _ _).of_ok connected).trans ((supply_leaves _).of_ok supplied)
  have recorded : graph.edges[region.graph.edges.size]? =
      some (region.graph.callEdge index (args.map Operand.type) polymorphic s.start) := by
    rw [same]
    simp
  cases last with
  | false =>
      obtain ⟨_, rfl⟩ := pure_ok.mp ok
      have done := later.settled present ready
      refine ⟨{ region with graph }, c, rfl, ⟨⟨rfl, keeps⟩, ?_, ?_, fun _ => done⟩, locals,
        _, _, recorded, rfl, rfl, rfl⟩
      · rw [same]
      · rw [same]
  | true =>
      obtain ⟨complete, b, rfl, done, more, still, sealed_⟩ :=
        completeFunclet_settles rfl later present ready ok
      obtain ⟨edge, found, equal⟩ := more.edges recorded
      refine ⟨{ region with graph := complete }, b, rfl,
        ⟨⟨rfl, keeps.trans more⟩, ?_, ?_, fun _ => done⟩, sealed_.trans locals, _, edge, found,
        ?_, ?_, ?_⟩
      · rw [still, same]
      · rw [still, same]
      all_goals rw [equal]; rfl

/-- A graph whose next funclet may be entered: all funclets before it are settled. -/
structure Enterable (g : FuncletCalls) (index : Nat) : Prop extends g.Coherent where
  next : index = g.visited
  inside : index < g.size
  params : ∀ {i : Nat} {node : FuncletNode}, g.nodes[i]? = some node → node.entered = true →
    node.params.isSome
  waiting : ∀ {i : Nat} {node : FuncletNode}, g.nodes[i]? = some node → node.ready = false

theorem enterable_of_size {funclets : Nat} {g : FuncletCalls}
    (opened : FuncletCalls.ofSize? funclets = some g) : Enterable g 0 := by
  obtain ⟨coherent, size, some_, visited, _, fresh⟩ := FuncletCalls.coherent_of_size opened
  have each {i : Nat} {node : FuncletNode} (present : g.nodes[i]? = some node) : node = .fresh := by
    obtain ⟨below, _⟩ := Array.getElem?_eq_some_iff.mp present
    have := fresh i (size ▸ below)
    rw [present] at this
    exact Option.some.inj this
  refine ⟨coherent, visited.symm, by omega, fun present entered => ?_, fun present => ?_⟩
  · rw [each present] at entered
    cases entered
  · rw [each present]
    rfl

theorem funcletParams_settles {setting : Setting} {index : Nat} {params : List ValueType}
    {region : OpenRegion} {outer : List OpenRegion} {node : FuncletNode}
    (regions : s.regions = region :: outer) (coherent : region.graph.Coherent)
    (visited : 0 < region.graph.visited) (present : region.graph.nodes[index]? = some node)
    (entered : node.entered = true) (open_ : node.params = none)
    (others : ∀ (i : Nat) (node : FuncletNode), i ≠ index → region.graph.nodes[i]? = some node →
      (node.entered = true → node.params.isSome) ∧ node.ready = false)
    (ok : funcletParams setting index s = .ok params t) :
    ∃ graph cursor decoded,
      t = { s with cursor, decoded, regions := { region with graph } :: outer } ∧
      s.cursor.Behind cursor ∧ graph.SettledBut index ∧ FuncletCalls.KeepsCalls region.graph graph ∧
      graph.visited = region.graph.visited ∧ graph.current = region.graph.current ∧
      ∃ node, graph.nodes[index]? = some node ∧ node.params = some params := by
  simp only [funcletParams, bind_ok, onCursor_ok] at ok
  obtain ⟨header, _, ⟨cursor, read, rfl⟩, ok⟩ := ok
  have behind := (Decode.funcletHeader_readsOnward setting).of_ok read
  have declared {types : List ValueType} {count : Nat} {explicit : Bool} {graph : FuncletCalls}
      (done : FuncletCalls.declare index types count explicit region.graph = .ok () graph) :
      graph.SettledBut index ∧ FuncletCalls.KeepsCalls region.graph graph ∧
        graph.visited = region.graph.visited ∧ graph.current = region.graph.current ∧
        ∃ node, graph.nodes[index]? = some node ∧ node.params = some types := by
    obtain ⟨later, keeps, same, nodes⟩ :=
      (FuncletCalls.declare_ends coherent present entered open_).of_ok done
    have still : graph.visited = region.graph.visited := by rw [same]
    refine ⟨FuncletCalls.settledBut_of_params types later (still ▸ visited)
      (fun _ => rfl) nodes others, keeps, still, by rw [same],
      { node with params := some types, declared := count, explicit }, ?_, rfl⟩
    rw [nodes, present]
    simp
  cases header with
  | some header =>
      simp only [bind_ok, modify_ok, onGraph_ok, pure_ok] at ok
      obtain ⟨_, _, rfl, _, _, ⟨region', outer', graph, regions', done, rfl⟩, rfl, rfl⟩ := ok
      rw [regions] at regions'
      obtain ⟨rfl, rfl⟩ := List.cons.inj regions'
      exact ⟨graph, cursor, s.decoded + 1, rfl, behind, declared done⟩
  | none =>
      by_cases first : index = 0
      · simp only [first, if_true, bind_ok, onGraph_ok, pure_ok] at ok
        obtain ⟨_, _, ⟨region', outer', graph, regions', done, rfl⟩, rfl, rfl⟩ := ok
        rw [regions] at regions'
        obtain ⟨rfl, rfl⟩ := List.cons.inj regions'
        exact ⟨graph, cursor, s.decoded, rfl, behind, declared (first ▸ done)⟩
      · simp only [first, if_false, onGraph_ok] at ok
        obtain ⟨region', outer', graph, regions', inferred, rfl⟩ := ok
        rw [regions] at regions'
        obtain ⟨rfl, rfl⟩ := List.cons.inj regions'
        obtain ⟨later, keeps, same, nodes, _⟩ :=
          (FuncletCalls.infer_ends coherent present entered open_).of_ok inferred
        have still : graph.visited = region.graph.visited := by rw [same]
        refine ⟨graph, cursor, s.decoded, rfl, behind,
          FuncletCalls.settledBut_of_params params later (still ▸ visited)
            (fun _ => rfl) nodes others, keeps, still, by rw [same],
          { node with params := some params }, ?_, rfl⟩
        rw [nodes, present]
        simp

/-- A funclet starts with its parameters above the floor. -/
theorem startFunclet_ok {setting : Setting} {index : Nat} {region : OpenRegion}
    {outer : List OpenRegion} (regions : s.regions = region :: outer)
    (enterable : Enterable region.graph index) (above : s.stack.floor ≤ s.stack.height)
    (ok : startFunclet setting index s = .ok () t) :
    ∃ r params, t = { s with
        cursor := t.cursor, start := t.start, decoded := t.decoded, stack := t.stack
        regions := r :: outer, builder := t.builder, current := t.current } ∧
      s.cursor.Behind t.cursor ∧ t.builder.locals = s.builder.locals ∧
      region.Later r ∧ r.graph.Settled ∧ r.graph.current = index ∧
      (∃ node, r.graph.nodes[index]? = some node ∧ node.params = some params) ∧
      (∃ frame, s.frame? 0 = some frame ∧ (index ≠ 0 ∨ params = frame.signature.params)) ∧
      t.stack.floor = s.stack.floor ∧ t.stack.polymorphic = false ∧
      TypedStack.Tops s.stack t.stack s.stack.floor params ∧
      ∃ block, region.blocks[index]? = some block ∧ Heads s t block s.stack.floor params := by
  simp only [startFunclet, bind_ok, modify_ok, onGraph_ok, innermost_ok, require_ok, openRegion_ok,
    blockOf_ok, onBuilder_ok] at ok
  obtain ⟨_, _, rfl, _, _, ⟨region', outer', entered, regions', entering, rfl⟩, params, u, settling,
    frame, _, ⟨found, rfl⟩, _, _, ⟨matching, rfl⟩, r, _, ⟨head, rfl⟩, block, _, ⟨at_, rfl⟩, _, _,
    ⟨b, declared, rfl⟩, last, _, ⟨r', outer'', graph, regions'', readied, rfl⟩, ok⟩ := ok
  rw [regions] at regions'
  obtain ⟨rfl, rfl⟩ := List.cons.inj regions'
  obtain ⟨later, keeps, visited, _, _, ⟨node, present, isEntered, open_⟩, others⟩ :=
    (FuncletCalls.enter_settles enterable.toCoherent enterable.next enterable.inside
      enterable.params enterable.waiting).of_ok entering
  obtain ⟨settled, cursor, decoded, rfl, behind, waiting, more, still, current, node, present,
    known⟩ := funcletParams_settles rfl later
      (Nat.lt_of_lt_of_eq (Nat.succ_pos index) visited.symm) present isEntered open_ others settling
  obtain rfl := Option.some.inj head
  obtain ⟨rfl, rfl⟩ := List.cons.inj regions''
  simp only [FuncletCalls.ready, FuncletCalls.nodeAt, bind_ok, get_ok, inRange_ok, pure_ok]
    at readied
  obtain ⟨_, _, ⟨_, _, ⟨rfl, rfl⟩, found', rfl⟩, rfl, rfl⟩ := readied
  rw [present] at found'
  obtain rfl := Option.some.inj found'
  have index_eq : settled.current = index := by
    rw [current, later.current_eq, visited, Nat.add_sub_cancel]
  have locals : b.locals = s.builder.locals :=
    (Ssa.Builder.declareArguments_leaves _ _).of_ok declared
  -- The frame is looked up in a state with the frames of the first one.
  have innermost : s.frame? 0 = some frame := found
  have stack (u : TypedStack) (same : u = s.stack) (values : List ValueId) :
      let v := (u.cleared false).extend (TypedStack.withValues params (values.map some))
      v.floor = s.stack.floor ∧ v.polymorphic = false ∧
        TypedStack.Tops s.stack v s.stack.floor params := by
    subst same
    exact ⟨rfl, rfl, TypedStack.tops_cleared _ _ false above⟩
  cases ready : node.ready with
  | false =>
      simp only [ready, Bool.false_eq_true, if_false, bind_ok, moveTo_ok, onBuilder_ok, onStack_ok,
        TypedStack.reset_ok] at ok
      obtain ⟨_, _, rfl, args, _, ⟨c, listed, rfl⟩, _, rfl, rfl⟩ := ok
      have kept : c.locals = b.locals := (Ssa.Builder.args_leaves _).of_ok listed
      exact ⟨{ region with graph := settled }, params, rfl, behind, kept.trans locals,
        ⟨rfl, keeps.trans more⟩, waiting.settled present ready, index_eq, ⟨node, present, known⟩,
        ⟨frame, innermost, matching⟩, rfl, rfl, (stack _ rfl args).2.2, block, at_,
        heads_cleared above rfl listed rfl rfl⟩
  | true =>
      simp only [ready, if_true, bind_ok, moveTo_ok, onBuilder_ok, onStack_ok,
        TypedStack.reset_ok] at ok
      obtain ⟨_, v, completed, _, _, rfl, args, _, ⟨c, listed, rfl⟩, _, rfl, rfl⟩ := ok
      obtain ⟨complete, d, rfl, done, further, same, sealed_⟩ :=
        completeFunclet_settles rfl waiting present ready completed
      have kept : c.locals = d.locals := (Ssa.Builder.args_leaves _).of_ok listed
      refine ⟨{ region with graph := complete }, params, rfl, behind,
        kept.trans (sealed_.trans locals), ⟨rfl, (keeps.trans more).trans further⟩, done, ?_,
        further.params present known, ⟨frame, innermost, matching⟩, rfl, rfl, (stack _ rfl args).2.2,
        block, at_, heads_cleared above rfl listed rfl rfl⟩
      change complete.current = index
      rw [same]
      exact index_eq

def Layer.nest (l : Layer) : Nest :=
  match l.region with
  | none => .plain
  | some r => .region r.graph.current r.graph.size

def State.nests (s : State) : List Nest := s.layers.map Layer.nest

theorem State.nests_of_layers {s : State} {layers : List Layer} (same : s.layers = layers) :
    s.nests = layers.map Layer.nest := congrArg _ same

structure FreshOperands (s t : State) (l : Layer) (types : List ValueType) : Prop where
  tops : TypedStack.Tops s.stack t.stack l.frame.mark.height types
  floor : t.stack.floor = l.frame.mark.height
  finite : t.stack.polymorphic = false

structure FinishedCalls (g : FuncletCalls) : Prop extends g.Settled where
  all : g.visited = g.size
  checked : ∀ (n : Nat) (edge : CallEdge), g.edges[n]? = some edge → edge.checked = true

inductive Shift (s : State) (i : Instruction) (t : State) : Prop where
  | stays (quiet : Quiet s t) (other : i ≠ .elseThen)
  | opens (l : Layer) (layers : t.layers = l :: s.layers)
      (starts : FreshOperands s t l l.frame.signature.params)
      (inside : ∀ parent around, s.layers = parent :: around → l.Inside parent)
      (closed : t.closed = s.closed)
      (regions : t.regions = l.region.toList ++ s.regions)
      (region : ∀ r, l.region = some r → r.offset = s.start ∧ r.graph.Settled ∧
        r.graph.current = 0 ∧
        ∃ node, r.graph.nodes[0]? = some node ∧ node.params = some l.frame.signature.params)
      (deep : ∀ r, l.region = some r → r.depth = s.control.size)
      (entered : l.frame.mark.polymorphic = s.stack.polymorphic)
      (loop : l.frame.construct = .loop →
        Heads s t l.frame.target l.frame.mark.height l.frame.signature.params)
      (first : ∀ r, l.region = some r → r.blocks[0]? = some t.current ∧
        Heads s t t.current l.frame.mark.height l.frame.signature.params)
      (fresh : s.builder.blocks.size ≤ l.frame.target ∧
        ∀ r, l.region = some r → ∀ block ∈ r.blocks, s.builder.blocks.size ≤ block)
  | turns (l m : Layer) (outer : List Layer) (before : s.layers = l :: outer)
      (layers : t.layers = m :: outer) (condition : BlockId) (params : List ValueId)
      (isIf : l.frame.construct = .ifThen condition params)
      (isElse : m = { l with frame := { l.frame with construct := .ifElse } })
      (starts : FreshOperands s t l l.frame.signature.params) (closed : t.closed = s.closed)
      (regions : t.regions = s.regions) (turn : i = .elseThen)
  | goesOn (l m : Layer) (outer : List Layer) (before : s.layers = l :: outer)
      (layers : t.layers = m :: outer) (r q : OpenRegion) (region : l.region = some r)
      (frame : m = ⟨l.frame, some q⟩) (later : r.Later q) (settled : q.graph.Settled)
      (regions : s.regions = r :: s.regions.tail ∧ t.regions = q :: s.regions.tail)
      (current : q.graph.current = r.graph.current + 1) (inside : r.graph.current + 1 < r.graph.size)
      (params : List ValueType)
      (known : ∃ node, q.graph.nodes[q.graph.current]? = some node ∧ node.params = some params)
      (starts : FreshOperands s t l params) (closed : t.closed = s.closed) (block : BlockId)
      (place : r.blocks[q.graph.current]? = some block)
      (heads : Heads s t block l.frame.mark.height params)
  | closes (l parent : Layer) (outer : List Layer) (before : s.layers = l :: parent :: outer)
      (layers : t.layers = parent :: outer) (regions : t.regions = s.regions.drop l.region.toList.length)
      (tops : TypedStack.Tops s.stack t.stack l.frame.mark.height l.frame.signature.results)
      (floor : t.stack.floor = l.frame.mark.floor)
      (polymorphic : t.stack.polymorphic = l.frame.mark.polymorphic)
      (whole : ∀ condition params, l.frame.construct = .ifThen condition params →
        l.frame.signature.params = l.frame.signature.results)
      (record : match l.region with
        | none => t.closed = s.closed ∧ i = .close
        | some r => ∃ q : OpenRegion, r.Later q ∧ FinishedCalls q.graph ∧
          q.graph.current = r.graph.current ∧ r.graph.current + 1 = r.graph.size ∧
          ∃ entry, OpenRegion.RecordedAs q entry ∧ t.closed = s.closed.push entry)
      (heads : l.frame.construct ≠ .loop →
        Heads s t l.frame.target l.frame.mark.height l.frame.signature.results)
  | ends (l : Layer) (before : s.layers = [l]) (control : t.control = #[])
      (closed : t.closed = s.closed) (plain : i = .close) (regions : t.regions = s.regions)

theorem Shift.grows {i : Instruction} (shift : Shift s i t)
    (grown : t.layers.length = s.layers.length + 1) :
    ∃ l, t.layers = l :: s.layers ∧ FreshOperands s t l l.frame.signature.params ∧
      (∀ r, l.region = some r → r.offset = s.start) ∧
      l.frame.mark.polymorphic = s.stack.polymorphic := by
  cases shift with
  | stays quiet => exact absurd quiet.layers.length_eq (by omega)
  | opens l layers starts _ _ _ region _ entered =>
      exact ⟨l, layers, starts, fun r isRegion => (region r isRegion).1, entered⟩
  | turns l m outer before layers => simp [before, layers] at grown
  | goesOn l m outer before layers => simp [before, layers] at grown
  | closes l parent outer before layers => simp [before, layers] at grown
  | ends l before control =>
      have empty : t.layers = [] := by simp [State.layers, State.frames, control, layersOf]
      simp [empty] at grown

theorem Quiet.nests (quiet : Quiet s t) : t.nests = s.nests := by
  unfold State.nests
  have steady := quiet.layers
  generalize s.layers = before, t.layers = later at steady
  induction steady with
  | nil => rfl
  | @cons l m _ _ same _ ih =>
      have head : m.nest = l.nest := by
        have regions := same.region
        unfold Layer.nest
        revert regions
        cases l.region <;> cases m.region <;> intro regions <;> cases regions
        · rfl
        · rename_i steady
          simp only [steady.current, steady.keeps.size_eq]
      rw [List.map_cons, List.map_cons, head, ih]

/-- What the two states of an instruction have to do with each other. -/
structure Moves (s : State) (i : Instruction) (t : State) : Prop where
  shift : Shift s i t
  nests : t.nests = Nest.advance s.nests i
  cursor : s.cursor.Behind t.cursor
  exit : t.exit = s.exit
  locals : t.builder.locals = s.builder.locals

theorem Quiet.region_on_top {r : OpenRegion} {rest : List OpenRegion} (quiet : Quiet s u)
    (regions : s.regions = r :: rest) : ∃ q, u.regions = q :: rest ∧ CallsAdded r q := by
  have head := quiet.region
  have tail := quiet.outer
  rw [regions] at head tail
  cases later : u.regions with
  | nil => rw [later] at head; cases head
  | cons q others =>
      rw [later] at head tail
      cases head with
      | some same => exact ⟨q, by rw [← show others = rest from tail], same⟩

theorem Heads.of_take {h : Nat} {block : BlockId} {types : List ValueType} (heads : Heads u t block h types)
    (same : u.stack.operands.toList.take h = s.stack.operands.toList.take h) : Heads s t block h types :=
  ⟨heads.current, same ▸ heads.operands⟩

theorem Heads.self {h : Nat} {block : BlockId} {types : List ValueType} (heads : Heads s t block h types)
    (tops : TypedStack.Tops s.stack t.stack h types) : Heads t t block h types := heads.of_take tops.take.symm

theorem Quiet.heads {h : Nat} {block : BlockId} {types : List ValueType} (quiet : Quiet s u)
    (reach : h ≤ s.stack.floor) (heads : Heads u t block h types) : Heads s t block h types :=
  heads.of_take (TypedStack.take_of_take reach quiet.stack.below)

theorem Quiet.tops {h : Nat} {types : List ValueType} (quiet : Quiet s u) (framed : Framed s)
    (reach : h ≤ s.stack.floor) (tops : TypedStack.Tops u.stack t.stack h types) :
    TypedStack.Tops s.stack t.stack h types :=
  .of_rests quiet.stack tops reach framed.above

theorem closeRegion_moves {i : Instruction} {frame : Frame} {frames : List Frame}
    {r : OpenRegion} {rest : List OpenRegion} (framed : Framed s) (quiet : Quiet s u)
    (split : s.frames = frame :: frames) (isRegion : frame.construct = .region)
    (regions : s.regions = r :: rest) (last : r.graph.current + 1 = r.graph.size)
    (ok : closeRegion u = .ok () t) :
    Shift s i t ∧ t.nests = s.nests.tail ∧ t.cursor = s.cursor ∧ t.exit = s.exit ∧
      t.builder.locals = s.builder.locals := by
  obtain ⟨q, others, graph, top, results, entry, b, c, inner, finishing, found, complete, listed, yields,
    rfl⟩ := closeRegion_ok ok
  obtain ⟨q', later, steady⟩ := quiet.region_on_top regions
  obtain ⟨rfl, rfl⟩ := List.cons.inj (inner.symm.trans later)
  have settled : q.graph.Settled := by
    refine (framed.quiet quiet).settled q ?_
    rw [inner]
    exact List.mem_cons_self
  obtain ⟨rfl, all, _, checked⟩ := (FuncletCalls.finish_ends settled).of_ok finishing
  have top_eq : top = frame := by
    have first := u.frame?_eq 0
    rw [quiet.frames, split] at first
    exact Option.some.inj (found.symm.trans first)
  subst top_eq
  obtain ⟨r', outer', regions', layers⟩ := framed.region_on_top split isRegion
  rw [regions] at regions'
  obtain ⟨rfl, rfl⟩ := List.cons.inj regions'
  have control : u.control.toList.reverse = top :: frames := quiet.frames.trans split
  have popped : u.control.pop.toList.reverse = frames := frames_pop control
  have kept : c.locals = s.builder.locals :=
    ((Ssa.Builder.args_leaves _).of_ok listed).trans
      (((Ssa.Builder.sealBlock_leaves _).of_ok complete).trans quiet.locals)
  obtain ⟨parent, outer, around, inside, _⟩ := (layers ▸ framed.nested).inner (by simp [isRegion])
  rw [around] at layers
  have behind : (u.shut { q with graph := q.graph } entry others top results c).layers =
      parent :: outer := by
    change layersOf u.control.pop.toList.reverse others = _
    rw [popped, around]
  have ground : top.mark.height ≤ s.stack.floor := Nat.le_of_eq (framed.floor _ _ layers).symm
  have tops := TypedStack.tops_left top.signature.results (results.map some) top.mark
    (Nat.le_trans (quiet.stack.floor ▸ ground) quiet.stack.above)
  have exit : q.exit = top.target := by
    rw [steady.same]
    exact (inside.region r rfl).2.2.2.1
  refine ⟨.closes _ parent outer layers behind ?_ (quiet.tops framed ground tops) rfl rfl ?_ ?_ ?_,
    ?_, quiet.cursor, quiet.exit, kept⟩
  · rw [regions]
    rfl
  · intro condition params isIf
    simp [isRegion] at isIf
  · refine ⟨q, steady.toLater, ⟨settled, all, checked⟩, steady.current, last, entry, yields, ?_⟩
    change u.closed.push _ = _
    rw [quiet.closed]
  · intro _
    rw [← exit]
    refine quiet.heads ground (heads_of_args listed rfl ?_)
    exact (TypedStack.toList_extend _ _).trans (congrArg (· ++ _) (TypedStack.toList_resize
      (Nat.le_trans (quiet.stack.floor ▸ ground) quiet.stack.above)))
  · rw [State.nests, behind, State.nests, layers]
    rfl

theorem enterable_of_settled {g : FuncletCalls} (settled : g.Settled)
    (inside : g.current + 1 < g.size) : Enterable g (g.current + 1) where
  toCoherent := settled.toCoherent
  next := by
    have := settled.current_eq
    have := settled.visited_pos
    omega
  inside := inside
  params := settled.params_of_entered
  waiting := settled.not_ready

theorem nextFunclet_moves {setting : Setting} {i : Instruction} {frame : Frame}
    {frames : List Frame} {r : OpenRegion} {rest : List OpenRegion} (framed : Framed s)
    (quiet : Quiet s u) (split : s.frames = frame :: frames)
    (isRegion : frame.construct = .region) (regions : s.regions = r :: rest)
    (ok : nextFunclet setting u = .ok () t) :
    Shift s i t ∧ t.nests = Nest.nextFunclet r.graph.current r.graph.size s.nests.tail ∧
      s.cursor.Behind t.cursor ∧ t.exit = s.exit ∧
      t.builder.locals = s.builder.locals := by
  obtain ⟨q, inner, steady⟩ := quiet.region_on_top regions
  have current := steady.current
  have size := steady.keeps.size_eq
  have settled : q.graph.Settled := by
    refine (framed.quiet quiet).settled q ?_
    rw [inner]
    exact List.mem_cons_self
  rw [nextFunclet, bind_ok] at ok
  obtain ⟨_, _, opened, ok⟩ := ok
  obtain ⟨head, rfl⟩ := openRegion_ok.mp opened
  rw [inner] at head
  obtain rfl := Option.some.inj head
  by_cases more : q.graph.current + 1 < q.graph.size
  · simp only [more, if_true] at ok
    obtain ⟨p, params, same, onward, locals, later, done, entered, known, _, floor, finite, tops,
      block, place, heads⟩ := startFunclet_ok inner (enterable_of_settled settled more) quiet.stack.above ok
    obtain ⟨r', rest', regions', layers⟩ := framed.region_on_top split isRegion
    rw [regions] at regions'
    obtain ⟨rfl, rfl⟩ := List.cons.inj regions'
    have control : t.control = s.control := (congrArg State.control same).trans quiet.control
    have open_ : t.regions = p :: rest := congrArg State.regions same
    have behind : t.layers = ⟨frame, some p⟩ :: layersOf frames rest := by
      have frames : t.frames = frame :: frames := by rw [State.frames, control, ← split, State.frames]
      rw [State.layers, frames, open_, layersOf_region isRegion]
    have ground : s.stack.floor = frame.mark.height := framed.floor _ _ layers
    have nests : t.nests = Nest.nextFunclet r.graph.current r.graph.size s.nests.tail := by
      rw [current, size] at more
      rw [State.nests, behind, State.nests, layers, Nest.nextFunclet, if_pos more]
      simp only [List.map_cons, Layer.nest, List.tail_cons, entered, current,
        later.keeps.size_eq, size]
    rw [quiet.stack.floor] at tops floor heads
    refine ⟨.goesOn _ _ _ layers behind r p rfl rfl (steady.toLater.trans later) done
      ⟨by rw [regions, List.tail_cons], by rw [open_, regions, List.tail_cons]⟩
      (by rw [entered, current]) (by rw [← current, ← size]; exact more) params
      (by rw [entered]; exact known) ⟨?_, floor.trans ground, finite⟩ ?_ block ?_ ?_, nests, ?_, ?_, ?_⟩
    · rw [← ground]
      exact quiet.tops framed (Nat.le_refl _) tops
    · exact (congrArg State.closed same).trans quiet.closed
    · rw [entered]
      rw [steady.same] at place
      exact place
    · rw [← ground]
      exact quiet.heads (Nat.le_refl _) heads
    · rw [← quiet.cursor]
      exact onward
    · exact (congrArg State.exit same).trans quiet.exit
    · exact locals.trans quiet.locals
  · simp only [more, if_false] at ok
    have last : r.graph.current + 1 = r.graph.size := by
      have := settled.current_eq
      have := settled.visited_pos
      have := settled.visited_le
      omega
    obtain ⟨shift, nests, cursor, exit, locals⟩ :=
      closeRegion_moves (i := i) framed quiet split isRegion regions last ok
    refine ⟨shift, ?_, .of_eq cursor, exit, locals⟩
    rw [nests, Nest.nextFunclet, if_neg (by omega)]

/-- The end of a block is the end of a funclet when it stands directly in one. -/
theorem endBlock_moves {setting : Setting} {i : Instruction} (framed : Framed s)
    (quiet : Quiet s u) (other : i ≠ .elseThen) (ok : endBlock setting u = .ok () t)
    (direct : ∀ funclet funclets outer, s.nests = .region funclet funclets :: outer →
      Nest.advance s.nests i = Nest.nextFunclet funclet funclets outer)
    (inner : ∀ outer, s.nests = .plain :: outer → Nest.advance s.nests i = s.nests) :
    Moves s i t := by
  obtain ⟨frame, frames, split, _, _⟩ := framed.cons
  rw [endBlock, bind_ok] at ok
  obtain ⟨top, _, looked, ok⟩ := ok
  obtain ⟨found, rfl⟩ := innermost_ok.mp looked
  rw [State.frame?_eq, quiet.frames, split] at found
  obtain rfl := Option.some.inj found
  by_cases isRegion : frame.construct = .region
  · simp only [isRegion, if_true] at ok
    obtain ⟨r, rest, regions, layers⟩ := framed.region_on_top split isRegion
    obtain ⟨shift, nests, cursor, exit, locals⟩ :=
      nextFunclet_moves (i := i) framed quiet split isRegion regions ok
    refine ⟨shift, ?_, cursor, exit, locals⟩
    rw [nests, direct r.graph.current r.graph.size s.nests.tail]
    rw [State.nests, layers]
    rfl
  · simp only [isRegion, if_false, bind_ok, onStack_ok, TypedStack.becomePolymorphic_ok,
      moveTo_ok] at ok
    obtain ⟨_, _, ⟨_, rfl, rfl⟩, block, _, made, rfl⟩ := ok
    obtain ⟨b, built, rfl⟩ := onBuilder_ok.mp made
    have more : Quiet u { u with stack := u.stack.cleared true, builder := b, current := block } :=
      .of_parts (TypedStack.rests_cleared true quiet.stack.above) (orphan_leaves.of_ok built) fun _ =>
        .inr ⟨frame, by rw [State.frame?_eq, quiet.frames, split]; rfl, isRegion⟩
    have all := quiet.trans more
    refine ⟨.stays all other, ?_, .of_eq all.cursor, all.exit,
      all.locals⟩
    rw [all.nests, inner (layersOf frames s.regions |>.map Layer.nest)]
    rw [State.nests, s.layers_of_plain split isRegion]
    rfl

end WasmFunclets.Validation
