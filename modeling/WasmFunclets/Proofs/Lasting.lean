import WasmFunclets.Proofs.Signatures

/-! What holds of the regions of a validation all along, if each request to a call graph keeps it. -/

namespace WasmFunclets

open Attempt

namespace FuncletCalls

variable {g h : FuncletCalls} {index offset : Nat} {args : List ValueType} {polymorphic last : Bool}

theorem enter_ok : enter index g = .ok () h ↔ (index = g.visited ∧ index < g.size) ∧
    h = { g with
      nodes := g.nodes.modify index ({ · with entered := true })
      current := index
      visited := g.visited + 1 } := by
  simp only [enter, modifyNode, bind_ok, get_ok, maintain_ok, modify_ok]
  constructor
  · rintro ⟨_, _, ⟨rfl, rfl⟩, _, _, ⟨next, rfl⟩, _, _, rfl, rfl⟩
    exact ⟨next, rfl⟩
  · rintro ⟨next, rfl⟩
    exact ⟨g, g, ⟨rfl, rfl⟩, (), g, ⟨next, rfl⟩, (), _, rfl, rfl⟩

def Recordable (node : FuncletNode) (edge : CallEdge) : Prop :=
  if edge.backward = true then
    node.observed ≠ node.declared ∧ node.sealed = false ∧
      ∃ params, node.params = some params ∧ edge.agrees params = true
  else node.entered = false

theorem checkCall_ok {node : FuncletNode} {edge : CallEdge} :
    checkCall index node edge g = .ok () h ↔ Recordable node edge ∧ g = h := by
  unfold checkCall Recordable
  by_cases backward : edge.backward = true
  · rw [if_pos backward, if_pos backward]
    by_cases full : node.observed = node.declared
    · simp [full]
    · cases known : node.params with
      | none => simp [full]
      | some params => by_cases agrees : edge.agrees params = true <;> simp [full, agrees]
  · rw [if_neg backward, if_neg backward, maintain_ok]

theorem call_ok : call index args polymorphic offset g = .ok last h ↔
    ∃ node, g.nodes[index]? = some node ∧ Recordable node (g.callEdge index args polymorphic offset) ∧
      h = { g with
        nodes := g.nodes.modify index (·.addCall g.edges.size (decide (index ≤ g.current)))
        edges := g.edges.push (g.callEdge index args polymorphic offset) } ∧
      last = (decide (index ≤ g.current) &&
        (node.addCall g.edges.size (decide (index ≤ g.current))).ready) := by
  have there (node : FuncletNode) (present : g.nodes[index]? = some node)
      (change : FuncletNode → FuncletNode) :
      (g.nodes.modify index change)[index]? = some (change node) := by
    rw [Array.getElem?_modify, if_pos rfl, present, Option.map_some]
  simp only [call, get_bind_ok]
  cases present : g.nodes[index]? with
  | none => simp
  | some node =>
    simp only [modifyNode, nodeAt, bind_ok, get_ok, modify_ok, inRange_ok, pure_ok, Option.some.injEq]
    constructor
    · rintro ⟨_, _, checked, _, _, rfl, _, _, rfl, later, _, ⟨_, _, ⟨rfl, rfl⟩, found, rfl⟩, rfl, rfl⟩
      obtain ⟨takes, rfl⟩ := checkCall_ok.mp checked
      obtain rfl := Option.some.inj ((there node present _).symm.trans found)
      exact ⟨node, rfl, takes, rfl, rfl⟩
    · rintro ⟨_, rfl, takes, rfl, rfl⟩
      exact ⟨(), g, checkCall_ok.mpr ⟨takes, rfl⟩, (), _, rfl, (), _, rfl, _, _,
        ⟨_, _, ⟨rfl, rfl⟩, there node present _, rfl⟩, rfl, rfl⟩

theorem markComplete_ok : markComplete index g = .ok () h ↔ ∃ node, g.nodes[index]? = some node ∧
    (node.sealed = true ∧ h = g ∨ node.sealed = false ∧ node.ready = true ∧
      h = { g with nodes := g.nodes.modify index ({ · with sealed := true }) }) := by
  simp only [markComplete, nodeAt, modifyNode, bind_ok, get_ok, inRange_ok]
  constructor
  · rintro ⟨node, _, ⟨_, _, ⟨rfl, rfl⟩, present, rfl⟩, ok⟩
    refine ⟨node, present, ?_⟩
    by_cases done : node.sealed = true
    · rw [if_pos done, pure_ok] at ok
      exact .inl ⟨done, ok.2.symm⟩
    · rw [if_neg done] at ok
      simp only [bind_ok, maintain_ok, modify_ok] at ok
      obtain ⟨_, _, ⟨ready, rfl⟩, rfl⟩ := ok
      exact .inr ⟨by simpa using done, ready, rfl⟩
  · rintro ⟨node, present, ⟨done, rfl⟩ | ⟨open_, ready, rfl⟩⟩
    · exact ⟨node, _, ⟨_, _, ⟨rfl, rfl⟩, present, rfl⟩, by simp [done]⟩
    · exact ⟨node, g, ⟨_, _, ⟨rfl, rfl⟩, present, rfl⟩, by simp [open_, ready]⟩

theorem finishNodes_ok {nodes : List FuncletNode} {first : Nat} {x : Unit} :
    finishNodes first nodes g = .ok x h ↔
      (∀ node ∈ nodes, node.observed = node.declared ∧ node.sealed = true) ∧ g = h := by
  induction nodes generalizing first with
  | nil => simp [finishNodes]
  | cons node rest ih =>
      by_cases full : node.observed = node.declared
      · by_cases done : node.sealed = true <;> simp [finishNodes, full, done, ih]
      · simp [finishNodes, full]

theorem finish_ok : finish g = .ok () h ↔ (g.visited = g.size ∧
    (∀ node ∈ g.nodes, node.observed = node.declared ∧ node.sealed = true) ∧
      g.edges.all CallEdge.checked = true) ∧ g = h := by
  simp only [finish, bind_ok, get_ok, require_ok, maintain_ok, finishNodes_ok, Array.mem_toList_iff]
  constructor
  · rintro ⟨_, _, ⟨rfl, rfl⟩, _, _, ⟨all, rfl⟩, _, _, ⟨nodes, rfl⟩, checked, rfl⟩
    exact ⟨⟨all, nodes, checked⟩, rfl⟩
  · rintro ⟨⟨all, nodes, checked⟩, rfl⟩
    exact ⟨_, _, ⟨rfl, rfl⟩, (), _, ⟨all, rfl⟩, (), _, ⟨nodes, rfl⟩, checked, rfl⟩

end FuncletCalls

namespace Validation

variable {α β : Type} {calling : Prop} {place : Nat → Prop} {I : List OpenRegion → Array Region → Prop}
variable {setting : Setting} {s t : State} {index : Nat} {params : List ValueType}

/-- The parts of an instruction at a place of the given kind keep what holds of the regions. -/
structure PartsKeep (calling : Prop) (place : Nat → Prop) (I : List OpenRegion → Array Region → Prop) : Prop where
  call : ∀ {r outer closed offset target args polymorphic last g}, calling → place offset →
    I (r :: outer) closed →
      FuncletCalls.call target args polymorphic offset r.graph = .ok last g →
        I ({ r with graph := g } :: outer) closed
  complete : ∀ {r outer closed index g}, I (r :: outer) closed →
    FuncletCalls.markComplete index r.graph = .ok () g → I ({ r with graph := g } :: outer) closed
  opens : ∀ {r regions closed funclets}, place r.offset → I regions closed →
    FuncletCalls.ofSize? funclets = some r.graph → I (r :: regions) closed
  closes : ∀ {r record outer closed}, I (r :: outer) closed → FuncletCalls.finish r.graph = .ok () r.graph →
    OpenRegion.RecordedAs r record → I outer (closed.push record)

def KeepsRegions (place : Nat → Prop) (I : List OpenRegion → Array Region → Prop) (m : Step α) : Prop :=
  ∀ s a t, place s.start → I s.regions s.closed → m s = .ok a t →
    t.start = s.start ∧ I t.regions t.closed

theorem keepsRegions_bind {m : Step α} {f : α → Step β} (first : KeepsRegions place I m)
    (rest : ∀ a, KeepsRegions place I (f a)) : KeepsRegions place I (m >>= f) := by
  intro s b t here holds ok
  obtain ⟨a, u, ok, more⟩ := bind_ok.mp ok
  obtain ⟨start, holds⟩ := first s a u here holds ok
  obtain ⟨start', holds⟩ := rest a u b t (start.symm ▸ here) holds more
  exact ⟨start'.trans start, holds⟩

theorem keepsRegions_apart {m : Step α} (apart : ∀ s a t, m s = .ok a t →
    t.start = s.start ∧ t.regions = s.regions ∧ t.closed = s.closed) : KeepsRegions place I m := by
  intro s a t _ holds ok
  obtain ⟨start, regions, closed⟩ := apart s a t ok
  rw [regions, closed]
  exact ⟨start, holds⟩

theorem PartsKeep.parts (lasts : PartsKeep calling place I) : Parts calling (KeepsRegions place I) where
  pure a := keepsRegions_apart fun s _ t ok => by
    obtain ⟨_, rfl⟩ := pure_ok.mp ok
    exact ⟨rfl, rfl, rfl⟩
  throw e := keepsRegions_apart fun _ _ _ ok => (throw_ok.mp ok).elim
  bind := keepsRegions_bind
  stack change := keepsRegions_apart fun s _ t ok => by
    obtain ⟨_, _, rfl⟩ := onStack_ok.mp ok
    exact ⟨rfl, rfl, rfl⟩
  builder change := keepsRegions_apart fun s _ t ok => by
    obtain ⟨_, _, rfl⟩ := onBuilder_ok.mp ok
    exact ⟨rfl, rfl, rfl⟩
  control change := keepsRegions_apart fun s _ t ok => by
    obtain rfl := modify_ok.mp ok
    exact ⟨rfl, rfl, rfl⟩
  move block := keepsRegions_apart fun s _ t ok => by
    obtain rfl := moveTo_ok.mp ok
    exact ⟨rfl, rfl, rfl⟩
  lookStack := keepsRegions_apart fun s _ t ok => by cases ok; exact ⟨rfl, rfl, rfl⟩
  lookControl := keepsRegions_apart fun s _ t ok => by cases ok; exact ⟨rfl, rfl, rfl⟩
  lookCurrent := keepsRegions_apart fun s _ t ok => by cases ok; exact ⟨rfl, rfl, rfl⟩
  lookExit := keepsRegions_apart fun s _ t ok => by cases ok; exact ⟨rfl, rfl, rfl⟩
  lookRegion := keepsRegions_apart fun s _ t ok => by
    obtain ⟨_, _, look, ok⟩ := bind_ok.mp ok
    obtain ⟨_, rfl⟩ := openRegion_ok.mp look
    obtain ⟨_, rfl⟩ := pure_ok.mp ok
    exact ⟨rfl, rfl, rfl⟩
  lookRegions := keepsRegions_apart fun s _ t ok => by cases ok; exact ⟨rfl, rfl, rfl⟩
  call may target args polymorphic s last t here holds ok := by
    obtain ⟨r, outer, g, regions, called, rfl⟩ := onGraph_ok.mp ok
    rw [regions] at holds
    exact ⟨rfl, lasts.call may here holds called⟩
  complete index s _ t here holds ok := by
    obtain ⟨r, outer, g, regions, marked, rfl⟩ := onGraph_ok.mp ok
    rw [regions] at holds
    exact ⟨rfl, lasts.complete holds marked⟩
  enter sized signature depth blocks exit base s _ t here holds ok := by
    obtain rfl := modify_ok.mp ok
    exact ⟨rfl, lasts.opens here holds sized⟩
  close s _ t here holds ok := by
    obtain ⟨r, outer, g, frame, results, record, b, c, regions, finished, _, _, _, yields, rfl⟩ :=
      closeRegion_ok ok
    obtain ⟨_, rfl⟩ := FuncletCalls.finish_ok.mp finished
    rw [regions] at holds
    exact ⟨rfl, lasts.closes holds finished yields⟩

/-- What holds of the regions is kept where funclets start, too. -/
structure StartsKeep (calling : Prop) (place : Nat → Prop) (I : List OpenRegion → Array Region → Prop) : Prop
    extends PartsKeep calling place I where
  enter : ∀ {r outer closed index g}, I (r :: outer) closed →
    FuncletCalls.enter index r.graph = .ok () g → I ({ r with graph := g } :: outer) closed
  declare : ∀ {r outer closed index params declared explicit g}, I (r :: outer) closed →
    FuncletCalls.declare index params declared explicit r.graph = .ok () g →
      I ({ r with graph := g } :: outer) closed
  infer : ∀ {r outer closed index params g}, I (r :: outer) closed →
    FuncletCalls.infer index r.graph = .ok params g → I ({ r with graph := g } :: outer) closed

/-- A funclet that begins with its parameters settled may be complete at once. -/
theorem beginFunclet_regions (ok : beginFunclet index params s = .ok () t) :
    t.start = s.start ∧ t.closed = s.closed ∧ (t.regions = s.regions ∨
      ∃ r outer g, s.regions = r :: outer ∧ FuncletCalls.markComplete index r.graph = .ok () g ∧
        t.regions = { r with graph := g } :: outer) := by
  unfold beginFunclet at ok
  obtain ⟨frame, _, top, ok⟩ := bind_ok.mp ok
  obtain ⟨_, rfl⟩ := innermost_ok.mp top
  obtain ⟨_, _, needs, ok⟩ := bind_ok.mp ok
  obtain ⟨_, rfl⟩ := require_ok.mp needs
  obtain ⟨region, _, inner, ok⟩ := bind_ok.mp ok
  obtain ⟨_, rfl⟩ := openRegion_ok.mp inner
  obtain ⟨block, _, found, ok⟩ := bind_ok.mp ok
  obtain ⟨_, rfl⟩ := blockOf_ok.mp found
  obtain ⟨_, _, declares, ok⟩ := bind_ok.mp ok
  obtain ⟨b, _, rfl⟩ := onBuilder_ok.mp declares
  obtain ⟨ready, u, asks, ok⟩ := bind_ok.mp ok
  have same : u = { s with builder := b } := by
    obtain ⟨r, outer, g, regions, read, rfl⟩ := onGraph_ok.mp asks
    simp only [FuncletCalls.ready, FuncletCalls.nodeAt, bind_ok, get_ok, inRange_ok, pure_ok] at read
    obtain ⟨_, _, ⟨_, _, ⟨rfl, rfl⟩, _, rfl⟩, _, rfl⟩ := read
    exact congrArg (fun regions => { s with builder := b, regions }) regions.symm
  have moved (v w : State) (ok : (do
      moveTo block
      let args ← onBuilder (Ssa.Builder.args block)
      onStack (TypedStack.reset (TypedStack.withValues params (args.map some)))) v = .ok () w) :
      w.start = v.start ∧ w.closed = v.closed ∧ w.regions = v.regions := by
    simp only [bind_ok, moveTo_ok, onBuilder_ok, onStack_ok] at ok
    obtain ⟨_, _, rfl, _, _, ⟨_, _, rfl⟩, _, _, rfl⟩ := ok
    exact ⟨rfl, rfl, rfl⟩
  rw [same] at ok
  split at ok
  · obtain ⟨_, v, completes, ok⟩ := bind_ok.mp ok
    obtain ⟨r, outer, g, _, c, regions, marked, _, _, rfl⟩ := completeFunclet_ok.mp completes
    obtain ⟨start, closed, last⟩ := moved _ _ ok
    exact ⟨start, closed, .inr ⟨r, outer, g, regions, marked, last⟩⟩
  · obtain ⟨start, closed, last⟩ := moved _ _ ok
    exact ⟨start, closed, .inl last⟩

namespace StartsKeep

variable {pieces : List Encoding.Piece}

theorem begins (abides : StartsKeep calling place I) (holds : I s.regions s.closed)
    (ok : beginFunclet index params s = .ok () t) : I t.regions t.closed := by
  obtain ⟨-, closed, same | ⟨r, outer, g, regions, marked, last⟩⟩ := beginFunclet_regions ok
  · rwa [closed, same]
  · rw [regions] at holds
    rw [closed, last]
    exact abides.complete holds marked

theorem onGraph {change : Attempt FuncletCalls α} {a : α}
    (keeps : ∀ {r outer closed g}, I (r :: outer) closed → change r.graph = .ok a g →
      I ({ r with graph := g } :: outer) closed)
    (holds : I s.regions s.closed) (ok : Validation.onGraph change s = .ok a t) :
    I t.regions t.closed := by
  obtain ⟨r, outer, g, regions, changed, rfl⟩ := onGraph_ok.mp ok
  rw [regions] at holds
  exact keeps holds changed

theorem settles (abides : StartsKeep calling place I) {header : Option Decode.FuncletHeader}
    (holds : I s.regions s.closed) (ok : settleFunclet index header s = .ok params t) :
    I t.regions t.closed := by
  cases header with
  | some header =>
      obtain ⟨_, u, declares, ok⟩ := bind_ok.mp ok
      obtain ⟨_, rfl⟩ := pure_ok.mp ok
      exact onGraph abides.declare holds declares
  | none =>
      unfold settleFunclet at ok
      dsimp only at ok
      split at ok
      · obtain ⟨_, u, declares, ok⟩ := bind_ok.mp ok
        obtain ⟨_, rfl⟩ := pure_ok.mp ok
        exact onGraph abides.declare holds declares
      · exact onGraph abides.infer holds ok

theorem starts (abides : StartsKeep calling place I) (holds : I s.regions s.closed)
    (ok : startFunclet setting index s = .ok () t) : I t.regions t.closed := by
  obtain ⟨u, header, d, params, v, entered, _, settled, began⟩ := startFunclet_reads.mp ok
  have holds := onGraph (s := { s with start := s.cursor.offset }) abides.enter holds entered
  exact abides.begins (abides.settles (s := u.moved d _) holds settled) began

theorem next (abides : StartsKeep calling place I) (holds : I s.regions s.closed)
    (ok : nextFunclet setting s = .ok () t) : I t.regions t.closed := by
  obtain ⟨region, _, inner, ok⟩ := bind_ok.mp ok
  obtain ⟨_, rfl⟩ := openRegion_ok.mp inner
  split at ok
  · exact abides.starts holds ok
  · obtain ⟨r, outer, g, frame, results, record, b, c, regions, finished, _, _, _, yields, rfl⟩ :=
      closeRegion_ok ok
    obtain ⟨_, rfl⟩ := FuncletCalls.finish_ok.mp finished
    rw [regions] at holds
    exact abides.closes holds finished yields

theorem ends (abides : StartsKeep calling place I) (holds : I s.regions s.closed)
    (ok : endBlock setting s = .ok () t) : I t.regions t.closed := by
  obtain ⟨frame, _, top, ok⟩ := bind_ok.mp ok
  obtain ⟨_, rfl⟩ := innermost_ok.mp top
  split at ok
  · exact abides.next holds ok
  · simp only [bind_ok, onStack_ok, onBuilder_ok, moveTo_ok] at ok
    obtain ⟨_, _, ⟨_, _, rfl⟩, _, _, ⟨_, _, rfl⟩, rfl⟩ := ok
    exact holds

theorem executes (abides : StartsKeep calling place I) {i : Instruction} (may : i.Calls → calling)
    (here : place s.start) (holds : I s.regions s.closed) (ok : execute setting i s = .ok () t) :
    I t.regions t.closed := by
  obtain ⟨lead, made, _, same⟩ := execute_startsLast i
  rw [show execute setting i = _ from same setting] at ok
  obtain ⟨start, u, led, started⟩ := bind_ok.mp ok
  obtain ⟨-, holds⟩ := made _ (abides.parts.limit may) s start u here holds led
  cases start with
  | none =>
      obtain ⟨-, rfl⟩ := pure_ok.mp started
      exact holds
  | some index => exact abides.starts holds started

theorem step (abides : StartsKeep True place I) (here : place s.cursor.offset) (holds : I s.regions s.closed)
    (ok : Validation.step setting s = .ok () t) : I t.regions t.closed := by
  obtain ⟨i, c, _, executed⟩ := step_ok_iff.mp ok
  exact abides.executes (s := s.fetched c) (fun _ => trivial) here holds executed

theorem walk (abides : StartsKeep True place I) (walk : LineWalk setting s pieces t)
    (places : ∀ offset, s.cursor.offset ≤ offset → offset < t.cursor.offset → place offset)
    (holds : I s.regions s.closed) : I t.regions t.closed := by
  induction walk with
  | here s => exact holds
  | @step s t u p header pieces isOpen ok isHeader first walk ih =>
      have further := ((step_onward setting s).of_ok ok).2
      have behind := walk.consumes.behind.onward
      refine ih (fun offset after before => places offset (by omega) before) ?_
      exact abides.step (places _ (Nat.le_refl _) (by omega)) holds ok

end StartsKeep

end Validation

end WasmFunclets
