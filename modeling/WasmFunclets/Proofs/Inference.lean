import Mathlib.Data.List.Forall2
import WasmFunclets.Proofs.Signatures

/-! The parameters that a funclet without a header gets from the calls to it. The first call that knows all
of its arguments settles them, and yet the order of the calls does not matter: no other types would
agree with that call. -/

namespace WasmFunclets

open Attempt

namespace CallEdge

variable {edge other : CallEdge} {params : List ValueType}

/-- The arguments of a call are the last parameters, and all of them unless it is polymorphic; an
argument of type `any` stands for any parameter. -/
theorem agrees_iff : edge.agrees params = true ↔ ∃ first last, params = first ++ last ∧
    (edge.polymorphic = false → first = []) ∧
      List.Forall₂ (fun arg param => arg = param ∨ arg = .any) edge.args last := by
  have fits (last : List ValueType) (same : edge.args.length = last.length) :
      ((edge.args.zip last).all fun pair => pair.1 == pair.2 || pair.1 == .any) = true ↔
        List.Forall₂ (fun arg param => arg = param ∨ arg = .any) edge.args last := by
    rw [List.forall₂_iff_zip, List.all_eq_true]
    constructor
    · intro each
      refine ⟨same, fun {arg param} member => ?_⟩
      simpa using each (arg, param) member
    · rintro ⟨_, each⟩ ⟨arg, param⟩ member
      simpa using each member
  simp only [agrees, Bool.and_eq_true, decide_eq_true_eq, Bool.or_eq_true, beq_iff_eq]
  constructor
  · rintro ⟨⟨few, whole⟩, each⟩
    have length : edge.args.length = (params.drop (params.length - edge.args.length)).length := by
      rw [List.length_drop]
      omega
    refine ⟨params.take (params.length - edge.args.length), _, (List.take_append_drop _ _).symm, ?_,
      (fits _ length).mp each⟩
    intro direct
    have same : edge.args.length = params.length := by simpa [direct] using whole
    rw [same, Nat.sub_self, List.take_zero]
  · rintro ⟨first, last, rfl, whole, each⟩
    have same := each.length_eq
    have missing : (first ++ last).length - edge.args.length = first.length := by
      rw [List.length_append]
      omega
    refine ⟨⟨?_, ?_⟩, ?_⟩
    · rw [List.length_append]
      omega
    · cases known : edge.polymorphic with
      | true => exact .inl rfl
      | false =>
          right
          rw [whole known, List.nil_append, same]
    · rw [missing, List.drop_left]
      exact (fits last same).mpr each

theorem agrees_iff_eq (direct : edge.polymorphic = false) (known : .any ∉ edge.args) :
    edge.agrees params = true ↔ params = edge.args := by
  have same {args last : List ValueType}
      (each : List.Forall₂ (fun arg param => arg = param ∨ arg = .any) args last)
      (known : .any ∉ args) : last = args := by
    induction each with
    | nil => rfl
    | cons fits _ ih =>
        rw [List.mem_cons, not_or] at known
        rw [ih known.2, fits.resolve_right (Ne.symm known.1)]
  rw [agrees_iff]
  constructor
  · rintro ⟨first, last, rfl, whole, each⟩
    rw [whole direct, List.nil_append, same each known]
  · rintro rfl
    exact ⟨[], edge.args, rfl, fun _ => rfl, List.forall₂_same.mpr fun _ _ => .inl rfl⟩

def told (edge : CallEdge) : List ValueType × Bool := (edge.args, edge.polymorphic)

theorem agrees_of_told (same : edge.told = other.told) : edge.agrees params = other.agrees params := by
  have args : edge.args = other.args := congrArg Prod.fst same
  have polymorphic : edge.polymorphic = other.polymorphic := congrArg Prod.snd same
  rw [agrees, agrees, args, polymorphic]

end CallEdge

namespace FuncletCalls

variable {f g h : FuncletCalls} {index : Nat} {node : FuncletNode} {params : List ValueType}

def into (g : FuncletCalls) (index : Nat) : List CallEdge :=
  g.edges.toList.filter fun edge => edge.target == index

theorem nodup_callsTo (edges : Array CallEdge) (index : Nat) : (callsTo edges index).Nodup :=
  List.nodup_range.filter _

theorem Accounted.unchecked (accounted : g.Accounted) (present : g.nodes[index]? = some node)
    (undeclared : node.params = none) {n : Nat} (member : n ∈ node.incoming.toList) {edge : CallEdge}
    (found : g.edges[n]? = some edge) : edge.checked = false := by
  rw [(accounted.nodes present).incoming] at member
  obtain ⟨edge', found', target⟩ := mem_callsTo.mp member
  cases found.symm.trans found'
  obtain ⟨node', present', agrees⟩ := (accounted.edges found).target
  rw [target] at present'
  cases present.symm.trans present'
  rw [← Bool.not_eq_true]
  intro checked
  obtain ⟨types, declared, _⟩ := agrees checked
  rw [undeclared] at declared
  cases declared

def mismatch (index : Nat) (params : List ValueType) (edge : CallEdge) : Fault :=
  .invalid ⟨.forwardCallMismatch edge.caller edge.offset params edge.args, some index, none⟩

/-- Calls that have not been checked yet are checked in order, up to the first that disagrees. -/
theorem checkIncoming_outcome {numbers : List Nat} (once : numbers.Nodup)
    (unchecked : ∀ n ∈ numbers, ∀ edge, g.edges[n]? = some edge → edge.checked = false) :
    Ends (checkIncoming index params numbers) g
      (fun _ h => h.nodes = g.nodes ∧ ((numbers.filterMap fun n => g.edges[n]?).find?
        fun edge => !edge.agrees params) = none)
      fun e h => h.nodes = g.nodes ∧ ∃ edge, ((numbers.filterMap fun n => g.edges[n]?).find?
        fun edge => !edge.agrees params) = some edge ∧ e = mismatch index params edge := by
  induction numbers generalizing g with
  | nil => exact ⟨rfl, rfl⟩
  | cons n rest ih =>
      obtain ⟨new, once⟩ := List.nodup_cons.mp once
      have later : ∀ m ∈ rest, ∀ edge, g.edges[m]? = some edge → edge.checked = false :=
        fun m member => unchecked m (List.mem_cons_of_mem _ member)
      rw [checkIncoming, ends_bind, ends_get]
      cases found : g.edges[n]? with
      | none =>
          rw [List.filterMap_cons_none found]
          exact ih once later
      | some edge =>
          rw [List.filterMap_cons_some found]
          have open_ : edge.checked = false := unchecked n List.mem_cons_self edge found
          by_cases agrees : edge.agrees params = true
          · rw [List.find?_cons_of_neg (by simp [agrees])]
            simp only [open_, agrees, if_true, Bool.false_eq_true, if_false]
            -- the mark is at a call that is not looked at again
            have same : ∀ m ∈ rest, (g.edges.modify n ({ · with checked := true }))[m]? = g.edges[m]? := by
              intro m member
              have other : n ≠ m := fun here => new (here ▸ member)
              rw [Array.getElem?_modify, if_neg other]
            have calls : (rest.filterMap fun m => (g.edges.modify n ({ · with checked := true }))[m]?) =
                rest.filterMap fun m => g.edges[m]? := List.filterMap_congr same
            rw [← calls]
            refine ih (g := { g with edges := g.edges.modify n ({ · with checked := true }) }) once ?_
            intro m member edge' present
            exact later m member edge' (same m member ▸ present)
          · rw [List.find?_cons_of_pos (by simp [agrees])]
            simp only [open_, agrees, Bool.false_eq_true, if_false]
            exact ⟨rfl, edge, rfl, rfl⟩

def WaitsForParams (g : FuncletCalls) (index : Nat) : Prop :=
  ∃ node, g.nodes[index]? = some node ∧ node.entered = true ∧ node.params = none

def Common (calls : List CallEdge) (params : List ValueType) : Prop :=
  ∀ edge ∈ calls, edge.agrees params = true

theorem find?_disagrees {calls : List CallEdge} :
    (calls.find? fun edge => !edge.agrees params) = none ↔ Common calls params := by
  simp [Common]

theorem infer_unresolved (accounted : g.Accounted) (waits : g.WaitsForParams index)
    (polymorphic : ∀ edge ∈ g.into index, edge.polymorphic = true) :
    infer index g = .error (.invalid ⟨if (g.into index).isEmpty then .unreachableFunclet
      else .uninferableFunclet, some index, none⟩) g := by
  obtain ⟨node, present, entered, undeclared⟩ := waits
  have calls : g.edgesTo node = g.into index := accounted.edgesTo_eq present
  have empty : (g.into index).isEmpty = node.incoming.isEmpty := by
    have numbers := (accounted.nodes present).incoming
    rw [← Array.isEmpty_toList, numbers, Bool.eq_iff_iff, List.isEmpty_iff, List.isEmpty_iff, ← calls,
      edgesTo, List.filterMap_eq_nil_iff, numbers, List.eq_nil_iff_forall_not_mem]
    refine forall_congr' fun n => ⟨fun none_ member => ?_, fun out member => absurd member out⟩
    obtain ⟨edge, found, _⟩ := mem_callsTo.mp member
    rw [none_ member] at found
    cases found
  rw [empty]
  exact infer_error present entered undeclared (calls ▸ polymorphic)

/-- The first call that is not polymorphic settles the parameters, and the others are checked. -/
theorem infer_outcome (accounted : g.Accounted) (waits : g.WaitsForParams index) {first : CallEdge}
    (found : (g.into index).find? (fun edge => !edge.polymorphic) = some first) :
    Ends (infer index) g
      (fun params h => params = first.args ∧ Common (g.into index) first.args ∧
        ∃ later, h.nodes[index]? = some later ∧ later.params = some first.args)
      fun e _ => ∃ edge, ((g.into index).find? fun edge => !edge.agrees first.args) = some edge ∧
        e = mismatch index first.args edge := by
  obtain ⟨node, present, entered, undeclared⟩ := waits
  have calls : g.edgesTo node = g.into index := accounted.edgesTo_eq present
  simp only [infer, nodeAt, modifyNode, ends_bind, ends_get, ends_inRange, ends_maintain]
  refine ⟨?_, by simp [present]⟩
  intro node' same
  cases present.symm.trans same
  refine ⟨fun _ => ?_, fun out => absurd ⟨entered, by simp [undeclared]⟩ out⟩
  rw [calls, found]
  dsimp only
  rw [ends_bind, ends_modify, ends_bind]
  have once : node.incoming.toList.Nodup := by
    rw [(accounted.nodes present).incoming]
    exact nodup_callsTo _ _
  have unchecked : ∀ n ∈ node.incoming.toList, ∀ edge, g.edges[n]? = some edge → edge.checked = false :=
    fun n member edge => accounted.unchecked present undeclared member
  refine (checkIncoming_outcome (g := { g with nodes := g.nodes.modify index _ }) once unchecked).mono ?_ ?_
  all_goals rw [← calls]
  · rintro _ h ⟨nodes, agree⟩
    refine ⟨rfl, find?_disagrees.mp agree, { node with params := some first.args }, ?_, rfl⟩
    rw [nodes, Array.getElem?_modify, if_pos rfl, present]
    rfl
  · rintro e h ⟨_, edge, disagrees, rfl⟩
    exact ⟨edge, disagrees, rfl⟩

theorem Common.eq {calls : List CallEdge} {first : CallEdge} (common : Common calls params)
    (member : first ∈ calls) (direct : first.polymorphic = false) (known : .any ∉ first.args) :
    params = first.args :=
  (CallEdge.agrees_iff_eq direct known).mp (common first member)

/-- What is inferred for a funclet: the only types that all calls to it agree with, provided that one of
the calls is not polymorphic. -/
structure Infers (g : FuncletCalls) (index : Nat) : Prop where
  succeeds_iff : (∃ params h, infer index g = .ok params h) ↔
    (∃ edge ∈ g.into index, edge.polymorphic = false) ∧ ∃ params, Common (g.into index) params
  settles : ∀ params h, infer index g = .ok params h → Common (g.into index) params ∧
    (∀ other, Common (g.into index) other → other = params) ∧
      ∃ later, h.nodes[index]? = some later ∧ later.params = some params
  unresolved : (∀ edge ∈ g.into index, edge.polymorphic = true) →
    ∃ cause, cause.kind = .unresolvedSignature ∧
      infer index g = .error (.invalid ⟨cause, some index, none⟩) g
  mismatched : ∀ first, (g.into index).find? (fun edge => !edge.polymorphic) = some first →
    (¬ ∃ params, Common (g.into index) params) → ∃ edge h,
      (g.into index).find? (fun edge => !edge.agrees first.args) = some edge ∧
        infer index g = .error (mismatch index first.args edge) h

theorem Accounted.infers (accounted : g.Accounted) (waits : g.WaitsForParams index)
    (known : ∀ edge ∈ g.into index, edge.polymorphic = false → .any ∉ edge.args) : g.Infers index := by
  have unresolved (all : ∀ edge ∈ g.into index, edge.polymorphic = true) :=
    infer_unresolved accounted waits all
  have only {first : CallEdge} (found : (g.into index).find? (fun edge => !edge.polymorphic) = some first)
      {params : List ValueType} (common : Common (g.into index) params) : params = first.args := by
    have direct : first.polymorphic = false := by simpa using List.find?_some found
    have member := List.mem_of_find?_eq_some found
    exact common.eq member direct (known first member direct)
  have search : (∀ edge ∈ g.into index, edge.polymorphic = true) ∨
      ∃ first, (g.into index).find? (fun edge => !edge.polymorphic) = some first := by
    cases found : (g.into index).find? fun edge => !edge.polymorphic with
    | none => exact .inl (by simpa using found)
    | some first => exact .inr ⟨first, rfl⟩
  refine ⟨⟨?_, ?_⟩, ?_, ?_, ?_⟩
  · rintro ⟨params, h, ok⟩
    rcases search with all | ⟨first, found⟩
    · rw [unresolved all] at ok
      cases ok
    · obtain ⟨_, common, _⟩ := (infer_outcome accounted waits found).of_ok ok
      have direct : first.polymorphic = false := by simpa using List.find?_some found
      exact ⟨⟨first, List.mem_of_find?_eq_some found, direct⟩, first.args, common⟩
  · rintro ⟨⟨edge, member, direct⟩, params, common⟩
    rcases search with all | ⟨first, found⟩
    · rw [all edge member] at direct
      cases direct
    · cases outcome : infer index g with
      | ok params h => exact ⟨params, h, rfl⟩
      | error e h =>
          obtain ⟨bad, disagrees, _⟩ := (infer_outcome accounted waits found).of_error outcome
          rw [find?_disagrees.mpr (only found common ▸ common)] at disagrees
          cases disagrees
  · intro params h ok
    rcases search with all | ⟨first, found⟩
    · rw [unresolved all] at ok
      cases ok
    · obtain ⟨rfl, common, settled⟩ := (infer_outcome accounted waits found).of_ok ok
      exact ⟨common, fun other agree => only found agree, settled⟩
  · intro all
    refine ⟨_, ?_, unresolved all⟩
    split
    · rfl
    · rfl
  · intro first found none_
    cases outcome : infer index g with
    | ok params h =>
        obtain ⟨_, common, _⟩ := (infer_outcome accounted waits found).of_ok outcome
        exact absurd ⟨_, common⟩ none_
    | error e h =>
        obtain ⟨bad, disagrees, rfl⟩ := (infer_outcome accounted waits found).of_error outcome
        exact ⟨bad, h, disagrees, rfl⟩

theorem Common.of_perm {calls others : List CallEdge} (common : Common calls params)
    (same : (calls.map CallEdge.told).Perm (others.map CallEdge.told)) : Common others params := by
  intro edge member
  have listed := same.mem_iff.mpr (List.mem_map_of_mem member)
  obtain ⟨twin, member', told⟩ := List.mem_map.mp listed
  rw [← CallEdge.agrees_of_told told]
  exact common twin member'

theorem Infers.of_perm {index' : Nat} (one : g.Infers index) (other : h.Infers index')
    (same : ((g.into index).map CallEdge.told).Perm ((h.into index').map CallEdge.told))
    (inferred : ∃ t, infer index g = .ok params t) : ∃ t, infer index' h = .ok params t := by
  obtain ⟨t, ok⟩ := inferred
  obtain ⟨common, _, _⟩ := one.settles params t ok
  obtain ⟨⟨edge, member, direct⟩, _⟩ := one.succeeds_iff.mp ⟨params, t, ok⟩
  have listed := same.mem_iff.mp (List.mem_map_of_mem member)
  obtain ⟨twin, member', told⟩ := List.mem_map.mp listed
  have direct' : twin.polymorphic = false := (congrArg Prod.snd told).trans direct
  obtain ⟨params', u, ok'⟩ := other.succeeds_iff.mpr ⟨⟨twin, member', direct'⟩, params, common.of_perm same⟩
  obtain ⟨_, only, _⟩ := other.settles params' u ok'
  rw [only params (common.of_perm same)]
  exact ⟨u, ok'⟩

end FuncletCalls

end WasmFunclets
