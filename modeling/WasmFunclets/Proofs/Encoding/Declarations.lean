import Mathlib.Algebra.Ring.Nat
import WasmFunclets.Proofs.Encoding.Unique

/-! The declarations of locals: runs of locals of one type, behind the parameters. They are read if their
types are known and if there is room for them, and whatever is read, there are never more locals than
the limit allows, or than there are parameters. -/

namespace WasmFunclets

open Attempt

namespace Encoding

inductive OfDeclaration : Nat × UInt8 → List UInt8 → Prop where
  | mk {n : Nat} {byte : UInt8} {count : List UInt8} (number : Unsigned 32 n count) :
      OfDeclaration (n, byte) (count ++ [byte])

inductive OfDeclarations : List (Nat × UInt8) → List UInt8 → Prop where
  | mk {declarations : List (Nat × UInt8)} {count e : List UInt8}
      (size : Unsigned 32 declarations.length count)
      (each : Sequence OfDeclaration declarations e) : OfDeclarations declarations (count ++ e)

def typed (declaration : Nat × UInt8) : Nat × ValueType :=
  (declaration.1, ValueType.ofByte declaration.2)

def untyped (run : Nat × ValueType) : Nat × UInt8 := (run.1, run.2.byte)

theorem declaration_free : PrefixFree OfDeclaration := by
  intro a b e e' r r' one two same
  obtain ⟨number⟩ := one
  obtain ⟨number'⟩ := two
  rw [List.append_assoc, List.append_assoc] at same
  obtain ⟨rfl, rfl, rest⟩ := unsigned_free number number' same
  obtain ⟨rfl, rfl⟩ := List.cons.inj rest
  exact ⟨rfl, rfl, rfl⟩

theorem declarations_free : PrefixFree OfDeclarations := by
  intro a b e e' r r' one two same
  obtain ⟨number, each⟩ := one
  obtain ⟨number', each'⟩ := two
  exact free_counted declaration_free id number each number' each' same

theorem declarations_of_locals {runs : List (Nat × ValueType)} {e : List UInt8}
    (written : OfLocals runs e) : OfDeclarations (runs.map untyped) e := by
  have each {runs : List (Nat × ValueType)} {e : List UInt8} (sequence : Sequence OfRun runs e) :
      Sequence OfDeclaration (runs.map untyped) e := by
    induction sequence with
    | nil => exact .nil
    | cons first _ ih =>
        obtain ⟨number, ⟨_⟩⟩ := first
        exact .cons (.mk number) ih
  obtain ⟨number, sequence⟩ := written
  refine .mk ?_ (each sequence)
  rw [List.length_map]
  exact number

theorem locals_of_declarations {declarations : List (Nat × UInt8)} {e : List UInt8}
    (written : OfDeclarations declarations e)
    (known : ∀ d ∈ declarations, (ValueType.ofByte d.2).isValue = true) :
    OfLocals (declarations.map typed) e := by
  have each {declarations : List (Nat × UInt8)} {e : List UInt8}
      (sequence : Sequence OfDeclaration declarations e)
      (known : ∀ d ∈ declarations, (ValueType.ofByte d.2).isValue = true) :
      Sequence OfRun (declarations.map typed) e := by
    induction sequence with
    | nil => exact .nil
    | @cons d _ _ _ first _ ih =>
        obtain ⟨number⟩ := first
        have type := OfType.mk (known _ List.mem_cons_self)
        rw [ValueType.byte_ofByte] at type
        exact .cons (.mk number type) (ih fun d member => known d (List.mem_cons_of_mem _ member))
  obtain ⟨number, sequence⟩ := written
  refine .mk ?_ (each sequence known)
  rw [List.length_map]
  exact number

theorem typed_untyped {runs : List (Nat × ValueType)}
    (known : ∀ run ∈ runs, run.2.isValue = true) : (runs.map untyped).map typed = runs := by
  rw [List.map_map]
  refine (List.map_congr_left fun run member => ?_).trans (List.map_id runs)
  rw [Function.comp_apply, untyped, typed, ValueType.ofByte_byte (known run member)]
  rfl

theorem known_of_locals {runs : List (Nat × ValueType)} {e : List UInt8} (written : OfLocals runs e) :
    ∀ run ∈ runs, run.2.isValue = true := by
  obtain ⟨size, sequence⟩ := written
  clear size
  induction sequence with
  | nil => simp
  | cons first _ ih =>
      obtain ⟨_, ⟨known⟩⟩ := first
      intro run member
      rcases List.mem_cons.mp member with rfl | later
      · exact known
      · exact ih run later

end Encoding

namespace Decode

open Encoding

def RunsFit {α : Type} (size : Nat) (runs : List (Nat × α)) : Prop :=
  ∀ i run, runs[i]? = some run → run.1 = 0 ∨ size + ((runs.take (i + 1)).map Prod.fst).sum ≤ maxLocals

theorem roomLeft_iff_runsFit {size : Nat} {runs : List (Nat × ValueType)} :
    RoomLeft size runs ↔ RunsFit size runs := by
  induction runs generalizing size with
  | nil => simp [RoomLeft, RunsFit]
  | cons run runs ih =>
      rw [RoomLeft, ih]
      constructor
      · rintro ⟨few, later⟩ (_ | i) other found
        · obtain rfl := Option.some.inj found
          have : run.1 = 0 ∨ size + run.1 ≤ maxLocals := by omega
          simpa using this
        · simpa [Nat.add_assoc] using later i other found
      · intro fits
        refine ⟨?_, fun i other found => ?_⟩
        · have first : run.1 = 0 ∨ size + run.1 ≤ maxLocals := by simpa using fits 0 run rfl
          omega
        · simpa [Nat.add_assoc] using fits (i + 1) other found

theorem runsFit_map {α β : Type} {size : Nat} {runs : List (Nat × α)} {f : Nat × α → Nat × β}
    (same : ∀ run, (f run).1 = run.1) : RunsFit size (runs.map f) ↔ RunsFit size runs := by
  have counts (i : Nat) : (((runs.map f).take (i + 1)).map Prod.fst).sum =
      ((runs.take (i + 1)).map Prod.fst).sum := by
    rw [← List.map_take, List.map_map]
    refine congrArg List.sum (List.map_congr_left fun run _ => same run)
  unfold RunsFit
  constructor
  · intro fits i run found
    have := fits i (f run) (by rw [List.getElem?_map, found]; rfl)
    rwa [same, counts] at this
  · intro fits i run found
    rw [List.getElem?_map] at found
    obtain ⟨before, present, rfl⟩ := Option.map_eq_some_iff.mp found
    rw [same, counts]
    exact fits i before present

theorem locals_ok_iff {params : List ValueType} {declarations : List (Nat × UInt8)}
    {e rest : List UInt8} {offset : Nat} (written : OfDeclarations declarations e)
    {types : Array ValueType} {d : Cursor} :
    locals params ⟨offset, e ++ rest⟩ = .ok types d ↔
      (∀ d ∈ declarations, (ValueType.ofByte d.2).isValue = true) ∧ RunsFit params.length declarations ∧
        types = (params ++ declared (declarations.map typed)).toArray ∧ d = ⟨offset + e.length, rest⟩ := by
  rw [locals_parses]
  constructor
  · rintro ⟨e', ⟨runs, locals, room, rfl⟩, split, moved⟩
    have known := known_of_locals locals
    obtain ⟨rfl, rfl, rfl⟩ := declarations_free written (declarations_of_locals locals) split
    refine ⟨?_, ?_, by rw [typed_untyped known], ?_⟩
    · intro d member
      obtain ⟨run, listed, rfl⟩ := List.mem_map.mp member
      rw [untyped, ValueType.ofByte_byte (known run listed)]
      exact known run listed
    · exact (runsFit_map (f := untyped) fun _ => rfl).mpr (roomLeft_iff_runsFit.mp room)
    · exact Cursor.eq_iff.mpr ⟨rfl, moved.symm⟩
  · rintro ⟨known, fits, rfl, rfl⟩
    refine ⟨e, ⟨_, locals_of_declarations written known, ?_, rfl⟩, rfl, rfl⟩
    exact roomLeft_iff_runsFit.mpr ((runsFit_map (f := typed) fun _ => rfl).mpr fits)

def beside {α : Type} (read : Attempt Cursor α) : Attempt (Cursor × Array ValueType) α :=
  within Prod.fst (fun c s => (c, s.2)) read

/-- Reads runs into the locals declared so far, which stay also where the reader fails. -/
def extendLocals : Nat → Attempt (Cursor × Array ValueType) Unit
  | 0 => pure ()
  | runs + 1 => do
      let n ← beside index
      let type ← beside (valueType .invalidLocalType)
      require (n ≤ maxLocals - (← get).2.size) .tooManyLocals
      modify fun s => (s.1, s.2 ++ Array.replicate n type)
      extendLocals runs

def declareLocals : Attempt (Cursor × Array ValueType) Unit := do
  extendLocals (← beside index)

def yield : EStateM.Result Fault (Cursor × Array ValueType) Unit →
    EStateM.Result Fault Cursor (Array ValueType)
  | .ok () s => .ok s.2 s.1
  | .error e s => .error e s.1

theorem beside_eq {α : Type} (read : Attempt Cursor α) (c : Cursor) (types : Array ValueType) :
    beside read (c, types) = match read c with
      | .ok a d => .ok a (d, types)
      | .error e d => .error e (d, types) := by
  rw [beside, within]
  cases read c <;> rfl

theorem yield_bind {α : Type} (read : Attempt Cursor α) (c : Cursor) (types : Array ValueType)
    (rest : α → Attempt (Cursor × Array ValueType) Unit) (further : α → Attempt Cursor (Array ValueType))
    (same : ∀ a d, yield (rest a (d, types)) = further a d) :
    yield ((beside read >>= rest) (c, types)) = (read >>= further) c := by
  simp only [bind, EStateM.bind, beside_eq]
  cases read c with
  | ok a d => exact same a d
  | error e d => rfl

theorem yield_extendLocals (runs : Nat) (c : Cursor) (types : Array ValueType) :
    yield (extendLocals runs (c, types)) = localRuns runs types c := by
  induction runs generalizing c types with
  | zero => rfl
  | succ runs ih =>
      refine yield_bind index c types _ _ fun n c => yield_bind _ c types _ _ fun type c => ?_
      by_cases few : n ≤ maxLocals - types.size
      · have same : (require (n ≤ maxLocals - types.size) .tooManyLocals : Attempt Cursor Unit) = pure () :=
          if_pos few
        have same' : (require (n ≤ maxLocals - types.size) .tooManyLocals :
            Attempt (Cursor × Array ValueType) Unit) = pure () := if_pos few
        rw [same, pure_bind]
        change yield ((require (n ≤ maxLocals - types.size) .tooManyLocals >>= fun _ => _) (c, types)) = _
        rw [same', pure_bind]
        exact ih c _
      · have same : (require (n ≤ maxLocals - types.size) .tooManyLocals : Attempt Cursor Unit) =
          reject .tooManyLocals := if_neg few
        have same' : (require (n ≤ maxLocals - types.size) .tooManyLocals :
            Attempt (Cursor × Array ValueType) Unit) = reject .tooManyLocals := if_neg few
        rw [same]
        change yield ((require (n ≤ maxLocals - types.size) .tooManyLocals >>= fun _ => _) (c, types)) = _
        rw [same']
        rfl

theorem yield_declareLocals (params : List ValueType) (c : Cursor) :
    yield (declareLocals (c, params.toArray)) = locals params c :=
  yield_bind index c _ _ _ fun runs c => yield_extendLocals runs c _

theorem beside_keeps {α : Type} (read : Attempt Cursor α) (s : Cursor × Array ValueType) :
    Ends (beside read) s (fun _ t => t.2 = s.2) fun _ t => t.2 = s.2 :=
  ends_within.mpr (ends_of_forall (fun _ _ _ => rfl) fun _ _ _ => rfl)

theorem extendLocals_bounded {limit : Nat} (wide : maxLocals ≤ limit) (runs : Nat)
    (s : Cursor × Array ValueType) (inside : s.2.size ≤ limit) :
    Ends (extendLocals runs) s (fun _ t => t.2.size ≤ limit) fun _ t => t.2.size ≤ limit := by
  induction runs generalizing s with
  | zero => exact inside
  | succ runs ih =>
      rw [extendLocals, ends_bind]
      refine (beside_keeps index s).mono (fun n t same => ?_) fun _ _ same => same ▸ inside
      rw [ends_bind]
      refine (beside_keeps _ t).mono (fun type u same' => ?_) fun _ _ same' => same' ▸ same ▸ inside
      have kept : u.2.size ≤ limit := by
        rw [same', same]
        exact inside
      rw [ends_bind, ends_get, ends_bind, ends_require]
      refine ⟨fun few => ?_, fun _ => kept⟩
      rw [ends_bind, ends_modify]
      apply ih
      rw [Array.size_append, Array.size_replicate]
      omega

theorem declareLocals_bounded (params : List ValueType) (c : Cursor) :
    Ends declareLocals (c, params.toArray) (fun _ t => t.2.size ≤ max params.length maxLocals)
      fun _ t => t.2.size ≤ max params.length maxLocals := by
  rw [declareLocals, ends_bind]
  have inside : params.toArray.size ≤ max params.length maxLocals := Nat.le_max_left _ _
  refine (beside_keeps index _).mono (fun runs t same => ?_) fun _ _ same => same ▸ inside
  exact extendLocals_bounded (Nat.le_max_right _ _) runs t (same ▸ inside)

/-- Well-written declarations are read just if their types are known and each run that is not empty ends
within the limit, and then the locals are the parameters and the runs in their order. Whatever the
bytes are, the locals that are kept after any number of runs are never more than the limit, or than
there are parameters. -/
theorem locals_run_lengths (params : List ValueType) :
    (∀ declarations e, OfDeclarations declarations e → ∀ offset rest,
      ((∃ types d, locals params ⟨offset, e ++ rest⟩ = .ok types d) ↔
        (∀ d ∈ declarations, (ValueType.ofByte d.2).isValue = true) ∧
          ∀ i d, declarations[i]? = some d → d.1 = 0 ∨
            params.length + ((declarations.take (i + 1)).map Prod.fst).sum ≤ maxLocals) ∧
      ∀ types d, locals params ⟨offset, e ++ rest⟩ = .ok types d →
        types.toList = params ++
          declarations.flatMap (fun d => List.replicate d.1 (ValueType.ofByte d.2)) ∧
        d = ⟨offset + e.length, rest⟩) ∧
    (∀ c, locals params c = yield (declareLocals (c, params.toArray))) ∧
    (∀ c, (after declareLocals (c, params.toArray)).2.size ≤ max params.length maxLocals) ∧
    ∀ runs c, (after (extendLocals runs) (c, params.toArray)).2.size ≤ max params.length maxLocals := by
  refine ⟨?_, fun c => (yield_declareLocals params c).symm, fun c => ?_, fun runs c => ?_⟩
  · intro declarations e written offset rest
    constructor
    · constructor
      · rintro ⟨types, d, ok⟩
        obtain ⟨known, fits, _⟩ := (locals_ok_iff written).mp ok
        exact ⟨known, fits⟩
      · rintro ⟨known, fits⟩
        exact ⟨_, _, (locals_ok_iff written).mpr ⟨known, fits, rfl, rfl⟩⟩
    · intro types d ok
      obtain ⟨_, _, rfl, rfl⟩ := (locals_ok_iff written).mp ok
      refine ⟨?_, rfl⟩
      rw [declared, List.flatMap_map]
      rfl
  · exact (declareLocals_bounded params c).after
  · exact (extendLocals_bounded (Nat.le_max_right _ _) runs _ (Nat.le_max_left _ _)).after

/-- A padded count, an empty run, and one of as many locals as a count can tell. -/
theorem locals_run_lengths_padded :
    OfDeclarations [(2, 0x7e), (0, 0x7d)] [0x02, 0x82, 0x00, 0x7e, 0x00, 0x7d] ∧
      locals [.i32] ⟨0, [0x02, 0x82, 0x00, 0x7e, 0x00, 0x7d]⟩ = .ok #[.i32, .i64, .i64] ⟨6, []⟩ ∧
      OfDeclarations [(4294967295, 0x7f)] [0x01, 0xff, 0xff, 0xff, 0xff, 0x0f, 0x7f] ∧
      ¬ ∃ types d, locals [.i32] ⟨0, [0x01, 0xff, 0xff, 0xff, 0xff, 0x0f, 0x7f]⟩ = .ok types d := by
  have byte {n : UInt8} (final : n.toNat < 128) (fits : n.toNat < Nat.pow 2 32) :
      Unsigned 32 n.toNat [n] := .last final fits
  have two : Unsigned 32 2 [0x82, 0x00] :=
    @Unsigned.more 25 0 0x82 [0x00] (by decide) (by decide) (@Unsigned.last 25 0x00 (by decide) (by decide))
  have most : Unsigned 32 4294967295 [0xff, 0xff, 0xff, 0xff, 0x0f] :=
    @Unsigned.more 25 33554431 0xff _ (by decide) (by decide) <|
      @Unsigned.more 18 262143 0xff _ (by decide) (by decide) <|
        @Unsigned.more 11 2047 0xff _ (by decide) (by decide) <|
          @Unsigned.more 4 15 0xff _ (by decide) (by decide) <|
            @Unsigned.last 4 0x0f (by decide) (by decide)
  have few : OfDeclarations [(2, 0x7e), (0, 0x7d)]
      ([0x02] ++ ([0x82, 0x00] ++ [0x7e] ++ ([0x00] ++ [0x7d] ++ []))) := by
    refine .mk (byte (n := 2) (by decide) (by decide)) (.cons (.mk two) (.cons (.mk ?_) .nil))
    exact byte (n := 0) (by decide) (by decide)
  have many : OfDeclarations [(4294967295, 0x7f)]
      ([0x01] ++ ([0xff, 0xff, 0xff, 0xff, 0x0f] ++ [0x7f] ++ [])) :=
    .mk (byte (n := 1) (by decide) (by decide)) (.cons (.mk most) .nil)
  obtain ⟨reads, _⟩ := locals_run_lengths [.i32]
  refine ⟨few, ?_, many, fun ok => ?_⟩
  · obtain ⟨⟨_, succeeds⟩, result⟩ := reads _ _ few 0 []
    obtain ⟨types, d, ok⟩ := succeeds ⟨by decide, by
      rintro (_ | _ | i) d found <;> simp at found <;> subst found <;> simp [maxLocals]⟩
    obtain ⟨list, rfl⟩ := result types d ok
    have all : types = #[.i32, .i64, .i64] := Array.ext' list
    exact all ▸ ok
  · obtain ⟨_, fits⟩ := (reads _ _ many 0 []).1.mp ok
    have := fits 0 _ rfl
    simp [maxLocals] at this

end Decode

end WasmFunclets
