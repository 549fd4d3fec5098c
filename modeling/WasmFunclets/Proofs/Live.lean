import WasmFunclets.Proofs.Agreement
import WasmFunclets.Proofs.Exits

/-! The stack machine runs accepted bodies without a flaw: at every point that it reaches, its stack
and its labels are what the validation found there. -/

namespace WasmFunclets

def Signature.ValueTyped (s : Signature) : Prop := ∀ t ∈ s.params ++ s.results, t.isValue = true

structure Context.ValueTyped (c : Context) : Prop where
  types : ∀ s ∈ c.types, s.ValueTyped
  functions : ∀ s ∈ c.functions, s.ValueTyped
  globals : ∀ g ∈ c.globals, g.type.isValue = true
  signature : c.signature.ValueTyped

namespace Machine

open Validation Attempt

variable {V : Type}

/-- The course of the validation of the body that a program stands for. -/
structure Described (p : Program V) (setting : Setting) (states : Nat → State) : Prop where
  course : Course setting p.code states
  context : p.context = setting.context
  params : p.params = paramsIn (states p.code.length).closed
  locals : p.locals = (states 0).builder.locals.toList
  valueTyped : setting.context.ValueTyped
  localsTyped : ∀ t ∈ p.locals, t.isValue = true

/-- Layers that are the same up to what changes while they are open. -/
structure Alike (l m : Layer) : Prop where
  mark : m.frame.mark = l.frame.mark
  signature : m.frame.signature = l.frame.signature
  target : m.frame.target = l.frame.target
  loop : m.frame.construct = .loop ↔ l.frame.construct = .loop
  region : m.region.map OpenRegion.offset = l.region.map OpenRegion.offset
  blocks : m.region.map OpenRegion.blocks = l.region.map OpenRegion.blocks

theorem Alike.refl (l : Layer) : Alike l l := ⟨rfl, rfl, rfl, .rfl, rfl, rfl⟩

theorem Alike.symm {l m : Layer} (alike : Alike l m) : Alike m l :=
  ⟨alike.mark.symm, alike.signature.symm, alike.target.symm, alike.loop.symm, alike.region.symm,
    alike.blocks.symm⟩

theorem alike_of_later {l m : Layer} (later : l.Later m) : Alike l m := by
  have regions : m.region.map OpenRegion.offset = l.region.map OpenRegion.offset ∧
      m.region.map OpenRegion.blocks = l.region.map OpenRegion.blocks := by
    have regions := later.region
    revert regions
    cases l.region <;> cases m.region <;> intro regions <;> cases regions
    · exact ⟨rfl, rfl⟩
    · rename_i grown
      simp only [Option.map_some]
      rw [grown.same]
      exact ⟨rfl, rfl⟩
  exact ⟨by rw [later.frame], by rw [later.frame], by rw [later.frame], later.loop,
    regions.1, regions.2⟩

section

variable {states : Nat → State} {k n : Nat}

structure Labels (states : Nat → State) (k n : Nat) (label : Label) (l : Layer) : Prop where
  height : label.height = l.frame.mark.height
  signature : label.signature = l.frame.signature
  target : match label.target with
    | .behind => l.frame.construct ≠ .loop ∧ l.region = none
    | .again start => l.frame.construct = .loop ∧ Course.OpenSince states start n k
    | .funclets start offset =>
        l.region.map OpenRegion.offset = some offset ∧ Course.OpenSince states start n k

inductive Labelled (states : Nat → State) (k : Nat) : List Label → List Layer → Prop where
  | nil : Labelled states k [] []
  | cons {label : Label} {labels : List Label} {l : Layer} {outer : List Layer}
      (head : Labels states k outer.length label l) (tail : Labelled states k labels outer) :
      Labelled states k (label :: labels) (l :: outer)

theorem Labelled.length {labels : List Label} {layers : List Layer}
    (labelled : Labelled states k labels layers) : labels.length = layers.length := by
  induction labelled with
  | nil => rfl
  | cons _ _ ih => rw [List.length_cons, List.length_cons, ih]

theorem Labelled.drop {labels : List Label} {layers : List Layer}
    (labelled : Labelled states k labels layers) (d : Nat) :
    Labelled states k (labels.drop d) (layers.drop d) := by
  induction labelled generalizing d with
  | nil => simpa using .nil
  | cons head tail ih =>
      cases d with
      | zero => exact .cons head tail
      | succ d => exact ih d

/-- Labels stand for the same layers at another point if these are open all the way there. -/
theorem Labelled.move {labels : List Label} {layers later : List Layer} {j : Nat}
    (labelled : Labelled states k labels layers) (alike : List.Forall₂ Alike layers later)
    (above : ∀ m, min j k ≤ m → m ≤ max j k → layers.length ≤ (states m).layers.length) :
    Labelled states j labels later := by
  induction labelled generalizing later with
  | nil =>
      cases alike
      exact .nil
  | @cons label labels l outer head tail ih =>
      cases alike with
      | @cons _ m _ around same rest =>
          refine .cons ⟨by rw [head.height, same.mark], by rw [head.signature, same.signature], ?_⟩
            (ih rest fun m from_ upto => Nat.le_of_succ_le (above m from_ upto))
          have target := head.target
          have opened {start : Nat} (opened : Course.OpenSince states start outer.length k) :
              Course.OpenSince states start around.length j := by
            rw [← rest.length_eq]
            exact opened.move above
          cases shape : label.target with
          | behind =>
              rw [shape] at target
              refine ⟨fun isLoop => target.1 (same.loop.mp isLoop), ?_⟩
              have region := same.region
              rw [target.2, Option.map_none] at region
              exact Option.map_eq_none_iff.mp region
          | again start =>
              rw [shape] at target
              exact ⟨same.loop.mpr target.1, opened target.2⟩
          | funclets start offset =>
              rw [shape] at target
              exact ⟨same.region.trans target.1, opened target.2⟩

end

/-- What the machine is at a point of the code: its stack, its labels and its locals are those of
the validation, and nothing is unreachable. -/
structure Live (p : Program V) (states : Nat → State) (c : Config V) : Prop where
  inside : c.pc < p.code.length
  agrees : Agrees c (states c.pc).stack
  marks : ∀ l ∈ (states c.pc).layers, l.frame.mark.polymorphic = false
  labelled : Labelled states c.pc c.labels (states c.pc).layers
  locals : c.locals.map Typed.type = p.locals

def LiveOrEnded (p : Program V) (states : Nat → State) : Except Flaw (Outcome V) → Prop
  | .ok (.running c) => Live p states c
  | .ok _ => True
  | .error _ => False

/-- The machine in the middle of an instruction: all that is out of reach is as before. -/
structure Mid (p : Program V) (states : Nat → State) (c : Config V) : Prop where
  inside : c.pc < p.code.length
  marks : ∀ l ∈ (states c.pc).layers, l.frame.mark.polymorphic = false
  labelled : Labelled states c.pc c.labels (states c.pc).layers
  locals : c.locals.map Typed.type = p.locals
  floor : c.floor = (states c.pc).stack.floor
  above : c.floor ≤ c.stack.length
  below : (c.stack.take c.floor).map Typed.type =
    ((states c.pc).stack.operands.toList.take c.floor).map Operand.type
  known : ∀ x ∈ c.stack, x.type ≠ .any

variable {p : Program V} {setting : Setting} {states : Nat → State} {c d : Config V}

theorem Live.mid_of (live : Live p states c) {v : TypedStack} (beside : Beside c d)
    (agrees : Agrees d v) (rests : (states c.pc).stack.Rests v) : Mid p states d where
  inside := beside.pc ▸ live.inside
  marks := by rw [beside.pc]; exact live.marks
  labelled := by rw [beside.pc, beside.labels]; exact live.labelled
  locals := beside.locals.trans live.locals
  floor := by rw [agrees.floor, rests.floor, beside.pc]
  above := by
    rw [agrees.floor, agrees.length]
    exact agrees.above
  below := by
    rw [List.map_take, agrees.types, ← List.map_take, agrees.floor, rests.floor, rests.below,
      beside.pc]
  known := agrees.known

theorem Live.mid (live : Live p states c) : Mid p states c :=
  live.mid_of (.refl c) live.agrees (.refl live.agrees.above)

theorem Described.nestAt (described : Described p setting states) {k : Nat}
    (inside : k ≤ p.code.length) : p.nestAt k = (states k).nests :=
  described.course.nests_at inside

theorem Described.length_nestAt (described : Described p setting states) {k : Nat}
    (inside : k ≤ p.code.length) : (p.nestAt k).length = (states k).layers.length := by
  rw [described.nestAt inside, State.nests, List.length_map]

theorem alike_between (course : Course setting p.code states) {j k n : Nat}
    (first : j ≤ p.code.length) (second : k ≤ p.code.length)
    (above : ∀ m, min j k ≤ m → m ≤ max j k → n ≤ (states m).layers.length) :
    List.Forall₂ Alike (lowest n (states k).layers) (lowest n (states j).layers) := by
  rcases Nat.le_total k j with le | le
  · have later := course.stable le first fun m from_ upto => above m (by omega) (by omega)
    exact later.imp fun _ _ same => alike_of_later same
  · have later := course.stable le second fun m from_ upto => above m (by omega) (by omega)
    exact (later.imp fun _ _ same => (alike_of_later same).symm).flip

theorem Described.inside_of_layers (described : Described p setting states) {k : Nat}
    (inside : k ≤ p.code.length) (isOpen : (states k).layers ≠ []) : k < p.code.length := by
  rcases Nat.lt_or_eq_of_le inside with below | rfl
  · exact below
  · exact absurd described.course.last_layers isOpen

theorem Labelled.floor {k : Nat} (labelled : Labelled states k c.labels (states k).layers)
    (framed : Framed (states k)) : c.floor = (states k).stack.floor := by
  obtain ⟨l, outer, layers⟩ := framed.nested.cons
  rw [framed.floor l outer layers, Config.floor]
  rw [layers] at labelled
  generalize c.labels = labels at labelled
  cases labelled with
  | cons head _ => exact head.height

/-- The machine gets to another point with the labels that are open there. -/
theorem Mid.arrive (described : Described p setting states) (mid : Mid p states c) {e : Nat}
    (inside : d.pc ≤ p.code.length) (isOpen : (states d.pc).layers ≠ [])
    (labels : d.labels = c.labels.drop e)
    (size : (states d.pc).layers.length + e = (states c.pc).layers.length)
    (above : ∀ m, min d.pc c.pc ≤ m → m ≤ max d.pc c.pc →
      (states d.pc).layers.length ≤ (states m).layers.length)
    (locals : d.locals.map Typed.type = p.locals)
    (types : d.stack.map Typed.type = (states d.pc).stack.operands.toList.map Operand.type)
    (known : ∀ x ∈ d.stack, x.type ≠ .any) (finite : (states d.pc).stack.polymorphic = false) :
    Live p states d := by
  have within := described.inside_of_layers inside isOpen
  have framed := described.course.framed within
  have alike := alike_between described.course inside (Nat.le_of_lt mid.inside) above
  rw [lowest_length] at alike
  have cut : lowest (states d.pc).layers.length (states c.pc).layers =
      (states c.pc).layers.drop e := by
    rw [lowest]
    congr 1
    omega
  rw [cut] at alike
  have labelled : Labelled states d.pc d.labels (states d.pc).layers := by
    rw [labels]
    refine (mid.labelled.drop e).move alike fun m from_ upto => ?_
    rw [alike.length_eq]
    exact above m from_ upto
  refine ⟨within, ⟨types, known, finite, labelled.floor framed, framed.above⟩, ?_, labelled,
    locals⟩
  intro l member
  obtain ⟨i, below, rfl⟩ := List.getElem_of_mem member
  have length := alike.length_eq
  have same := alike.get (by rw [length]; exact below) below
  have before := mid.marks _ (List.mem_of_mem_drop (List.getElem_mem (by rw [length]; exact below)))
  rw [List.get_eq_getElem, List.get_eq_getElem] at same
  rw [same.mark]
  exact before

theorem Mid.types_take (mid : Mid p states c) {h : Nat} (le : h ≤ c.floor) :
    (c.stack.take h).map Typed.type =
      ((states c.pc).stack.operands.toList.take h).map Operand.type := by
  have shorter := congrArg (List.take h) mid.below
  rwa [← List.map_take, ← List.map_take, List.take_take, List.take_take, Nat.min_eq_left le]
    at shorter

end Machine

end WasmFunclets
