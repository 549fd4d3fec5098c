import WasmFunclets.Proofs.Ssa.Lasts
import WasmFunclets.Ssa.Execution

/-! An instruction that is appended to a block of a function under construction is carried out where the
finished function has come to it. -/

namespace WasmFunclets.Ssa

open Attempt
open Machine (Action Event)

variable {V : Type} {b t u : Builder} {c : BlockId} {id : ValueId} {type : ValueType} {w : Value}
variable {content : Content} {x y z : Point V} {meaning : List (Event V) → V}

theorem Builder.Aliased.representative_plain (aliased : b.Aliased) (present : b.values[id]? = some w)
    (plain : w.phi? = none) : b.representative id = id := by
  by_contra replaced
  obtain ⟨p, isPhi, _⟩ := (aliased.replaced id).mp replaced
  rw [Builder.phiAt, present, Option.bind_some, plain] at isPhi
  cases isPhi

theorem Builder.value_appended (v : Value) : (b.appended c v).values[b.values.size]? = some v :=
  Array.getElem?_push_size

theorem Value.plain_of_action {action : Action} {operands : List ValueId}
    (acts : w.action? = some (action, operands)) : w.phi? = none := by
  obtain ⟨type, home, content⟩ := w
  cases content with
  | phi p => cases acts
  | _ => rfl

namespace Point

variable {operands : List ValueId} {values : List V} {action : Action}

theorem mapM_read (data : List.Forall₂ (fun o d => x.read b o = some d) operands values) :
    operands.mapM (x.read b) = some values := by
  induction data with
  | nil => rfl
  | cons first _ ih => rw [List.mapM_cons, first, ih]; rfl

def stepped (x : Point V) (meaning : List (Event V) → V) (id : ValueId) (event : Event V) : Point V :=
  { x with
    position := x.position + 1
    env := fun i => if i = id then some (meaning (event :: x.history)) else x.env i
    history := event :: x.history }

theorem read_stepped_other {event : Event V} {v : ValueId} (other : b.representative v ≠ id) :
    (x.stepped meaning id event).read b v = x.read b v := if_neg other

theorem read_stepped_self {event : Event V} (self : b.representative id = id) :
    (x.stepped meaning id event).read b id = some (meaning (event :: x.history)) := if_pos self

theorem perform_appended (inside : x.block < u.blocks.size)
    (ok : Builder.append x.block type content u = .ok id t) (lasts : t.Lasts b)
    (position : x.position = (u.bodyOf x.block).size)
    (acts : Value.action? ⟨type, some x.block, content⟩ = some (action, operands))
    (data : List.Forall₂ (fun o d => x.read b o = some d) operands values) :
    x.perform b meaning = some (x.stepped meaning id ⟨action, values⟩) := by
  obtain ⟨_, rfl, rfl⟩ := Builder.append_ok.mp ok
  have present := lasts.value (Builder.value_appended _) (Value.plain_of_action acts)
  obtain ⟨more, bodies⟩ := lasts.bodies x.block
  rw [Builder.bodyOf_appended _ inside] at bodies
  have listed : (b.bodyOf x.block)[x.position]? = some u.values.size := by
    rw [bodies, position, Array.getElem?_append_left (by simp), Array.getElem?_push_size]
  cases block : b.blocks[x.block]? with
  | none => simp [Builder.bodyOf, block] at listed
  | some k =>
      rw [Builder.bodyOf, block] at listed
      have listed : k.body[x.position]? = some u.values.size := listed
      simp only [perform, block, listed, present, acts, mapM_read data, bind, Option.bind, stepped]
      rfl

theorem position_appended {event : Event V} (inside : x.block < u.blocks.size)
    (ok : Builder.append x.block type content u = .ok id t)
    (position : x.position = (u.bodyOf x.block).size) :
    (x.stepped meaning id event).position = (t.bodyOf x.block).size := by
  obtain ⟨_, rfl, rfl⟩ := Builder.append_ok.mp ok
  rw [Builder.bodyOf_appended _ inside, Array.size_push, ← position]
  rfl

theorem Performs.trans (first : x.Performs b meaning y) (second : y.Performs b meaning z) :
    x.Performs b meaning z := by
  induction first with
  | refl => exact second
  | step next _ ih => exact .step next (ih second)

theorem Performs.goesTo (first : x.Performs b meaning y) (rest : y.GoesTo b meaning z) :
    x.GoesTo b meaning z := by
  cases rest with
  | within performs => exact .within (first.trans performs)
  | across performs follows => exact .across (first.trans performs) follows

theorem Performs.single (next : x.perform b meaning = some y) : x.Performs b meaning y :=
  .step next (.refl y)

end Point

end WasmFunclets.Ssa
