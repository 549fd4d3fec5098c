import WasmFunclets.TypedStack

/-! Which value stands in for another one, found without following replacements one by one. -/

namespace WasmFunclets.Ssa

/-- Ids fall into classes, and one member stands in for all of its class. A class has the number of
one of its members; the others are listed. An id without an entry is alone in its class. -/
structure Substitution where
  classes : Array Nat
  leaders : Array ValueId
  others : Array (Array ValueId)
  deriving DecidableEq, Repr, Inhabited

namespace Substitution

def empty : Substitution := ⟨#[], #[], #[]⟩

def extend (s : Substitution) : Substitution :=
  let id := s.classes.size
  ⟨s.classes.push id, s.leaders.push id, s.others.push #[]⟩

def classOf (s : Substitution) (id : ValueId) : Nat := s.classes[id]?.getD id

def apply (s : Substitution) (id : ValueId) : ValueId :=
  let number := s.classOf id
  s.leaders[number]?.getD number

def othersOf (s : Substitution) (number : Nat) : Array ValueId := s.others[number]?.getD #[]

/-- Moves the members of one class to another, and gives that one a leader. -/
def join (s : Substitution) (source target : Nat) (leader : ValueId) : Substitution :=
  let moved := (s.othersOf source).push source
  { classes := moved.foldl (fun classes id => classes.setIfInBounds id target) s.classes
    leaders := s.leaders.setIfInBounds target leader
    others := (s.others.setIfInBounds source #[]).modify target (· ++ moved) }

/-- Lets one leader stand in for all that another stood for. The smaller class moves. -/
def replace (s : Substitution) (old new : ValueId) : Substitution :=
  let source := s.classOf old
  let target := s.classOf new
  if (s.othersOf source).size ≤ (s.othersOf target).size then s.join source target new
  else s.join target source new

end Substitution

end WasmFunclets.Ssa
