import WasmFunclets.Fault

/-! The stack of typed operands, with a floor that the innermost frame cannot reach below. -/

namespace WasmFunclets

abbrev ValueId := Nat

structure Operand where
  type : ValueType
  value : Option ValueId
  deriving DecidableEq, Repr

/-- A polymorphic stack, as unreachable code has, supplies any operand above its floor. -/
structure TypedStack where
  operands : Array Operand
  floor : Nat
  polymorphic : Bool
  deriving DecidableEq, Repr, Inhabited

/-- What a frame restores when it is left. -/
structure Mark where
  height : Nat
  floor : Nat
  polymorphic : Bool
  deriving DecidableEq, Repr

def ValueType.admits (actual expected : ValueType) : Bool :=
  actual == expected || actual == .any

namespace TypedStack

def empty : TypedStack := ⟨#[], 0, false⟩

def height (s : TypedStack) : Nat := s.operands.size

def available (s : TypedStack) : Nat := s.height - s.floor

def top (s : TypedStack) (n : Nat) : List Operand :=
  (s.operands.extract (s.height - min n s.available) s.height).toList

def typesFrom (s : TypedStack) (height : Nat) : List ValueType :=
  (s.operands.extract height s.height).toList.map Operand.type

/-- Whether operand types fit the expected ones, both from the topmost down; `more` says that
further operands of any type follow. -/
def fits (more : Bool) : List ValueType → List ValueType → Bool
  | _, [] => true
  | [], _ :: _ => more
  | actual :: below, expected :: rest => actual.admits expected && fits more below rest

def accepts (s : TypedStack) (expected : List ValueType) : Bool :=
  fits s.polymorphic ((s.top expected.length).map Operand.type).reverse expected.reverse

def holdsExactly (s : TypedStack) (expected : List ValueType) : Bool :=
  decide (s.available ≤ expected.length) && s.accepts expected

def topType (s : TypedStack) : ValueType :=
  if s.height = s.floor then if s.polymorphic then .any else .null
  else (s.operands.back?.map Operand.type).getD .null

/-- Cuts the stack down to a height, or fills it up with operands that have no value. -/
def resize (s : TypedStack) (height : Nat) : TypedStack :=
  let missing := height - s.height
  { s with operands := s.operands.shrink height ++ Array.replicate missing ⟨.null, none⟩ }

def mark (s : TypedStack) : Mark := ⟨s.height, s.floor, s.polymorphic⟩

def operandsFrom (s : TypedStack) (height : Nat) : Option (List Operand) :=
  if height ≤ s.height then some (s.operands.extract height s.height).toList else none

def push (operand : Operand) : Attempt TypedStack Unit :=
  modify fun s => { s with operands := s.operands.push operand }

def pushAll (operands : List Operand) : Attempt TypedStack Unit :=
  modify fun s => { s with operands := operands.foldl Array.push s.operands }

/-- Takes the top operand as it is. -/
def pop : Attempt TypedStack Operand := do
  let s ← get
  if s.height = s.floor then
    if s.polymorphic then pure ⟨.any, none⟩ else reject (.underflow none)
  else
    match s.operands.back? with
    | some operand =>
        modify fun s => { s with operands := s.operands.pop }
        pure operand
    | none => reject (.underflow none)

def popType (expected : ValueType) : Attempt TypedStack Operand := do
  let s ← get
  if s.height = s.floor then
    if s.polymorphic then pure ⟨expected, none⟩ else reject (.underflow (some expected))
  else
    require (s.topType.admits expected) (.operandMismatch [expected] [s.topType])
    pure { ← pop with type := expected }

/-- Takes as many operands as types, the last type on top, or none at all. -/
def popTypes (expected : List ValueType) : Attempt TypedStack (List Operand) := do
  let s ← get
  let taken := s.top expected.length
  require (s.accepts expected) (.operandMismatch expected (taken.map Operand.type))
  modify fun s => s.resize (s.height - taken.length)
  let conjured := List.replicate (expected.length - taken.length) none
  pure (List.zipWith Operand.mk expected (conjured ++ taken.map Operand.value))

/-- Opens a frame: its parameters are moved above a new floor. The mark lies below them. -/
def enter (params : List ValueType) : Attempt TypedStack Mark := do
  pushAll (← popTypes params)
  let s ← get
  let base := s.height - params.length
  set { s with floor := base, polymorphic := false }
  pure ⟨base, s.floor, s.polymorphic⟩

def leave (saved : Mark) : Attempt TypedStack Unit :=
  modify fun s =>
    { s.resize saved.height with floor := saved.floor, polymorphic := saved.polymorphic }

def withValues (types : List ValueType) (values : List (Option ValueId)) : List Operand :=
  List.zipWith Operand.mk types (values ++ List.replicate (types.length - values.length) none)

def reset (operands : List Operand) : Attempt TypedStack Unit := do
  modify fun s => { s.resize s.floor with polymorphic := false }
  pushAll operands

def becomePolymorphic : Attempt TypedStack Unit :=
  modify fun s => { s.resize s.floor with polymorphic := true }

end TypedStack

end WasmFunclets
