import WasmFunclets.Fault

/-! A cursor over the bytes of a body. -/

namespace WasmFunclets

structure Cursor where
  offset : Nat
  rest : List UInt8
  deriving DecidableEq, Repr, Inhabited

namespace Cursor

def ofBytes (bytes : List UInt8) : Cursor := ⟨0, bytes⟩

def isEmpty (c : Cursor) : Bool := c.rest.isEmpty

def atLeast : Nat → List UInt8 → Bool
  | 0, _ => true
  | _ + 1, [] => false
  | n + 1, _ :: rest => atLeast n rest

def hasLeft (c : Cursor) (n : Nat) : Bool := atLeast n c.rest

def advance (c : Cursor) (n : Nat) : Cursor := ⟨c.offset + n, c.rest.drop n⟩

def peek : Attempt Cursor UInt8 := do
  match (← get).rest with
  | [] => reject .unexpectedEnd
  | byte :: _ => pure byte

def next : Attempt Cursor UInt8 := do
  let c ← get
  match c.rest with
  | [] => reject .unexpectedEnd
  | byte :: rest =>
      set (Cursor.mk (c.offset + 1) rest)
      pure byte

def peekMany (n : Nat) : Attempt Cursor (List UInt8) := do
  let c ← get
  require (c.hasLeft n) .lengthOutOfBounds
  pure (c.rest.take n)

def skip (n : Nat) : Attempt Cursor Unit := do
  if (← get).hasLeft n then modify (advance · n) else throw .outOfRange

def takeMany (n : Nat) : Attempt Cursor (List UInt8) := do
  let bytes ← peekMany n
  modify (advance · n)
  pure bytes

def boundedBy (n : Nat) (cause : Cause) : Attempt Cursor Unit := do
  require ((← get).hasLeft n) cause

theorem atLeast_iff (n : Nat) (bytes : List UInt8) : atLeast n bytes = true ↔ n ≤ bytes.length := by
  induction n generalizing bytes with
  | zero => simp [atLeast]
  | succ n ih =>
      cases bytes with
      | nil => simp [atLeast]
      | cons _ rest => simp [atLeast, ih]

end Cursor

end WasmFunclets
