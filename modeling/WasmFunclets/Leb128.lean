import WasmFunclets.Cursor

/-! Variable-length integers: seven bits a byte, lowest first, every byte but the last with its high
bit set. -/

namespace WasmFunclets.Leb128

open Cursor

def signedGroup (payload : Nat) : Int :=
  if payload < 64 then payload else (payload : Int) - 128

def fitsUnsigned (bits value : Nat) : Bool := decide (value < Nat.pow 2 bits)

def fitsSigned (bits : Nat) (value : Int) : Bool :=
  let limit : Int := Nat.pow 2 (bits - 1)
  decide (-limit ≤ value) && decide (value < limit)

/-- Reads up to `more` full groups and a last one of `last` bits. -/
def unsignedGroups : Nat → Nat → Attempt Cursor Nat
  | 0, last => do
      let byte := (← next).toNat
      if byte < 128 then
        require (fitsUnsigned last byte = true) .integerTooLarge
        pure byte
      else reject .integerTooLong
  | more + 1, last => do
      let byte := (← next).toNat
      if byte < 128 then pure byte
      else pure (byte - 128 + 128 * (← unsignedGroups more last))

def signedGroups : Nat → Nat → Attempt Cursor Int
  | 0, last => do
      let byte := (← next).toNat
      if byte < 128 then
        let value := signedGroup byte
        require (fitsSigned last value = true) .integerTooLarge
        pure value
      else reject .integerTooLong
  | more + 1, last => do
      let byte := (← next).toNat
      if byte < 128 then pure (signedGroup byte)
      else pure (byte - 128 + 128 * (← signedGroups more last))

def unsigned (width : Nat) : Attempt Cursor Nat :=
  unsignedGroups ((width - 1) / 7) ((width - 1) % 7 + 1)

def signed (width : Nat) : Attempt Cursor Int :=
  signedGroups ((width - 1) / 7) ((width - 1) % 7 + 1)

end WasmFunclets.Leb128
