import WasmFunclets.ValueType

/-! What a function body can refer to outside of itself. -/

namespace WasmFunclets

structure GlobalType where
  type : ValueType
  isMutable : Bool
  deriving DecidableEq, Repr

structure Context where
  types : Array Signature
  functions : Array Signature
  globals : Array GlobalType
  hasMemory : Bool
  signature : Signature
  deriving DecidableEq, Repr

namespace Context

def ofSignature (signature : Signature) : Context := ⟨#[], #[], #[], false, signature⟩

end Context

end WasmFunclets
