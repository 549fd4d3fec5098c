import WasmFunclets.Fault

/-! The one-line text of a refusal. -/

namespace WasmFunclets

structure Diagnostic where
  kind : Option ErrorKind
  message : String
  offset : Option Nat
  funclet : Option Nat
  expected : Option (List ValueType)
  actual : Option (List ValueType)
  deriving DecidableEq, Repr

namespace Diagnostic

def kindText (kind : Option ErrorKind) : String := (kind.map ErrorKind.name).getD "UnknownError"

def placeText (label : String) (place : Option Nat) : String :=
  (place.map fun n => label ++ toString n).getD ""

def typesText : Option (List ValueType) → Option (List ValueType) → String
  | some expected, some actual =>
      " (expected " ++ ValueType.listText expected ++ ", got " ++ ValueType.listText actual ++ ")"
  | _, _ => ""

def text (d : Diagnostic) : String :=
  kindText d.kind ++ placeText " at offset " d.offset ++ placeText " in funclet " d.funclet ++ ": "
    ++ d.message ++ typesText d.expected d.actual

end Diagnostic

def ValidationError.diagnostic (e : ValidationError) : Diagnostic where
  kind := some e.cause.kind
  message := e.cause.message
  offset := e.offset
  funclet := e.funclet
  expected := e.cause.types?.map Prod.fst
  actual := e.cause.types?.map Prod.snd

end WasmFunclets
