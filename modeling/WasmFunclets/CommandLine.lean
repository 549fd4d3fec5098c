import WasmFunclets.Diagnostic
import WasmFunclets.Validation

/-! The command line: which file to validate with which signature, and the report on it. -/

namespace WasmFunclets.CommandLine

structure Request where
  file : String
  signature : Signature
  deriving DecidableEq, Repr

inductive Refusal where
  | usage
  | unknownType (name : String)
  deriving DecidableEq, Repr

def Refusal.line (program : String) : Refusal → String
  | usage => "Usage: " ++ program ++ " <body.bin> [params [results]]"
  | unknownType name => "Unknown value type " ++ name

/-- The names between commas; nothing follows a comma at the end, and an empty text has none. -/
def names (text : String) : List String :=
  let parts := text.splitOn ","
  if parts.getLast? = some "" then parts.dropLast else parts

def types (text : String) : Except Refusal (List ValueType) :=
  (names text).mapM fun name =>
    match ValueType.ofName? name with
    | some type => .ok type
    | none => .error (.unknownType name)

def request : List String → Except Refusal Request
  | [file] => .ok ⟨file, [], []⟩
  | [file, params] => do return ⟨file, ← types params, []⟩
  | [file, params, results] => do return ⟨file, ← types params, ← types results⟩
  | _ => .error .usage

/-- What reading a file gives; a pipe opens but has no length. -/
inductive Content where
  | missing
  | unreadable
  | bytes (bytes : List UInt8)
  deriving DecidableEq, Repr

structure Report where
  status : UInt32
  lines : List String
  deriving DecidableEq, Repr

def failure (line : String) : Report := ⟨1, [line]⟩

def funcletLine (f : Funclet) : String :=
  "  funclet " ++ toString f.index ++ " " ++ ValueType.listText f.params
    ++ (if f.explicit then "" else " (inferred)") ++ ", " ++ toString f.observed
    ++ " backward predecessors"

def regionLines (r : Region) : List String :=
  ("region at offset " ++ toString r.offset ++ " (depth " ++ toString r.depth ++ "): "
    ++ ValueType.listText r.signature.params ++ " -> " ++ ValueType.listText r.signature.results)
    :: r.funclets.map funcletLine

def bodyLines (b : ValidBody) : List String :=
  [toString b.instructions ++ " instructions, " ++ toString b.regionCount ++ " regions, "
      ++ toString b.funcletCount ++ " funclets, " ++ toString b.edgeCount ++ " edges",
    toString b.builder.values.size ++ " values in " ++ toString b.builder.blocks.size
      ++ " blocks, " ++ toString b.builder.livePhis ++ " live phis, "
      ++ toString b.builder.replacedPhis ++ " trivial phis removed"]
    ++ b.regions.toList.flatMap regionLines

def validationReport : Except Fault ValidBody → Report
  | .ok body => ⟨0, bodyLines body⟩
  | .error (.invalid e) => failure e.diagnostic.text
  | .error (.broken invariant) => failure invariant.message
  | .error .outOfRange => failure "index out of range"

def Request.report (r : Request) : Content → Report
  | .missing => failure ("Could not open file " ++ r.file)
  | .unreadable => failure ("Could not read file " ++ r.file)
  | .bytes bytes => validationReport (validate (.ofSignature r.signature) bytes)

def report (program : String) (arguments : List String) (read : String → Content) : Report :=
  match request arguments with
  | .error refusal => failure (refusal.line program)
  | .ok r => r.report (read r.file)

end WasmFunclets.CommandLine
