import WasmFunclets.CommandLine

/-! The program: reads the file, times the validation and prints the report. -/

namespace WasmFunclets.CommandLine

def readHandle (handle : IO.FS.Handle) : IO Content := do
  try
    handle.rewind
    return .bytes (← handle.readBinToEnd).toList
  catch _ => return .unreadable

def readContent (file : String) : IO Content := do
  try readHandle (← IO.FS.Handle.mk file .read)
  catch _ => return .missing

def elapsedLine (nanoseconds : Nat) : String :=
  let fraction := toString (nanoseconds % 1000000)
  "Validation took " ++ toString (nanoseconds / 1000000) ++ "."
    ++ "".pushn '0' (6 - fraction.length) ++ fraction ++ "ms"

def printReport (report : Report) : IO UInt32 := do
  report.lines.forM IO.println
  return report.status

def start (arguments : List String) : IO UInt32 := do
  match request arguments with
  | .error refusal => printReport (failure (refusal.line (← IO.appPath).toString))
  | .ok r =>
      let content ← readContent r.file
      let begun ← IO.monoNanosNow
      let report ← IO.lazyPure fun _ => r.report content
      let ended ← IO.monoNanosNow
      if let .bytes _ := content then IO.println (elapsedLine (ended - begun))
      printReport report

end WasmFunclets.CommandLine

def main (arguments : List String) : IO UInt32 := WasmFunclets.CommandLine.start arguments
