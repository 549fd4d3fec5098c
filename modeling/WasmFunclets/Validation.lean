import WasmFunclets.Validation.Execute

/-! Validation of a function body: one pass over its bytes that types it and builds its SSA form. -/

namespace WasmFunclets

structure ValidBody where
  instructions : Nat
  regions : Array Region
  builder : Ssa.Builder
  exit : BlockId

namespace ValidBody

def locals (b : ValidBody) : Array ValueType := b.builder.locals

def tally (b : ValidBody) (count : Region → Nat) : Nat :=
  b.regions.foldl (fun n r => (n + count r) % 4294967296) 0

def regionCount (b : ValidBody) : Nat := b.regions.size % 4294967296

def funcletCount (b : ValidBody) : Nat := b.tally fun r => r.funclets.length

def edgeCount (b : ValidBody) : Nat := b.tally fun r => r.edges.size

def results (b : ValidBody) : List ValueId :=
  (b.builder.blocks[b.exit]?.map b.builder.argsOf).getD []

end ValidBody

namespace Validation

def initial (bytes : List UInt8) : State where
  cursor := .ofBytes bytes
  start := 0
  decoded := 0
  stack := .empty
  control := #[]
  regions := []
  closed := #[]
  builder := .ofLocals #[] 0
  current := Ssa.Builder.entryId
  exit := 0

def openFunction (context : Context) : Step Unit := do
  let ⟨params, results⟩ := context.signature
  let locals ← onCursor (Decode.locals params)
  modify fun s => { s with builder := .ofLocals locals params.length }
  let exit ← newTarget .exit results
  modify fun s => { s with exit }
  pushFrame ⟨[], results⟩ ⟨0, 0, false⟩ exit .function

def scope (setting : Setting) : Step Scope := do
  let s ← get
  return ⟨setting, s.builder.locals, s.control.size, s.regions.head?.map OpenRegion.graph⟩

def step (setting : Setting) : Step Unit := do
  modify fun s => { s with start := s.cursor.offset }
  let s ← get
  require ((s.cursor.isEmpty && !s.regions.isEmpty) = false) .unfinishedRegion
  let instruction ← onCursor (Decode.instruction (← scope setting))
  modify fun s => { s with decoded := s.decoded + 1 }
  execute setting instruction

def run (setting : Setting) : Nat → Step Unit
  | 0 => violate .stepsExhausted
  | fuel + 1 => do
      unless (← get).control.isEmpty do
        step setting
        run setting fuel

def body (setting : Setting) (length : Nat) : Step Unit := do
  openFunction setting.context
  run setting (length + 1)
  modify fun s => { s with start := s.cursor.offset }
  require ((← get).cursor.isEmpty = true) .trailingBytes

/-- An error that names no place arose at the instruction and in the funclet at hand. -/
def located (s : State) (e : ValidationError) : ValidationError :=
  { e with
    offset := e.offset <|> some s.start
    funclet := e.funclet <|> s.regions.head?.map fun region => region.graph.current }

end Validation

open Validation in
def validateWith (setting : Setting) (bytes : List UInt8) : Except Fault ValidBody :=
  match body setting bytes.length (initial bytes) with
  | .ok () s => .ok ⟨s.decoded, s.closed, s.builder, s.exit⟩
  | .error (.invalid e) s => .error (.invalid (located s e))
  | .error fault _ => .error fault

def validate (context : Context) (bytes : List UInt8) : Except Fault ValidBody :=
  validateWith ⟨context, true⟩ bytes

end WasmFunclets
