/-! Value types, their bytes and names, and signatures over them. -/

namespace WasmFunclets

/-- Six types of values, and three markers: `null` for a statement without a value, `any` for the
value of an unreachable stack, `empty` for a block without results. -/
inductive ValueType where
  | null | any | empty
  | i32 | i64 | f32 | f64
  | funcref | externref
  | unassigned (byte : UInt8)
  deriving DecidableEq, Repr

namespace ValueType

def byte : ValueType → UInt8
  | null => 0x00
  | any => 0x01
  | empty => 0x40
  | i32 => 0x7f
  | i64 => 0x7e
  | f32 => 0x7d
  | f64 => 0x7c
  | funcref => 0x70
  | externref => 0x6f
  | unassigned b => b

def ofByte (b : UInt8) : ValueType :=
  match b with
  | 0x00 => null
  | 0x01 => any
  | 0x40 => empty
  | 0x7f => i32
  | 0x7e => i64
  | 0x7d => f32
  | 0x7c => f64
  | 0x70 => funcref
  | 0x6f => externref
  | b => unassigned b

def name : ValueType → String
  | null => "null"
  | any => "any"
  | empty => "empty"
  | i32 => "i32"
  | i64 => "i64"
  | f32 => "f32"
  | f64 => "f64"
  | funcref => "funcref"
  | externref => "externref"
  | unassigned _ => "invalid"

def values : List ValueType := [i32, i64, f32, f64, funcref, externref]

def isValue (t : ValueType) : Bool := values.contains t

def isNumeric : ValueType → Bool
  | i32 | i64 | f32 | f64 => true
  | _ => false

def isValueCode (code : Nat) : Bool := values.any fun t => t.byte.toNat == code

def ofName? (text : String) : Option ValueType := values.find? fun t => t.name == text

def listText (types : List ValueType) : String :=
  "[" ++ String.intercalate " " (types.map name) ++ "]"

theorem byte_ofByte (b : UInt8) : (ofByte b).byte = b := by
  unfold ofByte
  split <;> rfl

theorem ofByte_byte {t : ValueType} (h : t.isValue) : ofByte t.byte = t := by
  cases t with
  | unassigned _ => simp [isValue, values] at h
  | _ => rfl

theorem ne_any {t : ValueType} (known : t.isValue = true) : t ≠ .any := by
  rintro rfl
  simp [isValue, values] at known

theorem isValue_of_isNumeric {t : ValueType} (numeric : t.isNumeric = true) : t.isValue = true := by
  cases t <;> first | rfl | cases numeric

end ValueType

structure Signature where
  params : List ValueType
  results : List ValueType
  deriving DecidableEq, Repr, Inhabited

end WasmFunclets
