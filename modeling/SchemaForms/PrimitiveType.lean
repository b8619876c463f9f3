import SchemaForms.Json.Basic
import SchemaForms.Timestamp
/-!
The primitive types of the schema language: their names, the ranges of the
integer types, and the values that belong to each.
-/

namespace SchemaForms

inductive PrimitiveType where
  | boolean
  | float32
  | float64
  | int8
  | uint8
  | int16
  | uint16
  | int32
  | uint32
  | string
  | timestamp
deriving DecidableEq

namespace PrimitiveType

def name : PrimitiveType → String
  | boolean => "boolean"
  | float32 => "float32"
  | float64 => "float64"
  | int8 => "int8"
  | uint8 => "uint8"
  | int16 => "int16"
  | uint16 => "uint16"
  | int32 => "int32"
  | uint32 => "uint32"
  | string => "string"
  | timestamp => "timestamp"

def all : List PrimitiveType :=
  [boolean, float32, float64, int8, uint8, int16, uint16, int32, uint32,
    string, timestamp]

/-- The type of a name.  Letter case counts. -/
def ofName? (name : String) : Option PrimitiveType :=
  all.find? fun type => type.name = name

def unknownText (name : String) : String :=
  "unknown type '" ++ name ++ "'"

def index (type : PrimitiveType) : Nat :=
  all.idxOf type

/-- The least and the greatest value of an integer type. -/
def integerRange? : PrimitiveType → Option (Int × Int)
  | int8 => some (-128, 127)
  | uint8 => some (0, 255)
  | int16 => some (-32768, 32767)
  | uint16 => some (0, 65535)
  | int32 => some (-2147483648, 2147483647)
  | uint32 => some (0, 4294967295)
  | _ => none

/-- Whether a number, taken as a 64-bit float, has no fraction and lies in a
closed range. -/
def inRange (range : Int × Int) (n : Number) : Bool :=
  match n.toBinary64?.bind Binary64.toInt? with
  | some value => range.1 ≤ value && value ≤ range.2
  | none => false

def accepts (type : PrimitiveType) : Json → Bool
  | .bool _ => type == boolean
  | .num n =>
      match type.integerRange? with
      | some range => inRange range n
      | none => type == float32 || type == float64
  | .str s => type == string || type == timestamp && Timestamp.accepts s
  | _ => false

theorem ofName?_name (type : PrimitiveType) :
    ofName? type.name = some type := by
  cases type <;> decide

/-- A name belongs to the one type that it names. -/
theorem name_of_ofName? {name : String} {type : PrimitiveType}
    (h : ofName? name = some type) :
    type.name = name := by
  simpa using List.find?_some h

theorem mem_all (type : PrimitiveType) : type ∈ all := by
  cases type <;> decide

end PrimitiveType

end SchemaForms
