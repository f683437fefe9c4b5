import GraphCodec.BinaryFormat
import GraphCodec.Schema.FieldType

/-!
# Objects — values

A value is null, a plain value, or the number of an object in a heap. Floating-point numbers are
their bits.
-/

namespace GraphCodec

/-- The number of an object in its heap; two numbers are equal exactly for the same instance. -/
abbrev ObjectId := Nat

/-- What a slot can hold. -/
inductive Value
  | null
  | bool (b : Bool)
  | int (v : Int32)
  | long (v : Int64)
  | float (bits : UInt32)
  | double (bits : UInt64)
  | str (s : String)
  | object (o : ObjectId)
  deriving DecidableEq, Inhabited

namespace Value

/-- What a slot of the declared type holds in a new instance: zero or false if the type is
primitive, null otherwise. -/
def initial : FieldType → Value
  | .fixed .bool => .bool false
  | .fixed .int => .int 0
  | .fixed .long => .long 0
  | .fixed .float => .float 0
  | .fixed .double => .double 0
  | _ => .null

def isNull : Value → Bool
  | .null => true
  | _ => false

def object? : Value → Option ObjectId
  | .object o => some o
  | _ => none

/-- Shallow equality: floating-point numbers compare as numbers, objects by identity. -/
def same : Value → Value → Bool
  | .float a, .float b => BinaryFormat.single.equal a.toNat b.toNat
  | .double a, .double b => BinaryFormat.double.equal a.toNat b.toNat
  | a, b => a = b

end Value

end GraphCodec
