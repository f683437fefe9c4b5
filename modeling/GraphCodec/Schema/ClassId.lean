import GraphCodec.Text.Inspection

/-!
# Schema — class identities and value types

A class is known by its path, and its short name is what follows the last `::` of it. A
`ValueType` is the runtime type of a value that is not null: one of six built-in ones, or a class.
-/

namespace GraphCodec

/-- The identity of a class. -/
structure ClassId where
  path : String
  deriving DecidableEq, Inhabited

namespace ClassId

/-- What follows the last `::`, if there is one. -/
def afterSeparator : List Char → Option (List Char)
  | [] => none
  | c :: tail =>
    match afterSeparator tail with
    | some name => some name
    | none =>
      if c = ':' then
        match tail with
        | ':' :: name => some name
        | _ => none
      else none

/-- The short name: the path after its last `::`, or all of it. -/
def name (c : ClassId) : String :=
  match afterSeparator c.path.toList with
  | some name => String.ofList name
  | none => c.path

instance : ToString ClassId := ⟨ClassId.path⟩

/-- Classes in the order of their paths, which compare by code points. -/
def order (c d : ClassId) : Ordering := compare c.path d.path

/-- The path between quotes, for inspection. -/
def inspect (c : ClassId) : String := Text.quoted c.path

end ClassId

/-- The runtime type of a value. -/
inductive ValueType
  | bool
  | int
  | long
  | float
  | double
  | str
  | object (c : ClassId)
  deriving DecidableEq

namespace ValueType

/-- The name under which a type is shown: a class shows its path. -/
def path : ValueType → String
  | bool => "bool"
  | int => "i32"
  | long => "i64"
  | float => "f32"
  | double => "f64"
  | str => "String"
  | object c => c.path

instance : ToString ValueType := ⟨ValueType.path⟩

/-- The path, with a class cut to its short name. -/
def name : ValueType → String
  | object c => c.name
  | t => t.path

/-- Whether values of the type are numbers or truth values; a slot for them never starts as null. -/
def isPrimitive : ValueType → Bool
  | str | object _ => false
  | _ => true

def isInteger : ValueType → Bool
  | int | long => true
  | _ => false

/-- Whether values of the type are objects, which have an identity. -/
def isReference : ValueType → Bool
  | object _ => true
  | _ => false

def class? : ValueType → Option ClassId
  | object c => some c
  | _ => none

end ValueType

end GraphCodec
