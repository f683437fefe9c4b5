import GraphCodec.Text.Inspection

/-!
# Options of a record serializer

Five switches say which fields of a class take part in which pass and how they are written.
-/

namespace GraphCodec

/-- The switches of a record serializer. -/
structure FieldOptions where
  /-- Fields declared with type parameters are written as what the parameters are bound to; when
  off, with a type tag. -/
  optimizedGenerics : Bool
  /-- Fields that are not primitive may hold null. -/
  fieldsCanBeNull : Bool
  /-- Integer fields are written with variable length. -/
  varInt : Bool
  /-- Transient fields are copied. -/
  copyTransient : Bool
  /-- Transient fields are written and read. -/
  serializeTransient : Bool
  deriving DecidableEq

namespace FieldOptions

/-- Everything is on, apart from the writing of transient fields. -/
def standard : FieldOptions := ⟨true, true, true, true, false⟩

/-- The options under their names, in order. -/
def entries (o : FieldOptions) : List (String × Bool) :=
  [("optimized_generics", o.optimizedGenerics), ("fields_can_be_null", o.fieldsCanBeNull),
    ("var_int", o.varInt), ("copy_transient", o.copyTransient),
    ("serialize_transient", o.serializeTransient)]

/-- Sets the option at a place of `entries`. -/
def set (o : FieldOptions) (place : Nat) (value : Bool) : FieldOptions :=
  match place with
  | 0 => { o with optimizedGenerics := value }
  | 1 => { o with fieldsCanBeNull := value }
  | 2 => { o with varInt := value }
  | 3 => { o with copyTransient := value }
  | 4 => { o with serializeTransient := value }
  | _ => o

/-- The options as a JSON object without blanks. -/
def json (o : FieldOptions) : String :=
  "\x7b" ++ ",".intercalate (o.entries.map fun e => "\"" ++ e.1 ++ "\":" ++ Text.bool e.2) ++ "\x7d"

/-- The options for inspection. -/
def inspect (o : FieldOptions) : String :=
  Text.record "FieldSerializerConfig" (o.entries.map fun e => (e.1, Text.bool e.2))

end FieldOptions

end GraphCodec
