import GraphCodec.Schema.Catalog
import GraphCodec.Serializer.Arguments

/-!
# Codecs

A `Codec` knows classes and has a serializer for each type that can be written, read or copied.
The place of a type among the registrations is its number, and the tag in front of a value is that
number plus one. Every codec starts with the six built-in types.
-/

namespace GraphCodec

/-- A type with its serializer. -/
structure Registration where
  type : ValueType
  serializer : Serializer
  /-- Whether the serializer can be configured further and follows the ambient context. -/
  exposed : Bool

/-- The known classes, the serializers, and the settings for all passes. -/
structure Codec where
  catalog : Catalog
  /-- The registered types in the order of their numbers. -/
  registrations : List Registration
  /-- The ambient context, on which optional fields depend. -/
  context : Table String String
  /-- Whether objects keep their identity; when off, shared objects are written repeatedly. -/
  references : Bool
  /-- The options of record serializers for which none are given. -/
  options : FieldOptions
  /-- The type arguments left for record serializers. -/
  cells : ArgumentCells

namespace Registration

/-- A registration for inspection, without its serializer. -/
def inspect (r : Registration) (number : Nat) : String :=
  Text.abridgedRecord "Registration" [("ty", r.type.path), ("id", toString number)]

end Registration

namespace Codec

/-- The types that every codec starts with. -/
def builtIns : List Registration :=
  [⟨.bool, .stock .bool, true⟩, ⟨.int, .stock .int, true⟩, ⟨.long, .stock .long, true⟩,
    ⟨.float, .stock .float, true⟩, ⟨.double, .stock .double, true⟩, ⟨.str, .stock .str, true⟩]

/-- A codec without classes. -/
def new : Codec := ⟨.empty, builtIns, .empty, true, .standard, .empty⟩

/-- The number of a registered type. -/
def number? (c : Codec) (t : ValueType) : Option Nat :=
  c.registrations.findIdx? fun r => r.type = t

/-- The registration of a type. -/
def registration? (c : Codec) (t : ValueType) : Option Registration :=
  c.registrations.find? fun r => r.type = t

/-- The registration with this number. -/
def registrationAt? (c : Codec) (number : Nat) : Option Registration := c.registrations[number]?

/-- The table of a class. -/
def classDecl (c : Codec) (owner : ClassId) : Except ConfigError ClassDecl :=
  match c.catalog.get? owner with
  | some d => .ok d
  | none => .error (.unregisteredType (.object owner))

/-- The serializer of a type. -/
def serializer (c : Codec) (t : ValueType) : Except ConfigError Serializer :=
  match c.registration? t with
  | some r => .ok r.serializer
  | none => .error (.unregisteredType t)

/-- A new instance of a class, with every field at its initial value. -/
def newInstance (c : Codec) (owner : ClassId) : Except CodecError Object := do
  let d ← (c.classDecl owner).mapError .config
  if d.constructible then return .fresh d
  else throw (.construction owner "class has no zero-argument construction")

end Codec

end GraphCodec
