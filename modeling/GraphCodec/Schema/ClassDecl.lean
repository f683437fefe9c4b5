import GraphCodec.Schema.FieldType
import GraphCodec.Schema.Attribute

/-!
# Schema — class declarations

A `ClassDecl` is the table of a class: its identity, its type parameters and its fields in order.
The index of a field is its place in that order.
-/

namespace GraphCodec

/-- The type parameters of a class, in order. -/
structure TypeParams where
  names : List String
  deriving DecidableEq

namespace TypeParams

def size (p : TypeParams) : Nat := p.names.length

def isEmpty (p : TypeParams) : Bool := p.names.isEmpty

/-- The place of the first parameter with this name. -/
def indexOf? (p : TypeParams) (name : String) : Option Nat := p.names.findIdx? (· = name)

def contains (p : TypeParams) (name : String) : Bool := p.names.contains name

/-- The parameters for inspection. -/
def inspect (p : TypeParams) : String :=
  Text.tuple "Generics" [Text.option (
    if p.isEmpty then none
    else some (Text.list (p.names.map fun n =>
      Text.record "TypeParamInfo" [("name", Text.quoted n)])))]

end TypeParams

/-- One declared field. -/
structure FieldDecl where
  name : String
  type : FieldType
  attributes : FieldAttributes

/-- The table of a class. -/
structure ClassDecl where
  id : ClassId
  params : TypeParams
  fields : List FieldDecl
  /-- Whether an instance can be made without being given anything. -/
  constructible : Bool

namespace ClassDecl

instance : Inhabited ClassDecl := ⟨⟨⟨""⟩, ⟨[]⟩, [], false⟩⟩

/-- The class as a value type. -/
def type (d : ClassDecl) : ValueType := .object d.id

/-- The index of the first field with this name. -/
def indexOf? (d : ClassDecl) (name : String) : Option Nat :=
  d.fields.findIdx? fun f => f.name = name

/-- The first field with this name. -/
def field? (d : ClassDecl) (name : String) : Option FieldDecl :=
  d.fields.find? fun f => f.name = name

/-- The first name in the list that is also in `seen` or stands further to the front. -/
def firstRepeated : (seen names : List String) → Option String
  | _, [] => none
  | seen, name :: rest =>
    if seen.contains name then some name else firstRepeated (seen ++ [name]) rest

/-- The first field whose name an earlier field has too. -/
def duplicateField? (d : ClassDecl) : Option String :=
  firstRepeated [] (d.fields.map FieldDecl.name)

/-- The first type parameter of a field that the class does not declare, with the field. -/
def undeclaredParam? (d : ClassDecl) : Option (String × String) :=
  d.fields.findSome? fun f =>
    (f.type.params.find? fun p => !d.params.contains p).map fun p => (f.name, p)

end ClassDecl

end GraphCodec
