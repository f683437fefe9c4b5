import GraphCodec.Serializer.Stock
import GraphCodec.Text.Inspection

/-!
# Schema — attributes of fields

A field carries a set of attributes with at most one of each kind. Four kinds are read when a
field table is built; the others are notes for the reader of a schema.
-/

namespace GraphCodec

/-- A type whose values fall into kinds. -/
class HasKind (α : Type) where
  kind : α → String

/-- A set that holds at most one value of each kind. -/
structure AttributeSet (α : Type) where
  items : List α

namespace AttributeSet

variable {α : Type} [HasKind α]

def empty : AttributeSet α := ⟨[]⟩

/-- Puts an attribute in; it takes the place of the one of its kind. -/
def insert (s : AttributeSet α) (a : α) : AttributeSet α :=
  ⟨s.items.filter (fun b => HasKind.kind b ≠ HasKind.kind a) ++ [a]⟩

def ofList (items : List α) : AttributeSet α := items.foldl insert empty

/-- The attribute of a kind, if the set has one. -/
def get? (s : AttributeSet α) (kind : String) : Option α :=
  s.items.find? fun a => HasKind.kind a = kind

def contains (s : AttributeSet α) (kind : String) : Bool := (s.get? kind).isSome

def size (s : AttributeSet α) : Nat := s.items.length

/-- For inspection, a set shows only how many attributes it has. -/
def inspect (s : AttributeSet α) : String :=
  Text.record "CustomAttributes" [("len", toString s.size)]

end AttributeSet

/-- What a field can be marked with. -/
inductive FieldAttribute
  /-- The field takes part only where the ambient context has this key. -/
  | optional (key : String)
  /-- The field always uses this serializer. -/
  | bound (serializer : Stock)
  /-- The field never holds null. -/
  | notNull
  /-- The field is left out of writing and reading, or of copying, as the options say. -/
  | transient
  /-- A note: a text. -/
  | label (text : String)
  /-- A note: a number. -/
  | count (n : Int)
  /-- A note: no more than its presence. -/
  | mark
  deriving DecidableEq

namespace FieldAttribute

/-- The kind of an attribute is its name without its contents. -/
def kindName : FieldAttribute → String
  | optional _ => "optional"
  | bound _ => "bound"
  | notNull => "not null"
  | transient => "transient"
  | label _ => "label"
  | count _ => "count"
  | mark => "mark"

instance : HasKind FieldAttribute := ⟨kindName⟩

end FieldAttribute

/-- The attributes of one field. -/
abbrev FieldAttributes := AttributeSet FieldAttribute

namespace AttributeSet

/-- The context key that the field asks for, if it asks for one. -/
def optionalKey? (s : FieldAttributes) : Option String :=
  match s.get? "optional" with
  | some (.optional key) => some key
  | _ => none

/-- The serializer that the field is bound to, if it is. -/
def bound? (s : FieldAttributes) : Option Stock :=
  match s.get? "bound" with
  | some (.bound serializer) => some serializer
  | _ => none

end AttributeSet

end GraphCodec
