import GraphCodec.Object.Slot
import GraphCodec.Options

/-!
# Serializers — entries of a field table

A record serializer has one `FieldEntryOf σ` for each field that takes part, where `σ` stands for
serializers. An entry starts from the declaration of its field and the options, and a
`FieldSettings` changes it afterwards.

* `slot_apply`, `type_apply`: settings never change which field an entry is for.
-/

namespace GraphCodec

/-- One field of a record serializer with the way in which it is written. -/
structure FieldEntryOf (σ : Type) where
  slot : Slot
  type : FieldType
  /-- The runtime type of every value of the field, where it was set. -/
  valueType : Option ValueType
  /-- The serializer to use, where it was set. -/
  serializer : Option σ
  nullable : Bool
  varInt : Bool
  /-- Whether variable-length integers are written without folding. -/
  optimizePositive : Bool
  /-- Whether the field is written and read. -/
  serialized : Bool
  /-- Whether the field is copied. -/
  copied : Bool

namespace FieldEntryOf

variable {σ : Type}

/-- The entry of a field as the declaration and the options alone have it. -/
def ofDecl (owner : ClassId) (index : Nat) (f : FieldDecl) (options : FieldOptions) :
    FieldEntryOf σ where
  slot := ⟨owner, index, f.name⟩
  type := f.type
  valueType := none
  serializer := none
  nullable := options.fieldsCanBeNull && !f.type.isPrimitive
  varInt := options.varInt
  optimizePositive := false
  serialized := true
  copied := true

def name (e : FieldEntryOf σ) : String := e.slot.name

def owner (e : FieldEntryOf σ) : ClassId := e.slot.owner

/-- Whether the declared type mentions a type parameter. -/
def isGeneric (e : FieldEntryOf σ) : Bool := e.type.mentionsParams

/-- An entry for inspection. -/
def inspect (e : FieldEntryOf σ) : String :=
  Text.record "CachedField"
    [("class", e.owner.inspect), ("name", Text.quoted e.name), ("field_type", e.type.text),
      ("value_class", Text.option (e.valueType.map ValueType.path)),
      ("serializer", Text.bool e.serializer.isSome), ("can_be_null", Text.bool e.nullable),
      ("var_int", Text.bool e.varInt), ("optimize_positive", Text.bool e.optimizePositive)]

end FieldEntryOf

/-- Changes to the entry of a field; what is `none` is left alone. They apply in the order in
which they are listed. -/
structure FieldSettings (σ : Type) where
  /-- Sets or clears the runtime type, and takes the serializer away. -/
  valueType : Option (Option ValueType)
  /-- Sets the runtime type and the serializer for it. -/
  typed : Option (ValueType × σ)
  serializer : Option σ
  /-- Takes the serializer away. -/
  clearSerializer : Bool
  nullable : Option Bool
  varInt : Option Bool
  optimizePositive : Option Bool

namespace FieldSettings

variable {σ : Type}

/-- The entry with the changes made. -/
def apply (s : FieldSettings σ) (e : FieldEntryOf σ) : FieldEntryOf σ :=
  let e := match s.valueType with
    | some t => { e with valueType := t, serializer := none }
    | none => e
  let e := match s.typed with
    | some (t, serializer) => { e with valueType := some t, serializer := some serializer }
    | none => e
  let e := match s.serializer with
    | some serializer => { e with serializer := some serializer }
    | none => e
  let e := if s.clearSerializer then { e with serializer := none } else e
  { e with
    nullable := s.nullable.getD e.nullable
    varInt := s.varInt.getD e.varInt
    optimizePositive := s.optimizePositive.getD e.optimizePositive }

@[simp] theorem slot_apply (s : FieldSettings σ) (e : FieldEntryOf σ) :
    (s.apply e).slot = e.slot := by
  obtain ⟨a, b, c, d, _, _, _⟩ := s
  cases a <;> cases b <;> cases c <;> cases d <;> rfl

@[simp] theorem type_apply (s : FieldSettings σ) (e : FieldEntryOf σ) :
    (s.apply e).type = e.type := by
  obtain ⟨a, b, c, d, _, _, _⟩ := s
  cases a <;> cases b <;> cases c <;> cases d <;> rfl

end FieldSettings

end GraphCodec
