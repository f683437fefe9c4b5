import GraphCodec.Serializer.Basic

/-!
# Serializers — field tables

The field table of a record serializer has one entry for each field that takes part, in the order
of the declaration. It is built from the class, the options and the ambient context:

* a field that asks for a context key takes part only where the context has it;
* a transient field is written and read, or copied, only as the options say, and left out if
  neither is the case;
* a bound field has its serializer, and a field marked as never null is not nullable.

Hooks then take fields out and apply settings.

* `map_slot_modify`: settings leave the fields of a table and their order alone.
-/

namespace GraphCodec

/-- The entries of a record serializer, in order. -/
abbrev FieldTable := List FieldEntry

namespace FieldTable

/-- The entry of a field, if the field takes part. -/
def entry? (d : ClassDecl) (options : FieldOptions) (context : Table String String) (index : Nat)
    (f : FieldDecl) : Option FieldEntry :=
  if f.attributes.optionalKey?.any fun key => !context.contains key then none
  else
    let transient := f.attributes.contains "transient"
    let serialized := !transient || options.serializeTransient
    let copied := !transient || options.copyTransient
    if !serialized && !copied then none
    else
      let e : FieldEntry := .ofDecl d.id index f options
      some { e with
        serialized := serialized
        copied := copied
        serializer := f.attributes.bound?.map .stock
        nullable := e.nullable && !f.attributes.contains "not null" }

/-- The field table of a class. -/
def build (d : ClassDecl) (options : FieldOptions) (context : Table String String) : FieldTable :=
  d.fields.zipIdx.filterMap fun p => entry? d options context p.2 p.1

/-- The entry of the field with this name. -/
def get? (t : FieldTable) (name : String) : Option FieldEntry := t.find? fun e => e.name = name

/-- Takes out the entry of the field with this name. -/
def remove (t : FieldTable) (name : String) : FieldTable := t.eraseP fun e => e.name = name

/-- Changes the entry of the field with this name, if there is one. -/
def modify (name : String) (change : FieldEntry → FieldEntry) : FieldTable → FieldTable
  | [] => []
  | e :: rest => if e.name = name then change e :: rest else e :: modify name change rest

theorem map_slot_modify (name : String) {change : FieldEntry → FieldEntry}
    (h : ∀ e, (change e).slot = e.slot) (t : FieldTable) :
    (modify name change t).map FieldEntryOf.slot = t.map FieldEntryOf.slot := by
  induction t with
  | nil => rfl
  | cons e rest ih =>
    by_cases he : e.name = name
    · simp [modify, he, h]
    · simp [modify, he, ih]

/-- A new table as the hooks want it. -/
def adjust (hooks : Option (Hooks Value)) (t : FieldTable) : FieldTable :=
  match hooks with
  | none => t
  | some k =>
    k.settings.foldl (fun t s => modify s.1 (s.2.map Serializer.stock).apply t)
      (k.removed.foldl remove t)

/-- The fields that are written and read. -/
def serialized (t : FieldTable) : FieldTable := t.filter FieldEntryOf.serialized

/-- The fields that are copied. -/
def copied (t : FieldTable) : FieldTable := t.filter FieldEntryOf.copied

end FieldTable

namespace RecordSerializerOf

/-- A record serializer with a new field table. -/
def make (d : ClassDecl) (options : FieldOptions) (context : Table String String)
    (hooks : Option (Hooks Value)) (cell : Nat) : RecordSerializer where
  decl := d
  options := options
  context := context
  entries := FieldTable.adjust hooks (FieldTable.build d options context)
  cell := cell
  hooks := hooks

/-- The serializer with other options and a new field table. -/
def withOptions (r : RecordSerializer) (options : FieldOptions) : RecordSerializer :=
  make r.decl options r.context r.hooks r.cell

/-- The serializer with a new field table for another context. -/
def withContext (r : RecordSerializer) (context : Table String String) : RecordSerializer :=
  make r.decl r.options context r.hooks r.cell

/-- The serializer with its field table changed. -/
def mapEntries (r : RecordSerializer) (f : FieldTable → FieldTable) : RecordSerializer :=
  { r with entries := f r.entries }

/-- The entry of the field with this name. -/
def entry (r : RecordSerializer) (name : String) : Except ConfigError FieldEntry :=
  match FieldTable.get? r.entries name with
  | some e => .ok e
  | none => .error (.unknownField r.decl.id name)

end RecordSerializerOf

end GraphCodec
