import GraphCodec.Object.Heap
import GraphCodec.Error.Basic

/-!
# Objects — access to slots

A `Slot` is a field of a class ready for use: it knows the class and the index, and every access
through it first checks that the object is an instance of that class. Slots of an object that
others are reading cannot be set.
-/

namespace GraphCodec

/-- A field of a class, by index. -/
structure Slot where
  owner : ClassId
  index : Nat
  name : String
  deriving DecidableEq

namespace Slot

/-- The slot of the field with this name. -/
def of (d : ClassDecl) (name : String) : Except AccessError Slot :=
  match d.indexOf? name with
  | some index => .ok ⟨d.id, index, name⟩
  | none => .error (.missingField d.id name)

/-- Fails unless the object is an instance of the class. -/
def check (s : Slot) (x : Object) : Except AccessError Unit :=
  if x.owner = s.owner then .ok () else .error (.wrongClass s.owner x.owner)

/-- The value in the slot. -/
def get (s : Slot) (h : Heap) (o : ObjectId) : Except AccessError Value := do
  s.check (h.get o)
  match (h.get o).slots[s.index]? with
  | some v => return v
  | none => throw (.indexOutOfRange s.owner s.index)

/-- Sets the slot while the objects in `held` are being read; gives the value that was there. -/
def setWhile (s : Slot) (held : List ObjectId) (h : Heap) (o : ObjectId) (v : Value) :
    Except AccessError (Value × Heap) := do
  s.check (h.get o)
  if held.contains o then throw (.busy s.owner)
  match (h.get o).slots[s.index]? with
  | some old => return (old, h.store o s.index v)
  | none => throw (.indexOutOfRange s.owner s.index)

/-- Sets the slot; gives the value that was there. -/
def set (s : Slot) (h : Heap) (o : ObjectId) (v : Value) : Except AccessError (Value × Heap) :=
  s.setWhile [] h o v

end Slot

namespace Heap

/-- The value of the field with this name. -/
def field (h : Heap) (o : ObjectId) (name : String) : Except AccessError Value := do
  (← Slot.of (h.get o).decl name).get h o

/-- Sets the field with this name; gives the value that was there. -/
def setField (h : Heap) (o : ObjectId) (name : String) (v : Value) :
    Except AccessError (Value × Heap) := do
  (← Slot.of (h.get o).decl name).set h o v

/-- Sets several fields one after the other. -/
def setFields (h : Heap) (o : ObjectId) : List (String × Value) → Except AccessError Heap
  | [] => .ok h
  | (name, v) :: rest => do
    let (_, h) ← h.setField o name v
    h.setFields o rest

/-- Adds an instance with the given values, one for each declared field. -/
def allocWith (h : Heap) (d : ClassDecl) (values : List Value) :
    Except AccessError (ObjectId × Heap) :=
  if values.length = d.fields.length then .ok (h.alloc ⟨d, values⟩)
  else .error (.fieldCount d.id d.fields.length values.length)

end Heap

end GraphCodec
