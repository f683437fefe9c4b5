import GraphCodec.Codec.Basic

/-!
# Codecs — passes

Writing, reading and copying are passes over a graph. Each is a computation that can fail and
keeps a state, and the state stays what it is when the computation fails: what was written before
a failure has been written.

A pass follows objects into each other only to a given depth. Reaching it is a `Failure` of its
own, which no serializer can recover from, so that an answer of any other kind does not hang on
the depth.

* `Typing`: the part of the state that has to do with type parameters.
* `Plan`: how one field is written and read, which both sides know without looking at the value.
-/

namespace GraphCodec

/-- Why a pass ends without an answer. -/
inductive Failure
  | error (e : CodecError)
  /-- The objects are nested deeper than the pass follows them. -/
  | tooDeep
  deriving DecidableEq

/-- What a failure in a field of a class amounts to outside of the field. -/
def Failure.inField (owner : ClassId) (field : String) : Failure → Failure
  | .error e => .error (.inField owner field e)
  | .tooDeep => .tooDeep

/-- A part of a pass with state `σ`. -/
abbrev Pass (σ α : Type) := ExceptT Failure (StateM σ) α

namespace Pass

variable {σ α : Type}

def fail (e : CodecError) : Pass σ α := throw (.error e)

/-- An answer that was computed without the state. -/
def ofExcept : Except CodecError α → Pass σ α
  | .ok a => pure a
  | .error e => fail e

/-- Does the work of a field, and names the field in its failures. -/
def inField (owner : ClassId) (field : String) (body : Pass σ α) : Pass σ α := fun st =>
  match body st with
  | (.ok a, st) => (.ok a, st)
  | (.error e, st) => (.error (e.inField owner field), st)

theorem inField_ok {owner : ClassId} {field : String} {body : Pass σ α} {st st' : σ} {a : α}
    (h : body st = (.ok a, st')) : inField owner field body st = (.ok a, st') := by
  simp [inField, h]

theorem inField_error {owner : ClassId} {field : String} {body : Pass σ α} {st st' : σ}
    {e : Failure} (h : body st = (.error e, st')) :
    inField owner field body st = (.error (e.inField owner field), st') := by
  simp [inField, h]

/-- Goes on after a failure from the state that it left behind. -/
def recover (body : Pass σ α) (handler : CodecError → Pass σ α) : Pass σ α := fun st =>
  match body st with
  | (.error (.error e), st) => handler e st
  | other => other

end Pass

/-- What a pass knows about type parameters. -/
structure Typing where
  /-- The bindings of the enclosing objects. -/
  scopes : ScopeStack
  /-- The type arguments left for record serializers. -/
  cells : ArgumentCells

namespace Typing

/-- Takes out the type arguments left for a record serializer. -/
def take (t : Typing) (r : RecordSerializer) : Except CodecError (Option Resolution) × Typing :=
  let (s, cell) := (t.cells.get r.cell).take r
  (s.mapError .config, { t with cells := t.cells.set r.cell cell })

/-- Leaves type arguments for the next object of a serializer, if there are any. -/
def supply (t : Typing) (s : Serializer) (args : List ConcreteType) : Typing :=
  if args.isEmpty then t else { t with cells := s.supply args t.cells }

def enter (t : Typing) (scope : Option TypeScope) : Typing :=
  { t with scopes := t.scopes.enter scope }

def leave (t : Typing) (scope : Option TypeScope) : Typing :=
  { t with scopes := t.scopes.leave scope }

/-- The bindings in force, as a probe sees them, with the position at which it looks. -/
def probe (t : Typing) (position : Nat) : String :=
  let show? (text : Option String) : String := text.getD "-"
  "|".intercalate
    [toString t.scopes.depth, show? (t.scopes.current?.map TypeScope.text),
      show? ((t.scopes.resolve "T").map ConcreteType.text),
      show? ((t.scopes.resolve "U").map ConcreteType.text), toString position]

/-- The binding of the parameter that a holder hands on to its field. -/
def holderArgs (t : Typing) : List ConcreteType := (t.scopes.resolve "T").toList

end Typing

/-- What both sides of a pass know about a value before they see it. -/
structure Frame where
  type : ValueType
  serializer : Serializer
  /-- The type arguments of the value, or none. -/
  args : List ConcreteType
  /-- Whether null may stand in the place of the value. -/
  nullable : Bool

namespace Registration

/-- The frame of a value whose type tag stands in front of it. -/
def frame (r : Registration) : Frame := ⟨r.type, r.serializer, [], false⟩

end Registration

/-- How a field is written and read. -/
inductive Plan
  /-- As a 32-bit integer. -/
  | int
  /-- As a 64-bit integer. -/
  | long
  | known (f : Frame)
  /-- With a type tag. -/
  | dynamic

namespace FieldEntryOf

/-- The type of every value of a field with its arguments, if it is known: the one that was set,
else the one that the declaration comes to. The arguments of the latter count for the former only
where both are the same type. -/
def knownType (e : FieldEntry) (resolved : Option ConcreteType) : Option ConcreteType :=
  let declared := resolved.or e.type.unbound
  match e.valueType with
  | some t => some ⟨t, ((declared.filter fun k => k.base = t).map ConcreteType.args).getD []⟩
  | none => declared

/-- How the field is written and read when its declared type comes to `resolved`. -/
def plan (c : Codec) (e : FieldEntry) (resolved : Option ConcreteType) : Except CodecError Plan :=
  match e.serializer, e.knownType resolved with
  | some s, some ⟨t, args⟩ => .ok (.known ⟨t, s, args, e.nullable⟩)
  | some _, none => .error (.config (.unresolvedFieldType e.owner e.name))
  | none, some ⟨.int, _⟩ => .ok .int
  | none, some ⟨.long, _⟩ => .ok .long
  | none, some ⟨t, args⟩ => do
    let s ← (c.serializer t).mapError .config
    return .known ⟨t, s, args, e.nullable⟩
  | none, none => .ok .dynamic

end FieldEntryOf

namespace Heap

/-- The failure of finding `v` where a value of type `expected` is required. -/
def mismatch (h : Heap) (expected : ValueType) (v : Value) : CodecError :=
  match h.typeOf v with
  | some found => .encode (.typeMismatch expected found)
  | none => .encode .nullValue

/-- Fails unless the value is an object of the class. -/
def instanceOf (h : Heap) (owner : ClassId) (v : Value) : Except CodecError ObjectId :=
  match v with
  | .object o => if (h.get o).owner = owner then .ok o else .error (h.mismatch (.object owner) v)
  | _ => .error (h.mismatch (.object owner) v)

/-- The first slot of an object. -/
def firstSlot (h : Heap) (o : ObjectId) : Slot :=
  let x := h.get o
  ⟨x.owner, 0, ((x.decl.fields.head?).map FieldDecl.name).getD ""⟩

/-- The value in the first slot of an object. -/
def firstValue (h : Heap) (o : ObjectId) : Except CodecError Value :=
  ((h.firstSlot o).get h o).mapError CodecError.ofAccess

end Heap

namespace Codec

/-- An instance as a record serializer makes it. -/
def make (c : Codec) (d : ClassDecl) : Option Creation → Except CodecError Object
  | none => c.newInstance d.id
  | some .raw => .ok (.fresh d)
  | some .refuse => .error (.construction d.id "refused by hook")
  | some (.ofClass owner) => c.newInstance owner

end Codec

end GraphCodec
