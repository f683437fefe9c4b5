import GraphCodec.Codec.Pass

/-!
# Codecs — copying

A copy of a graph is a graph of new objects in the same heap. Each object is copied at most once;
met again, it stands for its copy. A record serializer registers the copy before it goes on to the
fields, so that cycles come out as cycles. Plain values are their own copies, unless a field has a
serializer that copies them otherwise.

* `copyObject` follows objects into each other, at most as deep as its first argument says.
-/

namespace GraphCodec

/-- The state of copying. -/
structure CopyState where
  heap : Heap
  /-- The copy of each object that has one. -/
  copies : Table ObjectId ObjectId

/-- A part of copying. -/
abbrev CopyM (α : Type) := Pass CopyState α

namespace CopyM

/-- Puts a new instance into the heap. -/
def alloc (x : Object) : CopyM ObjectId := do
  let (o, heap) := (← get).heap.alloc x
  modify fun st => { st with heap := heap }
  return o

/-- Sets slots of an object by name. -/
def setFields (o : ObjectId) (fields : List (String × Value)) : CopyM Unit := do
  let heap ← Pass.ofExcept (((← get).heap.setFields o fields).mapError CodecError.ofAccess)
  modify fun st => { st with heap := heap }

/-- Sets a slot of an object. -/
def setSlot (s : Slot) (o : ObjectId) (v : Value) : CopyM Unit := do
  let (_, heap) ← Pass.ofExcept ((s.set (← get).heap o v).mapError CodecError.ofAccess)
  modify fun st => { st with heap := heap }

/-- The value in a slot of an object. -/
def getSlot (s : Slot) (o : ObjectId) : CopyM Value := do
  Pass.ofExcept ((s.get (← get).heap o).mapError CodecError.ofAccess)

/-- Registers the copy of an object, unless it has one. -/
def reference (source copy : ObjectId) : CopyM Unit :=
  modify fun st => { st with copies := st.copies.insertNew source copy }

end CopyM

namespace Codec

section

variable (c : Codec) (nested : Serializer → Value → CopyM Value)

/-- Copies a value with the serializer of its type. -/
def copyValue (v : Value) : CopyM Value := do
  match v with
  | .object o =>
    let st ← get
    match st.copies.get? o with
    | some copy => return .object copy
    | none =>
      let s ← Pass.ofExcept ((c.serializer (st.heap.get o).type).mapError .config)
      nested s v
  | _ => return v

/-- Copies a value with the given serializer. -/
def copyUsing (s : Serializer) (v : Value) : CopyM Value := do
  match v with
  | .null => return .null
  | .object o =>
    match (← get).copies.get? o with
    | some copy => return .object copy
    | none => nested s v
  | _ => nested s v

/-- Copies one field of an object. -/
def copyField (e : FieldEntry) (source copy : ObjectId) : CopyM Unit := do
  let v ← CopyM.getSlot e.slot source
  let v ← match e.serializer with
    | some s => copyUsing nested s v
    | none => c.copyValue nested v
  CopyM.setSlot e.slot copy v

/-- Copies the fields of an object that are in the copy list. -/
def copyFields (owner : ClassId) (source copy : ObjectId) : FieldTable → CopyM Unit
  | [] => return
  | e :: rest => do
    if e.copied then Pass.inField owner e.name (c.copyField nested e source copy)
    copyFields owner source copy rest

/-- Makes the instance that is to be filled in. -/
def copyInstance (r : RecordSerializer) (source : ObjectId) : CopyM ObjectId := do
  let creation := r.hooks.bind Hooks.createCopy
  let o ← CopyM.alloc (← Pass.ofExcept (c.make ((← get).heap.get source).decl creation))
  if creation.isSome then CopyM.setFields o ((r.hooks.map Hooks.prefill).getD [])
  return o

/-- Copies an object field by field. -/
def copyRecord (r : RecordSerializer) (v : Value) : CopyM Value := do
  let source ← Pass.ofExcept ((← get).heap.instanceOf r.decl.id v)
  let copy ← c.copyInstance r source
  CopyM.reference source copy
  c.copyFields nested r.decl.id source copy r.entries
  return .object copy

/-- A new instance of the class of an object. -/
def copyNew (source : ObjectId) : CopyM ObjectId := do
  CopyM.alloc (← Pass.ofExcept (c.newInstance ((← get).heap.get source).owner))

/-- Sets the first slot of an object. -/
def copyFirst (o : ObjectId) (v : Value) : CopyM Unit := do
  CopyM.setSlot ((← get).heap.firstSlot o) o v

/-- Copies a value with a serializer of the stock. -/
def copyStock : Stock → Value → CopyM Value
  | .fixedInt, .int n => return .int (n + 1)
  | .fixedInt, _ => return .int (-6)
  | .lateHolder, .object o => do
    let first ← c.copyValue nested (← Pass.ofExcept ((← get).heap.firstValue o))
    let copy ← c.copyNew o
    copyFirst copy first
    return .object copy
  | .earlyHolder, .object o => do
    let copy ← c.copyNew o
    CopyM.reference o copy
    let h := (← get).heap
    let first ← Pass.ofExcept (h.firstValue o)
    let first ← match h.typeOf first with
      | none => pure .null
      | some t => do
        let s ← Pass.ofExcept ((c.serializer t).mapError .config)
        copyUsing nested s first
    copyFirst copy first
    return .object copy
  | .lateHolder, _ | .earlyHolder, _ => Pass.fail (.encode .nullValue)
  | _, .object o => do Pass.fail (.config (.copyUnsupported ((← get).heap.get o).type))
  | _, v => return v

/-- Copies a value with a serializer; `nested` copies the values inside it. -/
def copyWith : Serializer → Value → CopyM Value
  | .stock s, v => c.copyStock nested s v
  | .record r, v => c.copyRecord nested r v
  | .catching inner, v => Pass.recover (copyWith inner v) fun e => return .str e.message
  | .orNew inner, v => Pass.recover (copyWith inner v) fun e =>
    match v with
    | .object o => do
      let copy ← c.copyNew o
      CopyM.reference o copy
      return .object copy
    | _ => Pass.fail e

end

/-- Copies a value that has no copy yet, following objects at most `depth` deep. -/
def copyObject (c : Codec) : (depth : Nat) → Serializer → Value → CopyM Value
  | 0, _, _ => throw .tooDeep
  | depth + 1, s, v => do
    let copied ← c.copyWith (c.copyObject depth) s v
    match v, copied with
    | .object source, .object copy => CopyM.reference source copy
    | _, _ => pure ()
    return copied

/-! ## Whole passes -/

/-- What a pass of copying leaves: how it ended, and the heap. -/
structure Copied where
  result : Except Failure Value
  heap : Heap

/-- A depth that only an endless pass of copying exceeds: an object is on the way at most once for
each number of objects that have a copy. -/
def copyDepth (h : Heap) : Nat := (h.size + 2) * (h.size + 2)

/-- Copies a value. -/
def copy (c : Codec) (h : Heap) (v : Value) : Copied :=
  let (result, st) := (c.copyValue (c.copyObject (copyDepth h)) v).run.run ⟨h, .empty⟩
  ⟨result, st.heap⟩

end Codec

end GraphCodec
