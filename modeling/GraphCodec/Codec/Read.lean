import GraphCodec.Bytes.Input
import GraphCodec.Codec.Pass
import GraphCodec.Object.Numbering

/-!
# Codecs — reading

Reading follows the frames in which values were written and fills a heap with the objects it
meets. An object is bound to its number as soon as its instance is made, before its fields are
read, and the instance stays in the heap also when its fields cannot be read.

* `readFramed` follows objects into each other, at most as deep as its first argument says. Where
  objects have no markers of their own, the bytes alone do not bound how deep they nest, so the
  depth is a parameter of the whole pass.
-/

namespace GraphCodec

/-- The state of reading. -/
structure ReadState where
  input : Input
  heap : Heap
  reservations : Reservations
  typing : Typing

/-- A part of reading. -/
abbrev ReadM (α : Type) := Pass ReadState α

namespace ReadM

variable {α : Type}

/-- Takes a value off the input. -/
def take (r : Read α) : ReadM α := fun st =>
  match r.onInput st.input with
  | (.ok a, input) => (.ok a, { st with input := input })
  | (.error e, input) => (.error (.error (.decode e)), { st with input := input })

/-- Takes out the type arguments left for a record serializer. -/
def takeArguments (r : RecordSerializer) : ReadM (Option Resolution) := do
  let (s, typing) := (← get).typing.take r
  modify fun st => { st with typing := typing }
  Pass.ofExcept s

/-- Leaves type arguments for the next object of a serializer. -/
def supply (s : Serializer) (args : List ConcreteType) : ReadM Unit :=
  modify fun st => { st with typing := st.typing.supply s args }

/-- Reads inside a scope, which is left again also after a failure. -/
def inScope (scope : Option TypeScope) (body : ReadM α) : ReadM α := fun st =>
  let (a, st) := body { st with typing := st.typing.enter scope }
  (a, { st with typing := st.typing.leave scope })

/-- Puts a new instance into the heap. -/
def alloc (x : Object) : ReadM ObjectId := do
  let (o, heap) := (← get).heap.alloc x
  modify fun st => { st with heap := heap }
  return o

/-- Sets slots of an object by name. -/
def setFields (o : ObjectId) (fields : List (String × Value)) : ReadM Unit := do
  let heap ← Pass.ofExcept (((← get).heap.setFields o fields).mapError CodecError.ofAccess)
  modify fun st => { st with heap := heap }

/-- Sets a slot of an object. -/
def setSlot (s : Slot) (o : ObjectId) (v : Value) : ReadM Unit := do
  let (_, heap) ← Pass.ofExcept ((s.set (← get).heap o v).mapError CodecError.ofAccess)
  modify fun st => { st with heap := heap }

/-- Sets the first slot of an object. -/
def setFirst (o : ObjectId) (v : Value) : ReadM Unit := do
  setSlot ((← get).heap.firstSlot o) o v

/-- Lets the innermost number that is being read stand for an instance. -/
def reference (o : ObjectId) : ReadM Unit :=
  modify fun st => { st with reservations := st.reservations.bind o }

/-- The instance that a number stands for. -/
def known (number : Nat) : ReadM Value := do
  match (← get).reservations.get? number with
  | some o => return .object o
  | none => Pass.fail (.decode (.unknownReference number))

/-- Reads a new object under the next number. -/
def numbered (body : ReadM Value) : ReadM Value := fun st =>
  match body { st with reservations := st.reservations.reserve } with
  | (.ok v, st) => (.ok v, { st with reservations := st.reservations.finish v })
  | (.error e, st) => (.error e, { st with reservations := st.reservations.abandon })

end ReadM

namespace Codec

/-- Reads a type tag and gives the registration that it stands for, or nothing for null. -/
def readTag (c : Codec) : ReadM (Option Registration) := do
  let position := (← get).input.position
  match ← ReadM.take Read.varU32 with
  | 0 => return none
  | number + 1 =>
    match c.registrationAt? number with
    | some r => return some r
    | none => Pass.fail (.decode (.unknownTypeTag position (number + 1)))

section

variable (c : Codec) (nested : Frame → ReadM Value)

/-- Reads a type tag and then a value of that type. -/
def readTagged : ReadM Value := do
  match ← c.readTag with
  | some r => nested r.frame
  | none => return .null

/-- Reads the presence byte of a nullable integer. -/
def readPresence (e : FieldEntry) : ReadM Bool :=
  if e.nullable then ReadM.take Read.bool else pure true

/-- Reads the value of one field. -/
def readFieldValue (e : FieldEntry) (resolved : Option ConcreteType) : ReadM Value := do
  match ← Pass.ofExcept (e.plan c resolved) with
  | .dynamic => c.readTagged nested
  | .known f => nested f
  | .int =>
    if ← readPresence e then
      return .int (← ReadM.take (if e.varInt then Read.varI32 e.optimizePositive else Read.i32))
    else return .null
  | .long =>
    if ← readPresence e then
      return .long (← ReadM.take (if e.varInt then Read.varI64 e.optimizePositive else Read.i64))
    else return .null

/-- Reads one field of an object and sets its slot. -/
def readField (e : FieldEntry) (o : ObjectId) (resolved : Option ConcreteType) : ReadM Unit := do
  let v ← c.readFieldValue nested e resolved
  if v.isNull && !e.nullable then Pass.fail (.decode .unexpectedNull)
  ReadM.setSlot e.slot o v

/-- Reads the fields of an object from a place of the field table on. -/
def readFields (r : RecordSerializer) (own : Option Resolution) (o : ObjectId) :
    Nat → FieldTable → ReadM Unit
  | _, [] => return
  | index, e :: rest => do
    if e.serialized then
      let resolved := r.resolved own (← get).typing.scopes index e
      Pass.inField r.decl.id e.name (c.readField nested e o resolved)
    readFields r own o (index + 1) rest

/-- Makes the instance that is to be filled in. -/
def readInstance (r : RecordSerializer) : ReadM ObjectId := do
  let x ← Pass.ofExcept (c.make r.decl (r.hooks.bind Hooks.create))
  let o ← ReadM.alloc x
  ReadM.setFields o ((r.hooks.map Hooks.prefill).getD [])
  return o

/-- Reads an object field by field. -/
def readRecord (r : RecordSerializer) : ReadM Value := do
  let own ← ReadM.takeArguments r
  ReadM.inScope (own.map Resolution.scope) do
    let o ← c.readInstance r
    ReadM.reference o
    c.readFields nested r own o 0 r.entries
    return .object o

/-- A new instance of a type, which must be a class. -/
def readNew (t : ValueType) : ReadM ObjectId :=
  match t with
  | .object owner => do ReadM.alloc (← Pass.ofExcept (c.newInstance owner))
  | _ => Pass.fail (.encode .nullValue)

/-- Reads a value of a type with a serializer of the stock. -/
def readStock (t : ValueType) : Stock → ReadM Value
  | .bool => return .bool (← ReadM.take Read.bool)
  | .int => return .int (← ReadM.take (Read.varI32 false))
  | .long => return .long (← ReadM.take (Read.varI64 false))
  | .float => return .float (← ReadM.take Read.word32)
  | .double => return .double (← ReadM.take Read.word64)
  | .str => return .str (← ReadM.take Read.string)
  | .capitals => return .str (← ReadM.take Read.string)
  | .fixedInt => return .int (← ReadM.take Read.i32)
  | .nothing => return .null
  | .failing => do
    let _ ← ReadM.take Read.u8
    Pass.fail (.decode .unexpectedNull)
  | .scopeProbe => do
    let text ← ReadM.take Read.string
    let st ← get
    return .str (text ++ "/" ++ st.typing.probe st.input.position)
  | .lateHolder => do
    let first ← c.readTagged nested
    let o ← c.readNew t
    ReadM.setFirst o first
    return .object o
  | .earlyHolder => do
    let o ← c.readNew t
    ReadM.reference o
    let args := (← get).typing.holderArgs
    let first ← match ← c.readTag with
      | some r => nested { r.frame with args := args }
      | none => pure .null
    ReadM.setFirst o first
    return .object o

/-- Reads a value of a type with a serializer; `nested` reads the values inside it. -/
def readWith (t : ValueType) : Serializer → ReadM Value
  | .stock s => c.readStock nested t s
  | .record r => c.readRecord nested r
  | .catching inner => Pass.recover (readWith t inner) fun e => return .str e.message
  | .orNew inner => Pass.recover (readWith t inner) fun e =>
    match t with
    | .object _ => do
      let o ← c.readNew t
      ReadM.reference o
      return .object o
    | _ => Pass.fail e

end

/-- Reads a value inside its frame, following objects at most `depth` deep. -/
def readFramed (c : Codec) : (depth : Nat) → Frame → ReadM Value
  | 0, _ => throw .tooDeep
  | depth + 1, f => do
    let body : ReadM Value := do
      ReadM.supply f.serializer f.args
      c.readWith (c.readFramed depth) f.type f.serializer
    if f.type.isReference && c.references then
      match Marker.ofCode (← ReadM.take Read.varU32) with
      | .null => if f.nullable then return .null else Pass.fail (.decode .unexpectedNull)
      | .known number => ReadM.known number
      | .new => ReadM.numbered body
    else if f.nullable then
      if ← ReadM.take Read.bool then body else return .null
    else body

/-! ## Whole passes -/

/-- What a pass of reading leaves: how it ended, the input, the heap and the codec. -/
structure WasRead where
  result : Except Failure Value
  input : Input
  heap : Heap
  codec : Codec

/-- Runs a pass of reading from an input. -/
def runRead (c : Codec) (h : Heap) (input : Input) (body : ReadM Value) : WasRead :=
  let (result, st) := body.run.run ⟨input, h, .empty, ⟨.empty, c.cells⟩⟩
  ⟨result, st.input, st.heap, { c with cells := st.typing.cells }⟩

/-- Reads a value with its type tag. -/
def readValue (c : Codec) (depth : Nat) (h : Heap) (input : Input) : WasRead :=
  c.runRead h input (c.readTagged (c.readFramed depth))

/-- Reads a value of a type without type tag. -/
def readUntagged (c : Codec) (depth : Nat) (h : Heap) (input : Input) (t : ValueType)
    (args : List ConcreteType) : WasRead :=
  c.runRead h input do
    let s ← Pass.ofExcept ((c.serializer t).mapError .config)
    c.readFramed depth ⟨t, s, args, false⟩

end Codec

end GraphCodec
