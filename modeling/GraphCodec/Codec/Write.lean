import GraphCodec.Bytes.Item
import GraphCodec.Codec.Pass
import GraphCodec.Object.Numbering

/-!
# Codecs — writing

A value is written inside a `Frame`: a marker or a presence byte where the frame asks for one,
then what the serializer of the frame writes. A type tag in front of a value tells the reader
which frame follows. Where objects keep their identity, an object is written the first time it is
met and is a number from then on; where they do not, an object met again inside itself is an
error.

* `writeFramed` follows objects into each other, at most as deep as its first argument says. An
  object is never met new inside itself, so that the number of objects is deep enough.
-/

namespace GraphCodec

/-- The state of writing. -/
structure WriteState where
  output : Output
  numbering : Numbering
  /-- The objects that are being written, where objects do not keep their identity. -/
  path : List ObjectId
  typing : Typing

/-- A part of writing. -/
abbrev WriteM (α : Type) := Pass WriteState α

namespace WriteM

variable {α : Type}

def item (i : Item) : WriteM Unit :=
  modify fun st => { st with output := st.output.write i }

def varint (n : Nat) : WriteM Unit :=
  modify fun st => { st with output := st.output.writeVarint n }

/-- The marker for an object. -/
def meet (o : ObjectId) : WriteM Marker := do
  let (m, numbering) := (← get).numbering.meet o
  modify fun st => { st with numbering := numbering }
  return m

/-- Takes out the type arguments left for a record serializer. -/
def takeArguments (r : RecordSerializer) : WriteM (Option Resolution) := do
  let (s, typing) := (← get).typing.take r
  modify fun st => { st with typing := typing }
  Pass.ofExcept s

/-- Leaves type arguments for the next object of a serializer. -/
def supply (s : Serializer) (args : List ConcreteType) : WriteM Unit :=
  modify fun st => { st with typing := st.typing.supply s args }

/-- Writes inside a scope, which is left again also after a failure. -/
def inScope (scope : Option TypeScope) (body : WriteM α) : WriteM α := fun st =>
  let (a, st) := body { st with typing := st.typing.enter scope }
  (a, { st with typing := st.typing.leave scope })

/-- Writes an object that must not be met inside itself. -/
def onPath (o : ObjectId) (owner : ClassId) (body : WriteM α) : WriteM α := fun st =>
  if st.path.contains o then (.error (.error (.encode (.cycle owner))), st)
  else
    let (a, st) := body { st with path := o :: st.path }
    (a, { st with path := st.path.erase o })

end WriteM

namespace Codec

/-- Writes the type tag of a value, 0 for null, and gives the registration of its type. -/
def writeTag (c : Codec) (h : Heap) (v : Value) : WriteM (Option Registration) :=
  match h.typeOf v with
  | none => do
    WriteM.varint 0
    return none
  | some t =>
    match c.number? t, c.registration? t with
    | some n, some r => do
      WriteM.varint (n + 1)
      return some r
    | _, _ => Pass.fail (.config (.unregisteredType t))

section

variable (c : Codec) (h : Heap) (nested : Frame → Value → WriteM Unit)

/-- Writes a type tag and then the value. -/
def writeTagged (v : Value) : WriteM Unit := do
  match ← c.writeTag h v with
  | some r => nested r.frame v
  | none => return

/-- Writes the presence byte of a nullable integer. -/
def writePresence (e : FieldEntry) (v : Value) : WriteM Unit :=
  if e.nullable then WriteM.item (.bool !v.isNull) else pure ()

/-- Fails if the value is neither null nor of the type. -/
def requireType (expected : ValueType) (v : Value) : WriteM Unit :=
  match h.typeOf v with
  | some found => if found = expected then pure () else Pass.fail (h.mismatch expected v)
  | none => pure ()

/-- Writes one field of an object. -/
def writeField (e : FieldEntry) (o : ObjectId) (resolved : Option ConcreteType) : WriteM Unit := do
  let v ← Pass.ofExcept ((e.slot.get h o).mapError CodecError.ofAccess)
  if v.isNull && !e.nullable then Pass.fail (.encode .nullValue)
  match ← Pass.ofExcept (e.plan c resolved) with
  | .dynamic => c.writeTagged h nested v
  | .known f => do
    requireType h f.type v
    nested f v
  | .int => do
    requireType h .int v
    writePresence e v
    match v with
    | .int n => WriteM.item (if e.varInt then .varI32 n e.optimizePositive else .i32 n)
    | _ => return
  | .long => do
    requireType h .long v
    writePresence e v
    match v with
    | .long n => WriteM.item (if e.varInt then .varI64 n e.optimizePositive else .i64 n)
    | _ => return

/-- Writes the fields of an object from a place of the field table on. -/
def writeFields (r : RecordSerializer) (own : Option Resolution) (o : ObjectId) :
    Nat → FieldTable → WriteM Unit
  | _, [] => return
  | index, e :: rest => do
    if e.serialized then
      let resolved := r.resolved own (← get).typing.scopes index e
      Pass.inField r.decl.id e.name (c.writeField h nested e o resolved)
    writeFields r own o (index + 1) rest

/-- Writes an object field by field. -/
def writeRecord (r : RecordSerializer) (v : Value) : WriteM Unit := do
  let own ← WriteM.takeArguments r
  let o ← Pass.ofExcept (h.instanceOf r.decl.id v)
  WriteM.inScope (own.map Resolution.scope) (c.writeFields h nested r own o 0 r.entries)

/-- Writes an object as no more than its first field. -/
def writeHolder (v : Value) (field : Value → WriteM Unit) : WriteM Unit :=
  match v with
  | .object o => do field (← Pass.ofExcept (h.firstValue o))
  | _ => Pass.fail (.encode .nullValue)

/-- Writes a value with a serializer of the stock. -/
def writeStock : Stock → Value → WriteM Unit
  | .bool, .bool b => WriteM.item (.bool b)
  | .bool, v => Pass.fail (h.mismatch .bool v)
  | .int, .int n => WriteM.item (.varI32 n false)
  | .int, v => Pass.fail (h.mismatch .int v)
  | .long, .long n => WriteM.item (.varI64 n false)
  | .long, v => Pass.fail (h.mismatch .long v)
  | .float, .float bits => WriteM.item (.f32 bits)
  | .float, v => Pass.fail (h.mismatch .float v)
  | .double, .double bits => WriteM.item (.f64 bits)
  | .double, v => Pass.fail (h.mismatch .double v)
  | .str, .str s => WriteM.item (.str s)
  | .str, v => Pass.fail (h.mismatch .str v)
  | .capitals, .str s => WriteM.item (.str (s.map Char.toUpper))
  | .capitals, _ => WriteM.item (.str "")
  | .fixedInt, .int n => WriteM.item (.i32 n)
  | .fixedInt, _ => WriteM.item (.i32 (-7))
  | .nothing, _ => return
  | .failing, _ => do
    WriteM.item (.u8 0xEE)
    Pass.fail (.encode .nullValue)
  | .scopeProbe, _ => do
    let st ← get
    WriteM.item (.str (st.typing.probe st.output.position))
  | .lateHolder, v => writeHolder h v (c.writeTagged h nested)
  | .earlyHolder, v => writeHolder h v fun first => do
    let args := (← get).typing.holderArgs
    match ← c.writeTag h first with
    | some r => nested { r.frame with args := args } first
    | none => return

/-- Writes a value with a serializer; `nested` writes the values inside it. -/
def writeWith : Serializer → Value → WriteM Unit
  | .stock s, v => c.writeStock h nested s v
  | .record r, v => c.writeRecord h nested r v
  | .catching inner, v => Pass.recover (writeWith inner v) fun e => WriteM.item (.str e.message)
  | .orNew inner, v => Pass.recover (writeWith inner v) fun _ => return

end

/-- Writes a value inside its frame, following objects at most `depth` deep. -/
def writeFramed (c : Codec) (h : Heap) : (depth : Nat) → Frame → Value → WriteM Unit
  | 0, _, _ => throw .tooDeep
  | depth + 1, f, v => do
    let body : WriteM Unit := do
      WriteM.supply f.serializer f.args
      c.writeWith h (c.writeFramed h depth) f.serializer v
    if f.type.isReference && c.references then
      match v with
      | .object o =>
        let m ← WriteM.meet o
        WriteM.varint m.code
        if m = .new then body
      | _ =>
        if v.isNull && f.nullable then WriteM.varint Marker.null.code
        else Pass.fail (h.mismatch f.type v)
    else if v.isNull then
      if f.nullable then WriteM.item (.bool false) else Pass.fail (.encode .nullValue)
    else
      if f.nullable then WriteM.item (.bool true)
      match v.object? with
      | some o => if c.references then body else WriteM.onPath o (h.get o).owner body
      | none => body

/-! ## Whole passes -/

/-- What a pass of writing leaves: how it ended, the output, and the codec. -/
structure Written where
  result : Except Failure Unit
  output : Output
  codec : Codec

/-- A depth that no pass of writing exceeds. -/
def writeDepth (h : Heap) : Nat := h.size + 2

/-- Runs a pass of writing onto an output. -/
def runWrite (c : Codec) (out : Output) (body : WriteM Unit) : Written :=
  let (result, st) := body.run.run ⟨out, .empty, [], ⟨.empty, c.cells⟩⟩
  ⟨result, st.output, { c with cells := st.typing.cells }⟩

/-- Adds a value with its type tag to an output. -/
def writeValue (c : Codec) (h : Heap) (out : Output) (v : Value) : Written :=
  c.runWrite out (c.writeTagged h (c.writeFramed h (writeDepth h)) v)

/-- Adds a value without type tag to an output. Null cannot be written in this way. -/
def writeUntagged (c : Codec) (h : Heap) (out : Output) (v : Value) (args : List ConcreteType) :
    Written :=
  c.runWrite out <|
    match h.typeOf v with
    | none => Pass.fail (.encode .nullValue)
    | some t => do
      let s ← Pass.ofExcept ((c.serializer t).mapError .config)
      c.writeFramed h (writeDepth h) ⟨t, s, args, false⟩ v

end Codec

end GraphCodec
