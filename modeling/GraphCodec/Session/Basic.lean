import GraphCodec.Codec.Copy
import GraphCodec.Codec.Read
import GraphCodec.Codec.Write
import GraphCodec.Object.SameGraph
import GraphCodec.Session.Command

/-!
# Sessions

A `Session` is a codec with a heap, variables, byte buffers and loose class tables. `Session.step`
carries out a command. A command that fails leaves variables and buffers as they were, and the
session goes on.
-/

namespace GraphCodec

/-- A codec in use. -/
structure Session where
  codec : Codec
  heap : Heap
  /-- The values of the variables. -/
  stored : Table String Value
  buffers : Table String (List UInt8)
  loose : Table String ClassDecl

/-- Why a command has no result. -/
inductive Refusal
  | failure (e : Failure)
  | noObject

namespace Refusal

def reply : Refusal → Reply
  | failure e => .failed e
  | noObject => .noObject

end Refusal

namespace Session

def new : Session := ⟨.new, .empty, .empty, .empty, .empty⟩

/-- How deep reading follows objects into each other. -/
def readDepth : Nat := 10000

/-- The result of a command, if it has one, and the session after it. -/
abbrev Outcome := Except Refusal (Reply × Session)

/-- Refuses a command because of an error. -/
def orRefuse {α : Type} (r : Except CodecError α) : Except Refusal α :=
  r.mapError fun e => .failure (.error e)

/-- Refuses a command because of an error in how the codec is set up. -/
def orConfigRefuse {α : Type} (r : Except ConfigError α) : Except Refusal α :=
  orRefuse (r.mapError .config)

/-- Refuses a command because a slot cannot be read or set. -/
def orAccessRefuse {α : Type} (r : Except AccessError α) : Except Refusal α :=
  orRefuse (r.mapError .ofAccess)

/-- The value of an operand. -/
def value (s : Session) : Operand → Value
  | .literal v => v
  | .ofVariable name => (s.stored.get? name).getD .null

/-- The object that a variable holds. -/
def object (s : Session) (name : String) : Except Refusal ObjectId :=
  match s.stored.get? name with
  | some (.object o) => .ok o
  | _ => .error .noObject

/-- Puts a value into a variable, if one is named. -/
def keep (s : Session) (name : Option String) (v : Value) : Session :=
  match name with
  | some name => { s with stored := s.stored.insert name v }
  | none => s

/-- The class table from a source. -/
def classDecl (s : Session) : ClassSource → Except Refusal ClassDecl
  | .known c => orConfigRefuse (s.codec.classDecl c)
  | .loose name =>
    match s.loose.get? name with
    | some d => .ok d
    | none => .error .noObject

/-- The plan with the values of its operands. -/
def plan (s : Session) : ClassPlan Operand → ClassPlan Value
  | .refuse => .refuse
  | .standard => .standard
  | .configured options => .configured options
  | .hooked hooks options => .hooked (hooks.map s.value) options
  | .custom spec => .custom (spec.map s.value)

/-- The serializer that is asked for, if one is. -/
def buildOptional (s : Session) (c : Codec) :
    Option (SerializerSpec Operand) → Except CodecError (Option Serializer × Codec)
  | none => .ok (none, c)
  | some spec => do
    let (made, c) ← c.build (spec.map s.value)
    return (some made, c)

/-- The settings with their serializers made. -/
def buildSettings (s : Session) (k : FieldSettings (SerializerSpec Operand)) :
    Except CodecError (FieldSettings Serializer × Codec) := do
  let (typed, c) ← s.buildOptional s.codec (k.typed.map Prod.snd)
  let (plain, c) ← s.buildOptional c k.serializer
  return (⟨k.valueType, k.typed.bind fun p => typed.map fun made => (p.1, made), plain,
    k.clearSerializer, k.nullable, k.varInt, k.optimizePositive⟩, c)

/-! ## Objects -/

/-- An instance with the given values, or with initial ones. -/
def newObject (s : Session) (source : ClassSource) (values : Option (List Operand)) :
    Except Refusal (ObjectId × Heap) :=
  match values, source with
  | some values, _ => do
    let d ← s.classDecl source
    orAccessRefuse (s.heap.allocWith d (values.map s.value))
  | none, .known c => do
    let x ← orRefuse (s.codec.newInstance c)
    return s.heap.alloc x
  | none, .loose _ => do
    let d ← s.classDecl source
    return s.heap.alloc (.fresh d)

def create (s : Session) (source : ClassSource) (values : Option (List Operand))
    (fields : List (String × Operand)) (name : Option String) : Outcome := do
  let (o, heap) ← s.newObject source values
  let heap ← orAccessRefuse (heap.setFields o (fields.map fun p => (p.1, s.value p.2)))
  let s := { s with heap := heap }.keep name (.object o)
  let x := heap.get o
  return (.created x.owner (x.slots.map heap.outline), s)

def set (s : Session) (object field : String) (v : Operand) : Outcome := do
  let o ← s.object object
  let (old, heap) ← orAccessRefuse (s.heap.setField o field (s.value v))
  return (.value (heap.outline old), { s with heap := heap })

def get (s : Session) (object field : String) (name : Option String) : Outcome := do
  let o ← s.object object
  let v ← orAccessRefuse (s.heap.field o field)
  return (.value (s.heap.outline v), s.keep name v)

/-- The objects whose fields are being read while a slot is used. -/
def heldObjects (s : Session) (held : Option String) : List ObjectId :=
  ((held.bind s.stored.get?).bind Value.object?).toList

def access (s : Session) (source : ClassSource) (field object : String) (v : Option Operand)
    (held : Option String) : Outcome := do
  let o ← s.object object
  let slot ← orAccessRefuse (Slot.of (← s.classDecl source) field)
  match v with
  | none => return (.accessed slot ((slot.get s.heap o).map s.heap.outline), s)
  | some v =>
    match slot.setWhile (s.heldObjects held) s.heap o (s.value v) with
    | .ok (old, heap) => return (.accessed slot (.ok (heap.outline old)), { s with heap := heap })
    | .error e => return (.accessed slot (.error e), s)

/-! ## Passes -/

def write (s : Session) (v : Operand) (before : List UInt8) (mode : WriteMode)
    (buffer : Option String) : Reply × Session :=
  let v := s.value v
  let out := (Output.empty.write (.bytes before))
  let w := match mode with
    | .tagged => s.codec.writeValue s.heap out v
    | .untagged args => s.codec.writeUntagged s.heap out v args
    | .whole => s.codec.writeValue s.heap .empty v
  let bytes := match mode, w.result with
    | .whole, .ok _ => before ++ w.output.bytes.toList
    | .whole, .error _ => before
    | _, _ => w.output.bytes.toList
  let buffers := match buffer with
    | some name => s.buffers.insert name bytes
    | none => s.buffers
  let failure := match w.result with
    | .ok _ => none
    | .error e => some e
  (.written bytes failure, { s with codec := w.codec, buffers := buffers })

/-- The bytes from a source, cut and patched. Patches outside of them have no effect. -/
def bytes (s : Session) (source : ByteSource) (cut : Option Nat) (patches : List (Nat × UInt8)) :
    List UInt8 :=
  let all := match source with
    | .literal bytes => bytes
    | .buffer name => (s.buffers.get? name).getD []
  let all := match cut with
    | some n => all.take n
    | none => all
  patches.foldl (fun bytes p => bytes.set p.1 p.2) all

/-- The input after skipping some bytes. -/
def skipped (bytes : List UInt8) (skip : Option Nat) : Except Refusal Input :=
  match skip with
  | none => .ok (.ofBytes bytes)
  | some n =>
    match (Read.bytes n).onInput (.ofBytes bytes) with
    | (.ok _, input) => .ok input
    | (.error e, _) => .error (.failure (.error (.decode e)))

def read (s : Session) (source : ByteSource) (cut : Option Nat) (patches : List (Nat × UInt8))
    (skip : Option Nat) (mode : ReadMode) (name : Option String) : Outcome := do
  let bytes := s.bytes source cut patches
  let input ← skipped bytes skip
  let r := match mode with
    | .tagged => s.codec.readValue readDepth s.heap input
    | .untagged t args => s.codec.readUntagged readDepth s.heap input t args
    | .whole => s.codec.readValue readDepth s.heap (.ofBytes bytes)
  let position := match mode with
    | .whole => input.position
    | _ => r.input.position
  let s := { s with codec := r.codec, heap := r.heap }
  match r.result with
  | .ok v => return (.wasRead (.ok (Graph.ofValue r.heap v)) position, s.keep name v)
  | .error e => return (.wasRead (.error e) position, s)

def copy (s : Session) (v : Operand) (name : Option String) : Reply × Session :=
  let v := s.value v
  let r := s.codec.copy s.heap v
  let s := { s with heap := r.heap }
  match r.result with
  | .error e => (.failed e, s)
  | .ok copied =>
    let sources := r.heap.reachable v
    let shared := (r.heap.reachable copied).filter sources.contains
    (.copied (Graph.ofValue r.heap copied) shared.length, s.keep name copied)

/-! ## Setting up -/

def configureField (s : Session) (c : ClassId) (field : String)
    (settings : FieldSettings (SerializerSpec Operand)) : Outcome := do
  let (settings, codec) ← orRefuse (s.buildSettings settings)
  let (e, codec) ← orConfigRefuse (codec.configureField c field settings)
  return (.configured e, { s with codec := codec })

def registerClass (s : Session) (d : ClassDecl) (plan : ClassPlan Operand) : Reply × Session :=
  match s.codec.registerClass d (s.plan plan) with
  | (.ok number, codec) => (.registeredClass d.id number, { s with codec := codec })
  | (.error e, codec) => (.failed (.error e), { s with codec := codec })

/-- Carries out a command that can be refused. -/
def attempt (s : Session) : Command → Outcome
  | .registerClass d plan => return s.registerClass d plan
  | .keepLoose name d => return (.done, { s with loose := s.loose.insert name d })
  | .create source values fields name => s.create source values fields name
  | .set object field v => s.set object field v
  | .get object field name => s.get object field name
  | .access source field object v held => s.access source field object v held
  | .compare a b =>
    return (.compared (s.heap.sameGraph (s.value a) (s.value b)) ((s.value a).same (s.value b)), s)
  | .dump v => return (.graph (Graph.ofValue s.heap (s.value v)), s)
  | .inspect v => do
    let v := s.value v
    return (.inspected (s.heap.inspect v) (v.object?.map s.heap.inspectObject), s)
  | .write v before mode buffer => return s.write v before mode buffer
  | .read source cut patches skip mode name => s.read source cut patches skip mode name
  | .copy v name => return s.copy v name
  | .showFields c => do return (.table (← orConfigRefuse (s.codec.record (.object c))), s)
  | .configureField c field settings => s.configureField c field settings
  | .showField c field => do
    let r ← orConfigRefuse (s.codec.record (.object c))
    return (.entry (← orConfigRefuse (r.entry field)), s)
  | .removeField c field => do
    let (e, r, codec) ← orConfigRefuse (s.codec.removeField c field)
    return (.removed e r, { s with codec := codec })
  | .removeFields c condition => do
    let (r, codec) ← orConfigRefuse (s.codec.removeFields c condition.holds)
    return (.table r, { s with codec := codec })
  | .setOptions c options => do
    let (r, codec) ← orConfigRefuse (s.codec.setOptions c options)
    return (.table r, { s with codec := codec })
  | .expectRecord t => do
    let _ ← orConfigRefuse (s.codec.plainRecord t)
    return (.done, s)
  | .expectStock t stock => do
    orConfigRefuse (s.codec.expectStock t stock)
    return (.done, s)
  | .expectSerializer t => do
    let _ ← orConfigRefuse (s.codec.serializer t)
    return (.done, s)
  | .setDefaults options =>
    return (.options options, { s with codec := s.codec.setDefaults options })
  | .setContext entries =>
    let context := Table.ofList entries
    return (.size context.size, { s with codec := s.codec.setContext context })
  | .setReferences on =>
    return (.switched on, { s with codec := s.codec.setReferences on })
  | .register t spec => do
    let (number, codec) ← orRefuse (s.codec.registerSpec t (spec.map s.value))
    return (.registered number, { s with codec := codec })
  | .showRegistration t =>
    return (.registration ((s.codec.registration? t).bind fun r =>
      (s.codec.number? t).map fun n => (r, n)), s)
  | .showRegistrationAt number =>
    return (.registration ((s.codec.registrationAt? number).map fun r => (r, number)), s)
  | .supply t args => do
    let codec ← orConfigRefuse (s.codec.supply t args)
    return (.done, { s with codec := codec })
  | .showClasses => return (.classes s.codec.catalog.sortedPaths, s)

/-- Carries out a command. A refused command leaves the session as it was. -/
def step (s : Session) (command : Command) : Reply × Session :=
  match s.attempt command with
  | .ok result => result
  | .error refusal => (refusal.reply, s)

/-- Carries out commands one after the other. -/
def run (s : Session) : List Command → List Reply
  | [] => []
  | command :: rest =>
    let (reply, s) := s.step command
    reply :: s.run rest

end Session

end GraphCodec
