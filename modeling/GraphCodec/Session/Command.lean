import GraphCodec.Codec.Pass
import GraphCodec.Codec.Setup
import GraphCodec.Object.Graph

/-!
# Sessions — commands and replies

A session is driven by `Command`s. Values in them are written out or taken from a variable, and
class tables are those of the codec or loose ones, which the codec does not know. Every command has
one `Reply`, which holds nothing that depends on the heap of the session.
-/

namespace GraphCodec

/-- A value in a command. -/
inductive Operand
  | literal (v : Value)
  /-- What a variable holds; null if it holds nothing. -/
  | ofVariable (name : String)

/-- Where a class table is looked up. -/
inductive ClassSource
  /-- In the codec. -/
  | known (c : ClassId)
  /-- Among the loose tables, by name. -/
  | loose (name : String)

/-- What is written around a value. -/
inductive WriteMode
  | tagged
  /-- No type tag, but type arguments. -/
  | untagged (args : List ConcreteType)
  /-- With a type tag, into an output of its own, which is added only if all of it was written. -/
  | whole

/-- What is expected around a value. -/
inductive ReadMode
  | tagged
  /-- No type tag, but a type with type arguments. -/
  | untagged (t : ValueType) (args : List ConcreteType)
  /-- With a type tag, from the start of the bytes. -/
  | whole

/-- Where bytes are taken from. -/
inductive ByteSource
  | literal (bytes : List UInt8)
  | buffer (name : String)

/-- A condition on the entries of a field table. -/
inductive FieldCondition
  | generic
  | nullable
  | notSerialized
  | notCopied
  | named (name : String)

namespace FieldCondition

/-- Whether an entry meets the condition. -/
def holds : FieldCondition → FieldEntry → Bool
  | generic, e => e.isGeneric
  | nullable, e => e.nullable
  | notSerialized, e => !e.serialized
  | notCopied, e => !e.copied
  | named name, e => e.name = name

end FieldCondition

/-- One step of a session. A name under `keep` is the variable that takes the resulting value. -/
inductive Command
  | registerClass (d : ClassDecl) (plan : ClassPlan Operand)
  | keepLoose (name : String) (d : ClassDecl)
  | create (source : ClassSource) (values : Option (List Operand))
      (fields : List (String × Operand)) (keep : Option String)
  | set (object field : String) (value : Operand)
  | get (object field : String) (keep : Option String)
  /-- Reads or sets a field through a slot, while the fields of another object are being read. -/
  | access (source : ClassSource) (field object : String) (value : Option Operand)
      (held : Option String)
  | compare (a b : Operand)
  | dump (value : Operand)
  | inspect (value : Operand)
  | write (value : Operand) (before : List UInt8) (mode : WriteMode) (buffer : Option String)
  /-- Reads from the first `cut` bytes with some of them replaced, after skipping a number of
  them. -/
  | read (source : ByteSource) (cut : Option Nat) (patches : List (Nat × UInt8))
      (skip : Option Nat) (mode : ReadMode) (keep : Option String)
  | copy (value : Operand) (keep : Option String)
  | showFields (c : ClassId)
  | configureField (c : ClassId) (field : String)
      (settings : FieldSettings (SerializerSpec Operand))
  | showField (c : ClassId) (field : String)
  | removeField (c : ClassId) (field : String)
  | removeFields (c : ClassId) (condition : FieldCondition)
  | setOptions (c : ClassId) (options : FieldOptions)
  /-- Asks whether a type has a record serializer without hooks that can be configured. -/
  | expectRecord (t : ValueType)
  /-- Asks whether a type has this serializer of the stock, open to configuration. -/
  | expectStock (t : ValueType) (s : Stock)
  /-- Asks whether a type has a serializer. -/
  | expectSerializer (t : ValueType)
  | setDefaults (options : FieldOptions)
  | setContext (entries : List (String × String))
  | setReferences (on : Bool)
  | register (t : ValueType) (spec : SerializerSpec Operand)
  | showRegistration (t : ValueType)
  | showRegistrationAt (number : Nat)
  | supply (t : ValueType) (args : List ConcreteType)
  | showClasses

/-- The answer to a command. -/
inductive Reply
  | done
  | failed (e : Failure)
  /-- The command is for an object, and its variable holds none. -/
  | noObject
  | registeredClass (c : ClassId) (number : Nat)
  | registered (number : Nat)
  | created (c : ClassId) (fields : List Outline)
  | value (v : Outline)
  | accessed (slot : Slot) (result : Except AccessError Outline)
  | compared (graph same : Bool)
  | graph (g : Graph)
  | inspected (value : String) (object : Option String)
  /-- The output, which may end in the middle, and why it does. -/
  | written (bytes : List UInt8) (failure : Option Failure)
  | wasRead (result : Except Failure Graph) (position : Nat)
  /-- A copy, and how many of its objects belong to what was copied. -/
  | copied (g : Graph) (shared : Nat)
  | table (r : RecordSerializer)
  | entry (e : FieldEntry)
  | configured (e : FieldEntry)
  | removed (e : FieldEntry) (r : RecordSerializer)
  | options (o : FieldOptions)
  | size (n : Nat)
  | switched (on : Bool)
  | registration (r : Option (Registration × Nat))
  /-- The paths of all known classes, sorted. -/
  | classes (paths : List String)

end GraphCodec
