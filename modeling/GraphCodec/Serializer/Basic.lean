import GraphCodec.Serializer.FieldEntry
import GraphCodec.Table

/-!
# Serializers

A `Serializer` writes, reads and copies the values of one type. It is one of the stock, a record
serializer, which goes through the fields of a class, or another serializer with a rule for its
failures. `Hooks` change how a record serializer makes instances and what its field table looks
like.
-/

namespace GraphCodec

/-- How the instance that is to be filled in is made. -/
inductive Creation
  /-- As a fresh instance of the class, whether or not the class allows it. -/
  | raw
  /-- Not at all. -/
  | refuse
  /-- As an instance of this class. -/
  | ofClass (c : ClassId)
  deriving DecidableEq

/-- Changes to the ways of a record serializer, with values of type `ν`. -/
structure Hooks (ν : Type) where
  /-- How reading makes instances; as instances of the class where it is not given. -/
  create : Option Creation
  /-- How copying makes instances; as instances of the class of the copied object where it
  is not given. -/
  createCopy : Option Creation
  /-- Fields that are set on each new instance, unless copying made it in the usual way. -/
  prefill : List (String × ν)
  /-- Fields that are taken out of every new field table. -/
  removed : List String
  /-- Settings that are applied to every new field table. -/
  settings : List (String × FieldSettings Stock)

namespace Hooks

variable {ν μ : Type}

/-- The hooks with every value replaced. -/
def map (f : ν → μ) (k : Hooks ν) : Hooks μ :=
  { k with prefill := k.prefill.map fun p => (p.1, f p.2) }

end Hooks

namespace FieldSettings

variable {σ τ : Type}

/-- The settings with every serializer replaced. -/
def map (f : σ → τ) (s : FieldSettings σ) : FieldSettings τ where
  valueType := s.valueType
  typed := s.typed.map fun p => (p.1, f p.2)
  serializer := s.serializer.map f
  clearSerializer := s.clearSerializer
  nullable := s.nullable
  varInt := s.varInt
  optimizePositive := s.optimizePositive

end FieldSettings

/-- A serializer that goes through the fields of a class, where `σ` stands for serializers. -/
structure RecordSerializerOf (σ : Type) where
  decl : ClassDecl
  options : FieldOptions
  /-- The ambient context for which the field table was built. -/
  context : Table String String
  entries : List (FieldEntryOf σ)
  /-- Where the type arguments for the next object are left. -/
  cell : Nat
  hooks : Option (Hooks Value)

/-- What writes, reads and copies the values of a type. -/
inductive Serializer
  | stock (s : Stock)
  | record (r : RecordSerializerOf Serializer)
  /-- A failure of the inner serializer becomes a string with the words for it. -/
  | catching (inner : Serializer)
  /-- After a failure of the inner serializer there is a new instance. -/
  | orNew (inner : Serializer)

abbrev FieldEntry := FieldEntryOf Serializer

abbrev RecordSerializer := RecordSerializerOf Serializer

/-- How a serializer is asked for, with values of type `ν` in its hooks. -/
inductive SerializerSpec (ν : Type)
  | stock (s : Stock)
  /-- A record serializer of a class; the options are those of the codec where none are given. -/
  | record (c : ClassId) (options : Option FieldOptions) (hooks : Option (Hooks ν))
  | catching (inner : SerializerSpec ν)
  | orNew (inner : SerializerSpec ν)

namespace SerializerSpec

variable {ν μ : Type}

/-- The request with every value replaced. -/
def map (f : ν → μ) : SerializerSpec ν → SerializerSpec μ
  | .stock s => .stock s
  | .record c options hooks => .record c options (hooks.map (Hooks.map f))
  | .catching inner => .catching (inner.map f)
  | .orNew inner => .orNew (inner.map f)

/-- Whether what is asked for can be configured further once a type is registered with it. -/
def isExposed : SerializerSpec ν → Bool
  | .stock s => s.isBuiltIn
  | .record _ _ hooks => hooks.isNone
  | .catching _ | .orNew _ => false

end SerializerSpec

end GraphCodec
