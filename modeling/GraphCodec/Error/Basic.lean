import GraphCodec.Bytes.Input
import GraphCodec.Schema.ClassId

/-!
# Errors — causes and their wording

Every failure is a cause: of access to a slot, of a catalog, of how a codec is set up, of a graph
that cannot be written, of bytes that cannot be read. `CodecError` joins them, and wraps a cause
with the fields on the way to it. `message` is the only place where a cause gets words.

* `kind_inField`, `root_inField`: a wrapper changes neither the kind nor the root of an error.
-/

namespace GraphCodec

/-- A slot that cannot be read or set. -/
inductive AccessError
  | missingField (owner : ClassId) (field : String)
  | indexOutOfRange (owner : ClassId) (index : Nat)
  | wrongClass (expected found : ClassId)
  | fieldCount (owner : ClassId) (expected found : Nat)
  | busy (owner : ClassId)
  deriving DecidableEq

/-- A class table that a catalog refuses. -/
inductive CatalogError
  | alreadyRegistered (owner : ClassId)
  | duplicateField (owner : ClassId) (field : String)
  | unknownTypeParam (owner : ClassId) (field param : String)
  deriving DecidableEq

/-- A codec or serializer whose set-up does not fit. -/
inductive ConfigError
  | genericArity (owner : ClassId) (expected found : Nat)
  | unknownField (owner : ClassId) (field : String)
  | unregisteredType (type : ValueType)
  | unexpectedSerializer (type : ValueType)
  | copyUnsupported (type : ValueType)
  | unresolvedFieldType (owner : ClassId) (field : String)
  | catalog (e : CatalogError)
  | access (e : AccessError)
  deriving DecidableEq

/-- A graph that cannot be written. -/
inductive EncodeError
  | nullValue
  | typeMismatch (expected found : ValueType)
  | cycle (owner : ClassId)
  deriving DecidableEq

/-- The four classes of failure. -/
inductive ErrorKind
  | config
  | construction
  | encode
  | decode
  deriving DecidableEq

/-- A failure of a codec, with the fields on the way to it outermost first. -/
inductive CodecError
  | config (e : ConfigError)
  | construction (owner : ClassId) (reason : String)
  | encode (e : EncodeError)
  | decode (e : DecodeError)
  | inField (owner : ClassId) (field : String) (source : CodecError)
  deriving DecidableEq

namespace AccessError

def message : AccessError → String
  | missingField owner field => s!"field `{field}` not found in `{owner}`"
  | indexOutOfRange owner index => s!"field index {index} out of range for `{owner}`"
  | wrongClass expected found => s!"expected an instance of `{expected}`, found `{found}`"
  | fieldCount owner expected found =>
    s!"`{owner}` declares {expected} fields, {found} values were given"
  | busy owner => s!"fields of `{owner}` are already borrowed"

end AccessError

namespace CatalogError

def message : CatalogError → String
  | alreadyRegistered owner => s!"class `{owner}` is already registered"
  | duplicateField owner field => s!"field `{field}` is declared twice in `{owner}`"
  | unknownTypeParam owner field param =>
    s!"field `{field}` of `{owner}` uses undeclared type parameter `{param}`"

end CatalogError

namespace ConfigError

def message : ConfigError → String
  | genericArity owner expected found =>
    s!"`{owner}` declares {expected} type parameters, {found} type arguments were given"
  | unknownField owner field => s!"field `{field}` not found in `{owner}`"
  | unregisteredType type => s!"type `{type}` is not registered"
  | unexpectedSerializer type => s!"the serializer registered for `{type}` has a different type"
  | copyUnsupported type => s!"the serializer for `{type}` does not support copy"
  | unresolvedFieldType owner field =>
    s!"the value type of field `{field}` in `{owner}` can not be resolved for its bound serializer"
  | catalog e => e.message
  | access e => e.message

end ConfigError

namespace EncodeError

def message : EncodeError → String
  | nullValue => "null value where a non-null value is required"
  | typeMismatch expected found => s!"expected a value of type `{expected}`, found `{found}`"
  | cycle owner => s!"an instance of `{owner}` contains itself, which needs reference tracking"

end EncodeError

namespace CodecError

/-- The words for a failure; a wrapper puts its field in front. -/
def message : CodecError → String
  | config e => e.message
  | construction owner reason => s!"can not create an instance of `{owner}`: {reason}"
  | encode e => e.message
  | decode e => e.message
  | inField owner field source => s!"field `{field}` of `{owner}`: " ++ source.message

/-- The class of a failure, below all wrappers. -/
def kind : CodecError → ErrorKind
  | config _ => .config
  | construction _ _ => .construction
  | encode _ => .encode
  | decode _ => .decode
  | inField _ _ source => source.kind

/-- The failure below all wrappers. -/
def root : CodecError → CodecError
  | inField _ _ source => source.root
  | e => e

/-- What a wrapper wraps. -/
def source? : CodecError → Option CodecError
  | inField _ _ source => some source
  | _ => none

/-- The wrapped failures from the outside in. -/
def chain : CodecError → List CodecError
  | inField _ _ source => source :: source.chain
  | _ => []

@[simp] theorem kind_inField (owner : ClassId) (field : String) (e : CodecError) :
    (inField owner field e).kind = e.kind := rfl

@[simp] theorem root_inField (owner : ClassId) (field : String) (e : CodecError) :
    (inField owner field e).root = e.root := rfl

/-- The failure that a slot cannot be read or set. -/
def ofAccess (e : AccessError) : CodecError := config (.access e)

end CodecError

end GraphCodec
