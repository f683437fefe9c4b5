import GraphCodec.Error.Basic

/-!
# Errors — names of causes and texts for inspection

`label` is the short name of a cause; `CodecError.path` joins the labels from the kind of a
failure down to its root. `inspect` shows a cause with everything it carries.
-/

namespace GraphCodec

open Text

namespace AccessError

def label : AccessError → String
  | missingField .. => "MissingField"
  | indexOutOfRange .. => "IndexOutOfRange"
  | wrongClass .. => "WrongClass"
  | fieldCount .. => "FieldCount"
  | busy .. => "Busy"

def inspect (e : AccessError) : String :=
  record e.label <|
    match e with
    | missingField owner field => [("class", owner.inspect), ("field", quoted field)]
    | indexOutOfRange owner index => [("class", owner.inspect), ("index", toString index)]
    | wrongClass expected found => [("expected", expected.inspect), ("found", found.inspect)]
    | fieldCount owner expected found =>
      [("class", owner.inspect), ("expected", toString expected), ("found", toString found)]
    | busy owner => [("class", owner.inspect)]

end AccessError

namespace CatalogError

def label : CatalogError → String
  | alreadyRegistered .. => "AlreadyRegistered"
  | duplicateField .. => "DuplicateField"
  | unknownTypeParam .. => "UnknownTypeParam"

def inspect (e : CatalogError) : String :=
  match e with
  | alreadyRegistered owner => tuple e.label [owner.inspect]
  | duplicateField owner field =>
    record e.label [("class", owner.inspect), ("field", quoted field)]
  | unknownTypeParam owner field param =>
    record e.label [("class", owner.inspect), ("field", quoted field), ("param", quoted param)]

end CatalogError

namespace ConfigError

def label : ConfigError → String
  | genericArity .. => "GenericArity"
  | unknownField .. => "UnknownField"
  | unregisteredType .. => "UnregisteredType"
  | unexpectedSerializer .. => "UnexpectedSerializer"
  | copyUnsupported .. => "CopyUnsupported"
  | unresolvedFieldType .. => "UnresolvedFieldType"
  | catalog _ => "Registry"
  | access _ => "Access"

/-- The label, followed by that of the cause below it where there is one. -/
def path (e : ConfigError) : String :=
  match e with
  | catalog c => e.label ++ "/" ++ c.label
  | access a => e.label ++ "/" ++ a.label
  | _ => e.label

def inspect (e : ConfigError) : String :=
  match e with
  | genericArity owner expected found =>
    record e.label
      [("class", owner.inspect), ("expected", toString expected), ("found", toString found)]
  | unknownField owner field =>
    record e.label [("class", owner.inspect), ("field", quoted field)]
  | unregisteredType type => tuple e.label [toString type]
  | unexpectedSerializer type => tuple e.label [toString type]
  | copyUnsupported type => tuple e.label [toString type]
  | unresolvedFieldType owner field =>
    record e.label [("class", owner.inspect), ("field", quoted field)]
  | catalog c => tuple e.label [c.inspect]
  | access a => tuple e.label [a.inspect]

end ConfigError

namespace EncodeError

def label : EncodeError → String
  | nullValue => "NullValue"
  | typeMismatch .. => "TypeMismatch"
  | cycle .. => "Cycle"

def inspect (e : EncodeError) : String :=
  match e with
  | nullValue => e.label
  | typeMismatch expected found =>
    record e.label [("expected", toString expected), ("found", toString found)]
  | cycle owner => tuple e.label [owner.inspect]

end EncodeError

namespace DecodeError

def label : DecodeError → String
  | unexpectedEnd .. => "UnexpectedEnd"
  | malformedVarint .. => "MalformedVarint"
  | invalidBool .. => "InvalidBool"
  | invalidUtf8 .. => "InvalidUtf8"
  | unknownTypeTag .. => "UnknownTypeTag"
  | unknownReference .. => "UnknownReference"
  | unexpectedNull => "UnexpectedNull"

def inspect (e : DecodeError) : String :=
  match e with
  | unexpectedEnd position needed =>
    record e.label [("position", toString position), ("needed", toString needed)]
  | malformedVarint position => record e.label [("position", toString position)]
  | invalidBool position byte =>
    record e.label [("position", toString position), ("byte", toString byte.toNat)]
  | invalidUtf8 position => record e.label [("position", toString position)]
  | unknownTypeTag position tag =>
    record e.label [("position", toString position), ("tag", toString tag)]
  | unknownReference number => tuple e.label [toString number]
  | unexpectedNull => e.label

end DecodeError

namespace ErrorKind

def label : ErrorKind → String
  | config => "Config"
  | construction => "Construction"
  | encode => "Encode"
  | decode => "Decode"

end ErrorKind

namespace CodecError

/-- The labels from the kind of a failure down to its root, field wrappers left out. -/
def path : CodecError → String
  | config e => ErrorKind.config.label ++ "/" ++ e.path
  | construction _ _ => ErrorKind.construction.label
  | encode e => ErrorKind.encode.label ++ "/" ++ e.label
  | decode e => ErrorKind.decode.label ++ "/" ++ e.label
  | inField _ _ source => source.path

def inspect : CodecError → String
  | config e => tuple ErrorKind.config.label [e.inspect]
  | construction owner reason =>
    record ErrorKind.construction.label [("class", owner.inspect), ("reason", quoted reason)]
  | encode e => tuple ErrorKind.encode.label [e.inspect]
  | decode e => tuple ErrorKind.decode.label [e.inspect]
  | inField owner field source =>
    record "Field"
      [("class", owner.inspect), ("field", quoted field), ("source", source.inspect)]

end CodecError

end GraphCodec
