import GraphCodec.Bytes.Item
import GraphCodec.Text.Inspection

/-!
# Bytes — reading

An `Input` is the bytes that are left and the number of bytes already taken. A `Read α` takes one
value off the front of an input or fails with a `DecodeError`; every read of this module that
fails gives the input back as it was.

`DecodeError` lists the ways in which bytes fail to hold what a reader expects, each with the
position at which this shows. The last three arise from type tags and reference markers.
-/

namespace GraphCodec

/-- Bytes that do not hold what the reader expects. -/
inductive DecodeError
  | unexpectedEnd (position needed : Nat)
  | malformedVarint (position : Nat)
  | invalidBool (position : Nat) (byte : UInt8)
  | invalidUtf8 (position : Nat)
  | unknownTypeTag (position tag : Nat)
  | unknownReference (number : Nat)
  | unexpectedNull
  deriving DecidableEq

namespace DecodeError

/-- A byte as two digits in base sixteen. -/
def hexByte (b : UInt8) : String := (if b < 16 then "0x0" else "0x") ++ Text.hex b.toNat

def message : DecodeError → String
  | unexpectedEnd position needed =>
    s!"unexpected end of input at byte {position}, {needed} more bytes needed"
  | malformedVarint position => s!"malformed variable-length integer at byte {position}"
  | invalidBool position byte =>
    "invalid boolean byte " ++ hexByte byte ++ s!" at byte {position}"
  | invalidUtf8 position => s!"invalid UTF-8 string at byte {position}"
  | unknownTypeTag position tag => s!"unknown type tag {tag} at byte {position}"
  | unknownReference number => s!"back-reference to unknown object id {number}"
  | unexpectedNull => "null value where a non-null value is required"

end DecodeError

/-- The unread bytes and the position of the first of them. -/
structure Input where
  position : Nat
  rest : List UInt8
  deriving DecidableEq

namespace Input

/-- The start of `bytes`. -/
def ofBytes (bytes : List UInt8) : Input := ⟨0, bytes⟩

/-- How many bytes are left. -/
def remaining (i : Input) : Nat := i.rest.length

def isEmpty (i : Input) : Bool := i.rest.isEmpty

end Input

/-- A step that takes a value off an input. -/
abbrev Read (α : Type) := ExceptT DecodeError (StateM Input) α

namespace Read

/-- Runs a read and gives its result together with the input after it. -/
def onInput {α : Type} (r : Read α) (i : Input) : Except DecodeError α × Input := r i

/-- The next `len` bytes. -/
def bytes (len : Nat) : Read (List UInt8) := fun i =>
  if len ≤ i.remaining then (.ok (i.rest.take len), ⟨i.position + len, i.rest.drop len⟩)
  else (.error (.unexpectedEnd i.position (len - i.remaining)), i)

/-- The next byte. -/
def u8 : Read UInt8 := fun i =>
  match i.rest with
  | [] => (.error (.unexpectedEnd i.position 1), i)
  | b :: rest => (.ok b, ⟨i.position + 1, rest⟩)

/-- A byte that is 0 or 1. -/
def bool : Read Bool := fun i =>
  match i.rest with
  | [] => (.error (.unexpectedEnd i.position 1), i)
  | b :: rest =>
    if b = 0 then (.ok false, ⟨i.position + 1, rest⟩)
    else if b = 1 then (.ok true, ⟨i.position + 1, rest⟩)
    else (.error (.invalidBool i.position b), i)

/-- The number that big-endian bytes stand for. -/
def bigEndian (bytes : List UInt8) : Nat := bytes.foldl (fun acc b => acc * 256 + b.toNat) 0

/-- A 32-bit word, highest byte first. -/
def word32 : Read UInt32 := do return (bigEndian (← bytes 4)).toUInt32

/-- A 64-bit word, highest byte first. -/
def word64 : Read UInt64 := do return (bigEndian (← bytes 8)).toUInt64

def i32 : Read Int32 := do return (← word32).toInt32

def i64 : Read Int64 := do return (← word64).toInt64

/-- A variable-length number of at most `bits` bits. -/
def varint (bits : Nat) : Read Nat := fun i =>
  match Varint.decode bits i.rest with
  | .value n used rest => (.ok n, ⟨i.position + used, rest⟩)
  | .truncated used => (.error (.unexpectedEnd (i.position + used) 1), i)
  | .overlong => (.error (.malformedVarint i.position), i)

def varU32 : Read Nat := varint 32

def varU64 : Read Nat := varint 64

/-- A variable-length 32-bit integer; `positive` tells that it was written without folding. -/
def varI32 (positive : Bool) : Read Int32 := do
  let n ← varU32
  return if positive then n.toUInt32.toInt32 else Int32.ofInt (Varint.unzigzag n)

/-- A variable-length 64-bit integer; `positive` tells that it was written without folding. -/
def varI64 (positive : Bool) : Read Int64 := do
  let n ← varU64
  return if positive then n.toUInt64.toInt64 else Int64.ofInt (Varint.unzigzag n)

/-- The text that the bytes encode in UTF-8, if they do. -/
def utf8? (bytes : List UInt8) : Option String := String.fromUTF8? ⟨bytes.toArray⟩

/-- A count of bytes and that many bytes of UTF-8. -/
def string : Read String := fun i =>
  match varU64 i with
  | (.error e, j) => (.error e, j)
  | (.ok len, j) =>
    match bytes len j with
    | (.error e, _) => (.error e, i)
    | (.ok text, k) =>
      match utf8? text with
      | some s => (.ok s, k)
      | none => (.error (.invalidUtf8 j.position), i)

/-- An item of the given kind. -/
def item : Item.Kind → Read Item
  | .u8 => return .u8 (← u8)
  | .bytes len => return .bytes (← bytes len)
  | .bool => return .bool (← bool)
  | .i32 => return .i32 (← i32)
  | .i64 => return .i64 (← i64)
  | .f32 => return .f32 (← word32)
  | .f64 => return .f64 (← word64)
  | .varU32 => return .varU32 (← varU32).toUInt32
  | .varU64 => return .varU64 (← varU64).toUInt64
  | .varI32 positive => return .varI32 (← varI32 positive) positive
  | .varI64 positive => return .varI64 (← varI64 positive) positive
  | .str => return .str (← string)

end Read

end GraphCodec
