import GraphCodec.Bytes.Varint

/-!
# Bytes — items and outputs

Everything that is written is an `Item`, and `Item.encode` is its form in bytes: fixed-width words
have their highest byte first, variable-length integers are those of `Varint`, and a string is the
number of its bytes followed by its UTF-8. A `Kind` is what a reader has to know to take an item
back. An `Output` is the bytes written so far; items are only ever added at its end.
-/

namespace GraphCodec

/-- One primitive to write. -/
inductive Item
  | u8 (b : UInt8)
  | bytes (bs : List UInt8)
  | bool (b : Bool)
  | i32 (v : Int32)
  | i64 (v : Int64)
  /-- The bits of a 32-bit floating-point number. -/
  | f32 (bits : UInt32)
  /-- The bits of a 64-bit floating-point number. -/
  | f64 (bits : UInt64)
  | varU32 (n : UInt32)
  | varU64 (n : UInt64)
  /-- A variable-length integer, folded unless `positive` holds. -/
  | varI32 (v : Int32) (positive : Bool)
  /-- A variable-length integer, folded unless `positive` holds. -/
  | varI64 (v : Int64) (positive : Bool)
  | str (s : String)
  deriving DecidableEq

namespace Item

/-- The lowest `width` bytes of `n`, the highest of them first. -/
def bigEndian : (width n : Nat) → List UInt8
  | 0, _ => []
  | width + 1, n => (n / Nat.pow 256 width).toUInt8 :: bigEndian width n

/-- The bytes of a string in UTF-8. -/
def utf8 (s : String) : List UInt8 := s.toUTF8.data.toList

/-- The form of an item in bytes. -/
def encode : Item → List UInt8
  | .u8 b => [b]
  | .bytes bs => bs
  | .bool b => [if b then 1 else 0]
  | .i32 v => bigEndian 4 v.toUInt32.toNat
  | .i64 v => bigEndian 8 v.toUInt64.toNat
  | .f32 bits => bigEndian 4 bits.toNat
  | .f64 bits => bigEndian 8 bits.toNat
  | .varU32 n => Varint.encode n.toNat
  | .varU64 n => Varint.encode n.toNat
  | .varI32 v true => Varint.encode v.toUInt32.toNat
  | .varI32 v false => Varint.encode (Varint.zigzag v.toInt)
  | .varI64 v true => Varint.encode v.toUInt64.toNat
  | .varI64 v false => Varint.encode (Varint.zigzag v.toInt)
  | .str s => Varint.encode s.utf8ByteSize ++ utf8 s

/-- The bytes that a variable-length integer takes; `none` for every other item. -/
def varintSize? : Item → Option Nat
  | .varU32 n => some (encode (.varU32 n)).length
  | .varU64 n => some (encode (.varU64 n)).length
  | .varI32 v positive => some (encode (.varI32 v positive)).length
  | .varI64 v positive => some (encode (.varI64 v positive)).length
  | _ => none

/-- What a reader has to know about an item: its shape, and a length or a flag where the bytes do
not tell. -/
inductive Kind
  | u8
  | bytes (len : Nat)
  | bool
  | i32
  | i64
  | f32
  | f64
  | varU32
  | varU64
  | varI32 (positive : Bool)
  | varI64 (positive : Bool)
  | str
  deriving DecidableEq

/-- The kind under which an item can be read back. -/
def kind : Item → Kind
  | .u8 _ => .u8
  | .bytes bs => .bytes bs.length
  | .bool _ => .bool
  | .i32 _ => .i32
  | .i64 _ => .i64
  | .f32 _ => .f32
  | .f64 _ => .f64
  | .varU32 _ => .varU32
  | .varU64 _ => .varU64
  | .varI32 _ positive => .varI32 positive
  | .varI64 _ positive => .varI64 positive
  | .str _ => .str

end Item

/-- The bytes written so far. -/
structure Output where
  bytes : Array UInt8

namespace Output

def empty : Output := ⟨#[]⟩

/-- How many bytes were written. -/
def position (out : Output) : Nat := out.bytes.size

/-- Adds the form of an item at the end. -/
def write (out : Output) (item : Item) : Output := ⟨out.bytes ++ item.encode⟩

/-- Adds a variable-length number at the end. -/
def writeVarint (out : Output) (n : Nat) : Output := ⟨out.bytes ++ Varint.encode n⟩

theorem toList_write (out : Output) (item : Item) :
    (out.write item).bytes.toList = out.bytes.toList ++ item.encode := by
  simp [write]

theorem toList_writeVarint (out : Output) (n : Nat) :
    (out.writeVarint n).bytes.toList = out.bytes.toList ++ Varint.encode n := by
  simp [writeVarint]

end Output

end GraphCodec
