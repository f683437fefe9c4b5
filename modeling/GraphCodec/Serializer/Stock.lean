/-!
# Serializers — the stock

The serializers that need no set-up, so that a name is enough to ask for one. What each of them
writes, reads and copies is said in the modules on the three passes.
-/

namespace GraphCodec

/-- A serializer that needs no set-up. -/
inductive Stock
  /-- One byte, 0 or 1. -/
  | bool
  /-- A folded variable-length 32-bit integer. -/
  | int
  /-- A folded variable-length 64-bit integer. -/
  | long
  /-- The four bytes of a 32-bit floating-point number. -/
  | float
  /-- The eight bytes of a 64-bit floating-point number. -/
  | double
  /-- A string with its length before it. -/
  | str
  /-- A string whose ASCII letters are written as capitals. -/
  | capitals
  /-- Four bytes for a 32-bit integer; a copy is one larger than what it was made from. -/
  | fixedInt
  /-- No bytes at all; what is read is null. -/
  | nothing
  /-- One byte, after which writing and reading always fail. -/
  | failing
  /-- A text that describes the scopes in force where it is written. -/
  | scopeProbe
  /-- An object that is no more than its first field, and is made after that field. -/
  | lateHolder
  /-- An object that is no more than its first field, and is made before that field. -/
  | earlyHolder
  deriving DecidableEq

namespace Stock

/-- Whether the serializer is one of the six that every codec starts with. -/
def isBuiltIn : Stock → Bool
  | bool | int | long | float | double | str => true
  | _ => false

end Stock

end GraphCodec
