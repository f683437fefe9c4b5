/-!
# Binary floating-point formats

A floating-point number is kept as its bits, so that every pattern survives writing and reading.
`BinaryFormat` cuts the bits into sign, exponent and fraction and gives the comparison that
numbers have: a not-a-number differs from everything, and the two zeros are equal.
-/

namespace GraphCodec

/-- A binary interchange format: widths of the fraction and of the exponent. -/
structure BinaryFormat where
  fractionBits : Nat
  exponentBits : Nat

namespace BinaryFormat

/-- The 32-bit format. -/
def single : BinaryFormat := ⟨23, 8⟩

/-- The 64-bit format. -/
def double : BinaryFormat := ⟨52, 11⟩

def fraction (f : BinaryFormat) (bits : Nat) : Nat := bits % Nat.pow 2 f.fractionBits

/-- The exponent as it is stored, with the bias added. -/
def biased (f : BinaryFormat) (bits : Nat) : Nat :=
  bits / Nat.pow 2 f.fractionBits % Nat.pow 2 f.exponentBits

def isNegative (f : BinaryFormat) (bits : Nat) : Bool :=
  bits / Nat.pow 2 (f.fractionBits + f.exponentBits) % 2 = 1

/-- The stored exponent of infinities and not-a-numbers. -/
def topExponent (f : BinaryFormat) : Nat := Nat.pow 2 f.exponentBits - 1

def isNaN (f : BinaryFormat) (bits : Nat) : Bool :=
  f.biased bits = f.topExponent && f.fraction bits ≠ 0

def isZero (f : BinaryFormat) (bits : Nat) : Bool := f.biased bits = 0 && f.fraction bits = 0

/-- Equality of the numbers that two patterns stand for. -/
def equal (f : BinaryFormat) (a b : Nat) : Bool :=
  !f.isNaN a && !f.isNaN b && (a = b || (f.isZero a && f.isZero b))

end BinaryFormat

end GraphCodec
