import GraphCodec.BinaryFormat

/-!
# Decimal — floating-point numbers as text

A finite binary floating-point number stands for every real that rounds to it. `Span` holds that
interval together with the number itself, as numerators over one denominator, and
`Span.shortest` finds the decimal with the fewest digits inside it, taking the one nearest to the
number where several have that many digits. All arithmetic is on natural numbers.

A number shows as its shortest decimal (`floatText`). It is written positionally, always with a
point, when its magnitude is at least `10 ^ -4` and below `10 ^ 16`, and as `digit.digits` with an
exponent after `e` otherwise. The sign of zero is kept and that of a not-a-number is not.
-/

namespace GraphCodec.Decimal

/-- A positive number `mid / den` and the ends of the interval of reals that round to it. -/
structure Span where
  lo : Nat
  mid : Nat
  hi : Nat
  den : Nat
  /-- Whether the two ends themselves round to the number. -/
  closed : Bool

/-- What the bits of a floating-point number stand for. -/
inductive Decoded
  | nan
  | infinite (negative : Bool)
  | zero (negative : Bool)
  | finite (negative : Bool) (span : Span)

/-- The interval around `m · 2 ^ q`; the gap below is half as wide where `narrow` holds. -/
def spanOf (m : Nat) (q : Int) (narrow : Bool) : Span :=
  let up := Nat.pow 2 (q - 2).toNat
  { lo := (4 * m - (if narrow then 1 else 2)) * up
    mid := 4 * m * up
    hi := (4 * m + 2) * up
    den := Nat.pow 2 (2 - q).toNat
    closed := m % 2 = 0 }

/-- What the bits of a number stand for. -/
def decode (f : BinaryFormat) (bits : Nat) : Decoded :=
  let fraction := f.fraction bits
  let biased := f.biased bits
  let negative := f.isNegative bits
  let bias : Int := Nat.pow 2 (f.exponentBits - 1) - 1
  if biased = f.topExponent then
    if fraction = 0 then .infinite negative else .nan
  else if biased = 0 then
    if fraction = 0 then .zero negative
    else .finite negative (spanOf fraction (1 - bias - f.fractionBits) false)
  else
    .finite negative
      (spanOf (fraction + Nat.pow 2 f.fractionBits) (biased - bias - f.fractionBits)
        (fraction = 0 && biased ≠ 1))

/-- The number `digits · 10 ^ exponent`. -/
structure Scaled where
  digits : Nat
  exponent : Int

namespace Span

/-- The step `10 ^ s` as a quotient of natural numbers. -/
def step (s : Int) : Nat × Nat := (Nat.pow 10 s.toNat, Nat.pow 10 (-s).toNat)

/-- Whether `c · 10 ^ s` rounds to the number. -/
def holds (i : Span) (s : Int) (c : Nat) : Bool :=
  let (p, r) := step s
  if i.closed then i.lo * r ≤ c * p * i.den && c * p * i.den ≤ i.hi * r
  else i.lo * r < c * p * i.den && c * p * i.den < i.hi * r

/-- The multiple of `10 ^ s` that rounds to the number and is nearest to it, if there is one. Only
the two neighbours of the number on that grid need a test; halfway between them the upper one is
taken. -/
def onGrid (i : Span) (s : Int) : Option Nat :=
  let (p, r) := step s
  let below := i.mid * r / (p * i.den)
  let above := below + 1
  match i.holds s below, i.holds s above with
  | true, true =>
    if i.mid * r - below * p * i.den < above * p * i.den - i.mid * r then some below else some above
  | true, false => some below
  | false, true => some above
  | false, false => none

/-- The exponent `e` with `10 ^ e ≤ mid / den < 10 ^ (e + 1)`. -/
def magnitude (i : Span) : Int :=
  if i.den ≤ i.mid then (Nat.toDigits 10 (i.mid / i.den)).length - 1
  else -((Nat.toDigits 10 ((i.den + i.mid - 1) / i.mid - 1)).length : Int)

/-- Tries grids of step `10 ^ s`, `10 ^ (s - 1)`, … in turn. -/
def search (i : Span) : Nat → Int → Scaled
  | 0, s => ⟨i.mid, s⟩
  | n + 1, s =>
    match i.onGrid s with
    | some c => ⟨c, s⟩
    | none => search i n (s - 1)

/-- The decimal with the fewest digits that rounds to the number. Seventeen digits always suffice
for 64 bits. -/
def shortest (i : Span) : Scaled := i.search 18 i.magnitude

end Span

/-! ## Texts -/

/-- The digits of a decimal without trailing zeros, and the exponent of the first of them. -/
def Scaled.normal (d : Scaled) : List Char × Int :=
  let all := Nat.toDigits 10 d.digits
  ((all.reverse.dropWhile (· = '0')).reverse, d.exponent + all.length - 1)

/-- Digits before and after the point, for a first digit of weight `10 ^ e`. -/
def positional (digits : List Char) (e : Int) : List Char :=
  if e < 0 then ['0', '.'] ++ List.replicate (-e - 1).toNat '0' ++ digits
  else
    let whole := (e + 1).toNat
    if digits.length ≤ whole then
      digits ++ List.replicate (whole - digits.length) '0' ++ ['.', '0']
    else digits.take whole ++ ['.'] ++ digits.drop whole

/-- One digit, the others after a point, and the exponent. -/
def exponential (digits : List Char) (e : Int) : List Char :=
  let fraction := digits.drop 1
  digits.take 1 ++ (if fraction.isEmpty then [] else '.' :: fraction) ++ 'e' :: (toString e).toList

/-- The text of a positive decimal. -/
def Scaled.text (d : Scaled) : String :=
  let (digits, e) := d.normal
  String.ofList (if -4 ≤ e ∧ e < 16 then positional digits e else exponential digits e)

def signed (negative : Bool) (text : String) : String := if negative then "-" ++ text else text

/-- The text of the number with these bits. -/
def floatText (f : BinaryFormat) (bits : Nat) : String :=
  match decode f bits with
  | .nan => "NaN"
  | .infinite negative => signed negative "inf"
  | .zero negative => signed negative "0.0"
  | .finite negative span => signed negative span.shortest.text

end GraphCodec.Decimal
