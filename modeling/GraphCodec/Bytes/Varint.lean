/-!
# Bytes — variable-length integers

A number is cut into groups of seven bits, the lowest first; every group but the last has the
high bit of its byte set. `Varint.encode` writes the shortest such form and `Varint.decode` reads
any form that stays inside a budget of bits. Signed numbers are folded onto the unsigned ones by
`zigzag`, which keeps small magnitudes small.

* `encode_of_lt`, `encode_of_le`: one step of the written form.
* `unzigzag_zigzag`, `zigzag_unzigzag`: the folding is a bijection.
-/

namespace GraphCodec.Varint

/-- The shortest form of `n`. -/
def encode (n : Nat) : List UInt8 :=
  if n < 128 then [n.toUInt8] else (n % 128 + 128).toUInt8 :: encode (n / 128)
termination_by n
decreasing_by omega

theorem encode_of_lt {n : Nat} (h : n < 128) : encode n = [n.toUInt8] := by
  rw [encode, if_pos h]

theorem encode_of_le {n : Nat} (h : 128 ≤ n) :
    encode n = (n % 128 + 128).toUInt8 :: encode (n / 128) := by
  rw [encode, if_neg (Nat.not_lt.mpr h)]

/-- How reading a variable-length integer ends. -/
inductive Outcome
  /-- The value, the number of bytes it took and the bytes after it. -/
  | value (n used : Nat) (rest : List UInt8)
  /-- The bytes ended after this many groups that all asked for another one. -/
  | truncated (used : Nat)
  /-- A group reaches beyond the budget of bits. -/
  | overlong
  deriving DecidableEq

/-- Whether the group `data` at bit `shift` reaches beyond `bits` bits. -/
def exceeds (bits shift data : Nat) : Bool :=
  bits ≤ shift || (0 < shift && data >>> (bits - shift) ≠ 0)

/-- Reads groups onto `acc`, of which the next one starts at bit `shift`. -/
def decodeFrom (bits : Nat) : (shift acc used : Nat) → List UInt8 → Outcome
  | _, _, used, [] => .truncated used
  | shift, acc, used, b :: rest =>
    let data := b.toNat % 128
    if exceeds bits shift data then .overlong
    else if b.toNat < 128 then .value (acc + data * Nat.pow 2 shift) (used + 1) rest
    else decodeFrom bits (shift + 7) (acc + data * Nat.pow 2 shift) (used + 1) rest

/-- Reads a number of at most `bits` bits from the front of `bytes`. -/
def decode (bits : Nat) (bytes : List UInt8) : Outcome := decodeFrom bits 0 0 0 bytes

/-- Folds the integers onto the natural numbers: `0, -1, 1, -2, 2, …`. -/
def zigzag (v : Int) : Nat := if 0 ≤ v then (2 * v).toNat else (-2 * v - 1).toNat

/-- The integer that `zigzag` sends to `n`. -/
def unzigzag (n : Nat) : Int := if n % 2 = 0 then (n / 2 : Nat) else -((n / 2 : Nat) : Int) - 1

theorem unzigzag_zigzag (v : Int) : unzigzag (zigzag v) = v := by
  unfold zigzag unzigzag
  split <;> split <;> omega

theorem zigzag_unzigzag (n : Nat) : zigzag (unzigzag n) = n := by
  unfold zigzag unzigzag
  split <;> split <;> omega

end GraphCodec.Varint
