/-!
# Digests — folding bytes into a word

Keys that are numbers already serve as their own digests. Bytes are folded in from the last to the
first: the word turns by eight bits and the byte is added.

* `toNat_addBytes`: up to eight bytes give the number that they stand for, the lowest byte first.
* `addWord32_empty`: a word of four bytes and one of eight have the same digest.
-/

namespace GraphCodec

/-- A 64-bit word into which bytes are folded. -/
structure Digest where
  word : UInt64

namespace Digest

def empty : Digest := ⟨0⟩

/-- The word turned to the left by eight bits. -/
def turned (d : Digest) : UInt64 := (d.word <<< 8) ||| (d.word >>> 56)

/-- Folds one byte in. -/
def addByte (d : Digest) (b : UInt8) : Digest := ⟨d.turned + b.toUInt64⟩

/-- Folds bytes in, the last of them first. -/
def addBytes (d : Digest) (bytes : List UInt8) : Digest := bytes.reverse.foldl addByte d

/-- Replaces the word. -/
def setWord (_ : Digest) (n : UInt64) : Digest := ⟨n⟩

/-- Folds in the four bytes of a word, which lie lowest first. -/
def addWord32 (d : Digest) (n : UInt32) : Digest :=
  d.addBytes [n.toUInt8, (n >>> 8).toUInt8, (n >>> 16).toUInt8, (n >>> 24).toUInt8]

/-- The number that bytes stand for, the lowest of them first. -/
def littleEndian : List UInt8 → Nat
  | [] => 0
  | b :: bytes => littleEndian bytes * 256 + b.toNat

theorem littleEndian_lt (bytes : List UInt8) :
    littleEndian bytes < Nat.pow 256 bytes.length := by
  induction bytes with
  | nil => exact Nat.one_pos
  | cons b bytes ih =>
    have hb : b.toNat < 256 := b.toNat_lt
    show littleEndian bytes * 256 + b.toNat < Nat.pow 256 bytes.length * 256
    omega

theorem addBytes_cons (d : Digest) (b : UInt8) (bytes : List UInt8) :
    d.addBytes (b :: bytes) = (d.addBytes bytes).addByte b := by
  rw [addBytes, List.reverse_cons, List.foldl_append]
  rfl

/-- As long as the highest byte of the word is free, nothing comes around to the other end. -/
theorem toNat_addByte {d : Digest} (hd : d.word.toNat < Nat.pow 2 56) (b : UInt8) :
    (d.addByte b).word.toNat = d.word.toNat * 256 + b.toNat := by
  have hlt : d.word.toNat < 72057594037927936 := hd
  have hleft : (d.word <<< 8).toNat = d.word.toNat * 256 := by
    rw [UInt64.toNat_shiftLeft, show UInt64.toNat 8 % 64 = 8 from rfl, Nat.shiftLeft_eq]
    omega
  have hright : (d.word >>> 56).toNat = 0 := by
    rw [UInt64.toNat_shiftRight, Nat.shiftRight_eq_div_pow]
    exact Nat.div_eq_of_lt hd
  have hb := b.toNat_lt
  rw [addByte, turned, UInt64.toNat_add, UInt64.toNat_or, hleft, hright, Nat.or_zero,
    UInt8.toNat_toUInt64]
  omega

theorem toNat_addBytes {bytes : List UInt8} (hlen : bytes.length ≤ 8) :
    (empty.addBytes bytes).word.toNat = littleEndian bytes := by
  induction bytes with
  | nil => rfl
  | cons b bytes ih =>
    have ih := ih (Nat.le_of_succ_le hlen)
    have hfree : (empty.addBytes bytes).word.toNat < Nat.pow 2 56 := by
      rw [ih]
      exact Nat.lt_of_lt_of_le (littleEndian_lt bytes)
        (Nat.pow_le_pow_right (by decide) (Nat.le_of_succ_le_succ hlen))
    rw [addBytes_cons, toNat_addByte hfree, ih, littleEndian]

/-- **A word digests alike, whether it has four bytes or eight.** -/
theorem addWord32_empty (n : UInt32) : empty.addWord32 n = empty.setWord n.toUInt64 := by
  have hlen : [n.toUInt8, (n >>> 8).toUInt8, (n >>> 16).toUInt8, (n >>> 24).toUInt8].length ≤ 8 :=
    (by decide : 4 ≤ 8)
  have hword : (empty.addWord32 n).word.toNat = n.toUInt64.toNat := by
    have hn := n.toNat_lt
    rw [addWord32, toNat_addBytes hlen]
    simp only [littleEndian, UInt32.toNat_toUInt8, UInt32.toNat_shiftRight, UInt32.toNat_toUInt64,
      Nat.shiftRight_eq_div_pow, show UInt32.toNat 8 % 32 = 8 from rfl,
      show UInt32.toNat 16 % 32 = 16 from rfl, show UInt32.toNat 24 % 32 = 24 from rfl]
    omega
  exact congrArg Digest.mk (UInt64.toNat_inj.mp hword)

end Digest

end GraphCodec
