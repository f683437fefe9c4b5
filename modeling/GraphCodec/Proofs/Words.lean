import Mathlib.Tactic.Ring
import GraphCodec.Proofs.Varints

/-!
# Bytes — variable-length integers in machine words

The functions of `Varint` calculate with numbers.  Here are the loops that calculate in words of 64
bits, where a group is put in place by a shift and joined by `|||`, and the foldings that only shift
and flip bits.  They give the same results (`Words.agree`): a group that would be shifted out of its
word is refused beforehand, and the sign of a word is spread by an arithmetic shift.

* `varints_exact`: which bytes are read as an integer, and which are written for one.
-/

namespace GraphCodec

namespace Words

open Varint

/-! ### Groups -/

theorem toNat_shiftRight_seven (n : UInt64) : (n >>> 7).toNat = n.toNat / 128 := by
  rw [UInt64.toNat_shiftRight]
  exact Nat.shiftRight_eq_div_pow n.toNat 7

/-- Writes the groups of a word, the lowest first. -/
def write (n : UInt64) : List UInt8 :=
  if n >>> 7 = 0 then [(n &&& 0x7F).toUInt8]
  else ((n &&& 0x7F).toUInt8 ||| 0x80) :: write (n >>> 7)
termination_by n.toNat
decreasing_by
  rename_i h
  have hne : (n >>> 7).toNat ≠ 0 := fun h0 => h (UInt64.toNat_inj.mp h0)
  rw [toNat_shiftRight_seven] at hne ⊢
  omega

/-- Joins groups to `acc`, of which the next one is put at bit `shift`. -/
def read (bits : UInt64) : (shift acc : UInt64) → (used : Nat) → List UInt8 → Outcome
  | _, _, used, [] => .truncated used
  | shift, acc, used, b :: rest =>
    let data := (b &&& 0x7F).toUInt64
    if bits ≤ shift ∨ 0 < shift ∧ data >>> (bits - shift) ≠ 0 then .overlong
    else if b &&& 0x80 = 0 then .value (acc ||| data <<< shift).toNat (used + 1) rest
    else read bits (shift + 7) (acc ||| data <<< shift) (used + 1) rest

/-- The mask keeps the lower seven bits. -/
theorem toNat_low (b : UInt8) : (b &&& 0x7F).toUInt64.toNat = b.toNat % 128 := by
  rw [UInt8.toNat_toUInt64, UInt8.toNat_and]
  exact Nat.and_two_pow_sub_one_eq_mod b.toNat 7

theorem toNat_group (n : UInt64) : (n &&& 0x7F).toUInt8.toNat = n.toNat % 128 := by
  have h : (n &&& 0x7F).toNat = n.toNat % 128 := by
    rw [UInt64.toNat_and]
    exact Nat.and_two_pow_sub_one_eq_mod n.toNat 7
  rw [UInt64.toNat_toUInt8, h]
  omega

theorem toNat_or_high {b : UInt8} (hb : b.toNat < 128) : (b ||| 0x80).toNat = b.toNat + 128 := by
  rw [UInt8.toNat_or, Nat.or_comm]
  exact (Nat.two_pow_add_eq_or_of_lt (i := 7) hb 1).symm.trans (Nat.add_comm _ _)

/-- The high bit is not set in the bytes below 128. -/
theorem and_high_eq_zero_iff (b : UInt8) : b &&& 0x80 = 0 ↔ b.toNat < 128 := by
  have h : ∀ n < 256, n &&& 128 = 0 ↔ n < 128 := by decide +kernel
  rw [← UInt8.toNat_inj, UInt8.toNat_and]
  exact h b.toNat b.toNat_lt

theorem write_eq_encode (n : UInt64) : write n = encode n.toNat := by
  fun_induction write n with
  | case1 n h =>
      have hz := congrArg UInt64.toNat h
      rw [toNat_shiftRight_seven] at hz
      have hn : n.toNat < 128 := by
        have : (0 : UInt64).toNat = 0 := rfl
        omega
      rw [encode_of_lt hn, List.singleton_inj, ← UInt8.toNat_inj, toNat_group]
      simp
      omega
  | case2 n h ih =>
      have hn : 128 ≤ n.toNat := by
        by_contra hlt
        refine h (UInt64.toNat_inj.mp ?_)
        rw [toNat_shiftRight_seven]
        exact Nat.div_eq_of_lt (Nat.not_le.mp hlt)
      have hgroup : (n &&& 0x7F).toUInt8 ||| 0x80 = (n.toNat % 128 + 128).toUInt8 := by
        rw [← UInt8.toNat_inj, toNat_or_high (by rw [toNat_group]; omega), toNat_group]
        simp
        omega
      rw [encode_of_le hn, ih, toNat_shiftRight_seven, hgroup]

/-- A group that fits is put above the bits that are there already. -/
theorem toNat_or_shiftLeft {acc data shift : UInt64} {bits : Nat} (hbits : bits ≤ 64)
    (hs : shift.toNat < bits) (hacc : acc.toNat < 2 ^ shift.toNat)
    (hdata : data.toNat < 2 ^ (bits - shift.toNat)) :
    (acc ||| data <<< shift).toNat = acc.toNat + data.toNat * 2 ^ shift.toNat := by
  have hlt : data.toNat * 2 ^ shift.toNat < 2 ^ 64 := by
    calc data.toNat * 2 ^ shift.toNat < 2 ^ (bits - shift.toNat) * 2 ^ shift.toNat :=
          Nat.mul_lt_mul_of_pos_right hdata (Nat.two_pow_pos _)
      _ = 2 ^ bits := by rw [← Nat.pow_add, Nat.sub_add_cancel hs.le]
      _ ≤ 2 ^ 64 := Nat.pow_le_pow_right (by omega) hbits
  rw [UInt64.toNat_or, UInt64.toNat_shiftLeft, Nat.mod_eq_of_lt (hs.trans_le hbits),
    Nat.shiftLeft_eq, Nat.mod_eq_of_lt hlt, Nat.or_comm, Nat.mul_comm,
    ← Nat.two_pow_add_eq_or_of_lt hacc, Nat.add_comm]

/-- Both ways of asking whether a group reaches beyond the budget agree. -/
theorem exceeds_iff {bits shift data : UInt64} (hbits : bits.toNat ≤ 64) :
    (bits ≤ shift ∨ 0 < shift ∧ data >>> (bits - shift) ≠ 0) ↔
      exceeds bits.toNat shift.toNat data.toNat = true := by
  rw [UInt64.le_iff_toNat_le, UInt64.lt_iff_toNat_lt]
  simp only [exceeds, Bool.or_eq_true, decide_eq_true_eq, Bool.and_eq_true]
  by_cases hs : bits.toNat ≤ shift.toNat
  · simp [hs]
  · by_cases hpos : 0 < shift.toNat
    · have hsub : (bits - shift).toNat = bits.toNat - shift.toNat :=
        UInt64.toNat_sub_of_le _ _ (UInt64.le_iff_toNat_le.mpr (by omega))
      have hshift : (data >>> (bits - shift)).toNat =
          data.toNat >>> (bits.toNat - shift.toNat) := by
        rw [UInt64.toNat_shiftRight, hsub, Nat.mod_eq_of_lt (by omega)]
      simp [hs, hpos, ← UInt64.toNat_inj, hshift]
    · simp [hs, hpos]

/-- By induction on the bytes: below `shift` the word and the number agree. -/
theorem read_eq_decodeFrom {bits : UInt64} (h7 : 7 ≤ bits.toNat) (h64 : bits.toNat ≤ 64)
    (bytes : List UInt8) : ∀ {shift acc : UInt64} {used : Nat}, shift.toNat < bits.toNat + 7 →
      (shift.toNat < bits.toNat → acc.toNat < 2 ^ shift.toNat) →
        read bits shift acc used bytes =
          decodeFrom bits.toNat shift.toNat acc.toNat used bytes := by
  induction bytes with
  | nil =>
      intro shift acc used hs hacc
      rfl
  | cons b bytes ih =>
      intro shift acc used hs hacc
      have hlow : b.toNat % 128 < 128 := Nat.mod_lt _ (by omega)
      simp only [read, decodeFrom, exceeds_iff h64, and_high_eq_zero_iff, toNat_low]
      cases hx : exceeds bits.toNat shift.toNat (b.toNat % 128) with
      | true => simp
      | false =>
          obtain ⟨hs, hdata⟩ := (exceeds_eq_false_iff h7 hlow).mp hx
          have hacc := hacc hs
          rw [← toNat_low] at hdata
          have hor := toNat_or_shiftLeft h64 hs hacc hdata
          rw [toNat_low] at hor
          have hadd : (shift + 7).toNat = shift.toNat + 7 := by
            rw [UInt64.toNat_add]
            exact Nat.mod_eq_of_lt (by change shift.toNat + 7 < 2 ^ 64; omega)
          have hnext : (acc ||| (b &&& 0x7F).toUInt64 <<< shift).toNat < 2 ^ (shift + 7).toNat := by
            rw [hor, hadd, Nat.pow_add]
            have : b.toNat % 128 * 2 ^ shift.toNat ≤ 127 * 2 ^ shift.toNat :=
              Nat.mul_le_mul_right _ (by omega)
            omega
          simp only [Bool.false_eq_true, if_false]
          rw [ih (by omega) fun _ => hnext, hor, hadd]
          rfl

/-! ### Folding -/

section

variable {w : Nat} {x : BitVec w}

theorem sshiftRight_of_msb_false (hx : x.msb = false) : x.sshiftRight (w - 1) = 0#w := by
  have hlt := BitVec.toNat_lt_of_msb_false hx
  rw [BitVec.sshiftRight_eq_of_msb_false hx, ← BitVec.toNat_inj, BitVec.toNat_ushiftRight,
    Nat.shiftRight_eq_div_pow, BitVec.toNat_ofNat, Nat.zero_mod]
  exact Nat.div_eq_of_lt hlt

theorem sshiftRight_of_msb_true (hx : x.msb = true) :
    x.sshiftRight (w - 1) = BitVec.allOnes w := by
  have hnot : (~~~x).msb = false := by
    rw [BitVec.msb_not, hx]
    simp
  rw [BitVec.sshiftRight_eq_of_msb_true hx, ← BitVec.sshiftRight_eq_of_msb_false hnot,
    sshiftRight_of_msb_false hnot]
  simp

/-- To fold, the word is doubled, and its bits are flipped if it is negative. -/
theorem toNat_fold (hw : 0 < w) (x : BitVec w) :
    (x <<< 1 ^^^ x.sshiftRight (w - 1)).toNat = zigzag x.toInt := by
  obtain ⟨w, rfl⟩ : ∃ k, w = k + 1 := ⟨w - 1, by omega⟩
  have hpow : 2 ^ (w + 1) = 2 * 2 ^ w := Nat.pow_succ'
  have hlt := x.isLt
  cases hx : x.msb with
  | false =>
      have hsmall := BitVec.toNat_lt_of_msb_false hx
      rw [Nat.add_sub_cancel] at hsmall
      rw [sshiftRight_of_msb_false hx, BitVec.xor_zero, BitVec.toNat_shiftLeft, Nat.shiftLeft_eq,
        BitVec.toInt_eq_toNat_of_msb hx, zigzag, if_pos (Int.natCast_nonneg _)]
      rw [Nat.mod_eq_of_lt (by omega)]
      omega
  | true =>
      have hbig := BitVec.toNat_ge_of_msb_true hx
      rw [Nat.add_sub_cancel] at hbig
      have hint : x.toInt = x.toNat - 2 ^ (w + 1) := by
        rw [BitVec.toInt_eq_msb_cond, hx]
        simp
      have hcast : (2 : Int) ^ (w + 1) = (2 ^ (w + 1) : Nat) := by push_cast; rfl
      have hmod : x.toNat * 2 ^ 1 % 2 ^ (w + 1) = 2 * x.toNat - 2 ^ (w + 1) := by
        rw [pow_one, Nat.mod_eq_sub_mod (by omega), Nat.mod_eq_of_lt (by omega)]
        omega
      rw [sshiftRight_of_msb_true hx, BitVec.xor_allOnes, BitVec.toNat_not,
        BitVec.toNat_shiftLeft, Nat.shiftLeft_eq, hmod, hint, hcast, zigzag, if_neg (by omega)]
      omega

/-- To unfold, the word is halved, and its bits are flipped if it was odd. -/
theorem toInt_unfold (hw : 0 < w) (x : BitVec w) :
    (x >>> 1 ^^^ -(x &&& 1#w)).toInt = unzigzag x.toNat := by
  obtain ⟨w, rfl⟩ : ∃ k, w = k + 1 := ⟨w - 1, by omega⟩
  have hpow : 2 ^ (w + 1) = 2 * 2 ^ w := Nat.pow_succ'
  have hlt := x.isLt
  have hhalf : (x >>> 1).toNat = x.toNat / 2 := by
    rw [BitVec.toNat_ushiftRight]
    exact Nat.shiftRight_eq_div_pow _ 1
  have hone : (x &&& 1#(w + 1)).toNat = x.toNat % 2 := by
    rw [BitVec.toNat_and, BitVec.toNat_ofNat, Nat.mod_eq_of_lt (Nat.one_lt_two_pow (by omega))]
    exact Nat.and_one_is_mod _
  rcases Nat.mod_two_eq_zero_or_one x.toNat with h | h
  · have hz : x &&& 1#(w + 1) = 0#(w + 1) := BitVec.toNat_inj.mp (by rw [hone, h]; rfl)
    rw [hz, BitVec.neg_zero, BitVec.xor_zero, BitVec.toInt_eq_toNat_cond, hhalf, if_pos (by omega),
      unzigzag, if_pos h]
  · have hz : x &&& 1#(w + 1) = 1#(w + 1) :=
      BitVec.toNat_inj.mp (by
        rw [hone, h, BitVec.toNat_ofNat, Nat.mod_eq_of_lt (Nat.one_lt_two_pow (by omega))])
    rw [hz, BitVec.neg_one_eq_allOnes, BitVec.xor_allOnes, BitVec.toInt_eq_toNat_cond,
      BitVec.toNat_not, hhalf, if_neg (by omega), unzigzag, if_neg (by omega)]
    omega

end

/-- Folds a 32-bit word by shifting and flipping bits. -/
def zigzag32 (v : Int32) : UInt32 := (v <<< 1 ^^^ v >>> 31).toUInt32

/-- Unfolds a 32-bit word. -/
def unzigzag32 (n : UInt32) : Int32 := (n >>> 1).toInt32 ^^^ -(n &&& 1).toInt32

/-- Folds a 64-bit word by shifting and flipping bits. -/
def zigzag64 (v : Int64) : UInt64 := (v <<< 1 ^^^ v >>> 63).toUInt64

/-- Unfolds a 64-bit word. -/
def unzigzag64 (n : UInt64) : Int64 := (n >>> 1).toInt64 ^^^ -(n &&& 1).toInt64

theorem toNat_zigzag32 (v : Int32) : (zigzag32 v).toNat = zigzag v.toInt := by
  have h : (zigzag32 v).toBitVec = v.toBitVec <<< 1 ^^^ v.toBitVec.sshiftRight (32 - 1) := by
    simp [zigzag32]
  rw [← UInt32.toNat_toBitVec, h, toNat_fold (by omega)]
  rfl

theorem toNat_zigzag64 (v : Int64) : (zigzag64 v).toNat = zigzag v.toInt := by
  have h : (zigzag64 v).toBitVec = v.toBitVec <<< 1 ^^^ v.toBitVec.sshiftRight (64 - 1) := by
    simp [zigzag64]
  rw [← UInt64.toNat_toBitVec, h, toNat_fold (by omega)]
  rfl

theorem toInt_unzigzag32 (n : UInt32) : (unzigzag32 n).toInt = unzigzag n.toNat := by
  have h : (unzigzag32 n).toBitVec = n.toBitVec >>> 1 ^^^ -(n.toBitVec &&& 1#32) := by
    simp [unzigzag32]
  rw [← Int32.toInt_toBitVec, h, toInt_unfold (by omega)]
  rfl

theorem toInt_unzigzag64 (n : UInt64) : (unzigzag64 n).toInt = unzigzag n.toNat := by
  have h : (unzigzag64 n).toBitVec = n.toBitVec >>> 1 ^^^ -(n.toBitVec &&& 1#64) := by
    simp [unzigzag64]
  rw [← Int64.toInt_toBitVec, h, toInt_unfold (by omega)]
  rfl

/-- The loops and the foldings in words give the same results as those on numbers. -/
structure Agree : Prop where
  write_eq : ∀ n, write n = encode n.toNat
  read32_eq : ∀ bytes, read 32 0 0 0 bytes = decode 32 bytes
  read64_eq : ∀ bytes, read 64 0 0 0 bytes = decode 64 bytes
  zigzag32_eq : ∀ v, (zigzag32 v).toNat = zigzag v.toInt
  zigzag64_eq : ∀ v, (zigzag64 v).toNat = zigzag v.toInt
  unzigzag32_eq : ∀ n, (unzigzag32 n).toInt = unzigzag n.toNat
  unzigzag64_eq : ∀ n, (unzigzag64 n).toInt = unzigzag n.toNat

theorem agree : Agree where
  write_eq := write_eq_encode
  read32_eq bytes := read_eq_decodeFrom (by decide) (by decide) bytes (by decide) fun _ => by decide
  read64_eq bytes := read_eq_decodeFrom (by decide) (by decide) bytes (by decide) fun _ => by decide
  zigzag32_eq := toNat_zigzag32
  zigzag64_eq := toNat_zigzag64
  unzigzag32_eq := toInt_unzigzag32
  unzigzag64_eq := toInt_unzigzag64

end Words

/-! ### The whole codec -/

open Varint Read

theorem writesShortest_varI32 (v : Int32) (positive : Bool) :
    WritesShortest (Form 5 32 · (raw32 v positive)) (.varI32 v positive) := by
  cases positive with
  | true => exact writesShortest (by omega) (by omega) v.toUInt32.toNat_lt rfl rfl
  | false => exact writesShortest (by omega) (by omega) (zigzag_toInt32_lt v) rfl rfl

theorem writesShortest_varI64 (v : Int64) (positive : Bool) :
    WritesShortest (Form 10 64 · (raw64 v positive)) (.varI64 v positive) := by
  cases positive with
  | true => exact writesShortest (by omega) (by omega) v.toUInt64.toNat_lt rfl rfl
  | false => exact writesShortest (by omega) (by omega) (zigzag_toInt64_lt v) rfl rfl

/-- **Variable-length integers are bounded groups, and are written in the fewest.**  A read succeeds
exactly where the input begins with a form of a number, of at most five or ten groups, and takes
that form off.  A write appends the only shortest form and gives its length.  Signed integers are
the numbers that stand for them, the folded ones in as few groups as their magnitude needs.  All of
this can be calculated in machine words. -/
theorem varints_exact :
    TakesExactly varU32 (Form 5 32) ∧ TakesExactly varU64 (Form 10 64) ∧
    (∀ n : UInt32, WritesShortest (Form 5 32 · n.toNat) (.varU32 n)) ∧
    (∀ n : UInt64, WritesShortest (Form 10 64 · n.toNat) (.varU64 n)) ∧
    (∀ positive, TakesExactly (varI32 positive) fun bytes v => Form 5 32 bytes (raw32 v positive)) ∧
    (∀ positive, TakesExactly (varI64 positive) fun bytes v =>
      Form 10 64 bytes (raw64 v positive)) ∧
    (∀ v positive, WritesShortest (Form 5 32 · (raw32 v positive)) (.varI32 v positive) ∧
      Reads (varI32 positive) (Item.encode (.varI32 v positive)) v) ∧
    (∀ v positive, WritesShortest (Form 10 64 · (raw64 v positive)) (.varI64 v positive) ∧
      Reads (varI64 positive) (Item.encode (.varI64 v positive)) v) ∧
    (∀ v : Int32, IsLeast {k | 1 ≤ k ∧ -2 ^ (7 * k - 1) ≤ v.toInt ∧ v.toInt < 2 ^ (7 * k - 1)}
      (Item.encode (.varI32 v false)).length) ∧
    (∀ v : Int64, IsLeast {k | 1 ≤ k ∧ -2 ^ (7 * k - 1) ≤ v.toInt ∧ v.toInt < 2 ^ (7 * k - 1)}
      (Item.encode (.varI64 v false)).length) ∧
    Words.Agree :=
  ⟨takesExactly_varU32, takesExactly_varU64,
    fun n => writesShortest (by omega) (by omega) n.toNat_lt rfl rfl,
    fun n => writesShortest (by omega) (by omega) n.toNat_lt rfl rfl,
    takesExactly_varI32, takesExactly_varI64,
    fun v positive => ⟨writesShortest_varI32 v positive, reads_varI32 v positive⟩,
    fun v positive => ⟨writesShortest_varI64 v positive, reads_varI64 v positive⟩,
    fun v => isLeast_length_encode_zigzag v.toInt, fun v => isLeast_length_encode_zigzag v.toInt,
    Words.agree⟩

end GraphCodec
