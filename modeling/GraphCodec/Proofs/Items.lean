import Mathlib.Tactic.Ring
import GraphCodec.Bytes.Input

/-!
# Bytes — items are read back

`Reads r bytes a` says that a read takes exactly `bytes` off the front of any input that begins
with them, and gives `a`.  Each form in which an item is written is read back by the read for its
kind; numbers and lengths must fit the words that hold them.
-/

namespace GraphCodec

namespace Varint

theorem zigzag_toInt32_lt (v : Int32) : zigzag v.toInt < 2 ^ 32 := by
  have h₁ := v.le_toInt
  have h₂ := v.toInt_lt
  simp only [zigzag]
  split <;> omega

theorem zigzag_toInt64_lt (v : Int64) : zigzag v.toInt < 2 ^ 64 := by
  have h₁ := v.le_toInt
  have h₂ := v.toInt_lt
  simp only [zigzag]
  split <;> omega

end Varint

namespace Read

variable {α β : Type}

/-- At the front of any input the read takes `bytes` and gives `a`. -/
def Reads (r : Read α) (bytes : List UInt8) (a : α) : Prop :=
  ∀ position rest, r.onInput ⟨position, bytes ++ rest⟩ = (.ok a, ⟨position + bytes.length, rest⟩)

theorem reads_bind {r : Read α} {k : α → Read β} {bytes bytes' : List UInt8} {a : α} {b : β}
    (h : Reads r bytes a) (hk : Reads (k a) bytes' b) : Reads (r >>= k) (bytes ++ bytes') b := by
  intro position rest
  have h₁ := h position (bytes' ++ rest)
  have h₂ := hk (position + bytes.length) rest
  rw [List.append_assoc]
  show (match r.onInput ⟨position, bytes ++ (bytes' ++ rest)⟩ with
    | (x, i) => (ExceptT.bindCont k x : StateM Input _) i) = _
  rw [h₁, List.length_append, ← Nat.add_assoc]
  exact h₂

theorem reads_pure (a : α) : Reads (pure a) [] a := fun _ _ => rfl

theorem reads_map {r : Read α} {bytes : List UInt8} {a : α} (f : α → β) (h : Reads r bytes a) :
    Reads (do return f (← r)) bytes (f a) := by
  have := reads_bind (k := fun a => pure (f a)) h (reads_pure (f a))
  rwa [List.append_nil] at this

/-! ### Variable-length numbers -/

theorem exceeds_eq_false {bits shift n : Nat} (hs : shift < bits) (hn : n < 2 ^ (bits - shift)) :
    Varint.exceeds bits shift n = false := by
  have hz : n >>> (bits - shift) = 0 := by
    rw [Nat.shiftRight_eq_div_pow, Nat.div_eq_of_lt hn]
  simp [Varint.exceeds, hs, hz]

/-- By induction on the number: all groups but the last have seven of its bits. -/
theorem decodeFrom_encode (bits : Nat) (rest : List UInt8) : ∀ (n shift acc used : Nat),
    shift < bits → n < 2 ^ (bits - shift) →
      Varint.decodeFrom bits shift acc used (Varint.encode n ++ rest) =
        .value (acc + n * 2 ^ shift) (used + (Varint.encode n).length) rest := by
  intro n
  induction n using Nat.strongRecOn with
  | ind n ih =>
    intro shift acc used hs hn
    by_cases hsmall : n < 128
    · have hbyte : n.toUInt8.toNat = n := by simp; omega
      rw [Varint.encode_of_lt hsmall, List.cons_append, List.nil_append, Varint.decodeFrom]
      simp only [hbyte, Nat.mod_eq_of_lt hsmall, exceeds_eq_false hs hn, hsmall, if_true,
        Bool.false_eq_true, if_false, List.length_singleton]
      rfl
    · have hbyte : (n % 128 + 128).toUInt8.toNat = n % 128 + 128 := by simp; omega
      have hdata : (n % 128 + 128) % 128 = n % 128 := by omega
      -- the group that is read first is low enough for its place, and so is the rest of the number
      have hlow : n % 128 < 2 ^ (bits - shift) := (Nat.mod_le _ _).trans_lt hn
      have hbits : 7 < bits - shift := by
        by_contra hle
        have := Nat.pow_le_pow_right (n := 2) (by omega) (Nat.not_lt.mp hle)
        omega
      have hhigh : n / 128 < 2 ^ (bits - (shift + 7)) := by
        rw [Nat.div_lt_iff_lt_mul (by omega)]
        have : 2 ^ (bits - shift) = 2 ^ (bits - (shift + 7)) * 128 := by
          rw [show bits - shift = bits - (shift + 7) + 7 by omega, Nat.pow_add]
        omega
      rw [Varint.encode_of_le (Nat.not_lt.mp hsmall), List.cons_append, Varint.decodeFrom]
      simp only [hbyte, hdata, exceeds_eq_false hs hlow, Bool.false_eq_true, if_false,
        show ¬ n % 128 + 128 < 128 by omega]
      rw [ih (n / 128) (by omega) (shift + 7) _ _ (by omega) hhigh, List.length_cons]
      congr 1
      · change acc + n % 128 * 2 ^ shift + n / 128 * 2 ^ (shift + 7) = _
        rw [Nat.pow_add, show n * 2 ^ shift = (n % 128 + 128 * (n / 128)) * 2 ^ shift by
          rw [Nat.mod_add_div]]
        ring
      · omega

theorem reads_varint {bits n : Nat} (hb : 0 < bits) (hn : n < 2 ^ bits) :
    Reads (varint bits) (Varint.encode n) n := by
  intro position rest
  have h := decodeFrom_encode bits rest n 0 0 0 hb hn
  rw [Nat.zero_add, Nat.zero_add, pow_zero, Nat.mul_one] at h
  simp only [onInput, varint, Varint.decode, h]

theorem reads_varU32 {n : Nat} (hn : n < 2 ^ 32) : Reads varU32 (Varint.encode n) n :=
  reads_varint (by omega) hn

theorem reads_varU64 {n : Nat} (hn : n < 2 ^ 64) : Reads varU64 (Varint.encode n) n :=
  reads_varint (by omega) hn

theorem reads_varI32 (v : Int32) (positive : Bool) :
    Reads (varI32 positive) (Item.encode (.varI32 v positive)) v := by
  cases positive with
  | true =>
      have h := reads_map (fun n => n.toUInt32.toInt32) (reads_varU32 v.toUInt32.toNat_lt)
      have hv : v.toUInt32.toNat.toUInt32.toInt32 = v := by simp
      rw [hv] at h
      exact h
  | false =>
      have h := reads_map (fun n => Int32.ofInt (Varint.unzigzag n))
        (reads_varU32 (Varint.zigzag_toInt32_lt v))
      rw [Varint.unzigzag_zigzag, Int32.ofInt_toInt] at h
      exact h

theorem reads_varI64 (v : Int64) (positive : Bool) :
    Reads (varI64 positive) (Item.encode (.varI64 v positive)) v := by
  cases positive with
  | true =>
      have h := reads_map (fun n => n.toUInt64.toInt64) (reads_varU64 v.toUInt64.toNat_lt)
      have hv : v.toUInt64.toNat.toUInt64.toInt64 = v := by simp
      rw [hv] at h
      exact h
  | false =>
      have h := reads_map (fun n => Int64.ofInt (Varint.unzigzag n))
        (reads_varU64 (Varint.zigzag_toInt64_lt v))
      rw [Varint.unzigzag_zigzag, Int64.ofInt_toInt] at h
      exact h

/-! ### Bytes and words -/

theorem reads_bytes (bs : List UInt8) : Reads (bytes bs.length) bs bs := by
  intro position rest
  simp [onInput, bytes, Input.remaining]

theorem reads_bool (b : Bool) : Reads bool (Item.encode (.bool b)) b := by
  intro position rest
  cases b <;> rfl

theorem length_bigEndian (width n : Nat) : (Item.bigEndian width n).length = width := by
  induction width with
  | zero => rfl
  | succ width ih => rw [Item.bigEndian, List.length_cons, ih]

theorem foldl_bigEndian (width n acc : Nat) :
    (Item.bigEndian width n).foldl (fun acc b => acc * 256 + b.toNat) acc =
      acc * 256 ^ width + n % 256 ^ width := by
  induction width generalizing acc with
  | zero => simp [Item.bigEndian, Nat.mod_one]
  | succ width ih =>
      rw [Item.bigEndian, List.foldl_cons, ih]
      change (acc * 256 + (n / 256 ^ width).toUInt8.toNat) * 256 ^ width + n % 256 ^ width = _
      have hbyte : (n / 256 ^ width).toUInt8.toNat = n / 256 ^ width % 256 := by simp
      rw [hbyte, pow_succ, Nat.mod_mul]
      ring

theorem bigEndian_bigEndian {width n : Nat} (hn : n < 256 ^ width) :
    bigEndian (Item.bigEndian width n) = n := by
  rw [bigEndian, foldl_bigEndian, Nat.zero_mul, Nat.zero_add, Nat.mod_eq_of_lt hn]

theorem reads_word32 (n : UInt32) : Reads word32 (Item.bigEndian 4 n.toNat) n := by
  have h := reads_map (fun bs => (bigEndian bs).toUInt32) (reads_bytes (Item.bigEndian 4 n.toNat))
  rw [length_bigEndian] at h
  have hlt : n.toNat < 256 ^ 4 := by
    have := n.toNat_lt
    omega
  have hn : n.toNat.toUInt32 = n := UInt32.ofNat_toNat
  rw [bigEndian_bigEndian hlt, hn] at h
  exact h

theorem reads_word64 (n : UInt64) : Reads word64 (Item.bigEndian 8 n.toNat) n := by
  have h := reads_map (fun bs => (bigEndian bs).toUInt64) (reads_bytes (Item.bigEndian 8 n.toNat))
  rw [length_bigEndian] at h
  have hlt : n.toNat < 256 ^ 8 := by
    have := n.toNat_lt
    omega
  have hn : n.toNat.toUInt64 = n := UInt64.ofNat_toNat
  rw [bigEndian_bigEndian hlt, hn] at h
  exact h

theorem reads_i32 (v : Int32) : Reads i32 (Item.encode (.i32 v)) v := by
  have h := reads_map UInt32.toInt32 (reads_word32 v.toUInt32)
  rwa [Int32.toInt32_toUInt32] at h

theorem reads_i64 (v : Int64) : Reads i64 (Item.encode (.i64 v)) v := by
  have h := reads_map UInt64.toInt64 (reads_word64 v.toUInt64)
  rwa [Int64.toInt64_toUInt64] at h

/-! ### Strings -/

theorem utf8?_utf8 (s : String) : utf8? (Item.utf8 s) = some s := by
  simp only [utf8?, Item.utf8]
  have hs : (⟨s.toUTF8.data.toList.toArray⟩ : ByteArray) = s.toByteArray := by simp
  rw [hs, String.fromUTF8?, dif_pos s.isValidUTF8]
  rfl

theorem length_utf8 (s : String) : (Item.utf8 s).length = s.utf8ByteSize := by
  simp [Item.utf8]

/-- The bytes of a length and then those of a text are read as the text. -/
theorem reads_string_of {lengthBytes textBytes text : List UInt8} {len : Nat} {s : String}
    (hlen : Reads varU64 lengthBytes len) (htext : Reads (bytes len) textBytes text)
    (hs : utf8? text = some s) : Reads string (lengthBytes ++ textBytes) s := by
  intro position rest
  have h₁ := hlen position (textBytes ++ rest)
  have h₂ := htext (position + lengthBytes.length) rest
  simp only [onInput] at h₁ h₂ ⊢
  rw [List.append_assoc, string, h₁]
  simp only [h₂, hs, List.length_append, Nat.add_assoc]

theorem reads_string {s : String} (hs : s.utf8ByteSize < 2 ^ 64) :
    Reads string (Item.encode (.str s)) s := by
  have htext := reads_bytes (Item.utf8 s)
  rw [length_utf8] at htext
  exact reads_string_of (reads_varU64 hs) htext (utf8?_utf8 s)

end Read

end GraphCodec
