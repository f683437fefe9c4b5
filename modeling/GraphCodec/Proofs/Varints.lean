import Mathlib.Data.Nat.Digits.Lemmas
import Mathlib.Order.Bounds.Basic
import GraphCodec.Bytes.Item
import GraphCodec.Proofs.Advance
import GraphCodec.Proofs.Items

/-!
# Bytes — which bytes are a variable-length integer

`Form groups bits bytes n` says that `bytes` are at most `groups` groups of seven bits that spell
`n`, a number of at most `bits` bits.  Longer forms than necessary, padded with groups of zeros, are
forms too.

* `takesExactly_varint`: reading accepts the forms of a number and nothing else.
* `shortest_encode`: what is written is the only shortest form.
* `isLeast_length_encode_zigzag`: how many groups a folded integer takes.
-/

namespace GraphCodec

namespace Varint

/-- Every group but the last has its high bit set. -/
inductive Grouped : List UInt8 → Prop
  | last {b : UInt8} (h : b.toNat < 128) : Grouped [b]
  | more {b : UInt8} {bytes : List UInt8} (h : 128 ≤ b.toNat) (hrest : Grouped bytes) :
      Grouped (b :: bytes)

/-- The number that the lower seven bits of each byte make up, the lowest group first. -/
def total (bytes : List UInt8) : Nat := Nat.ofDigits 128 (bytes.map fun b => b.toNat % 128)

theorem total_cons (b : UInt8) (bytes : List UInt8) :
    total (b :: bytes) = b.toNat % 128 + 128 * total bytes := Nat.ofDigits_cons

/-- The bytes are at most `groups` groups and spell a number of at most `bits` bits. -/
structure Form (groups bits : Nat) (bytes : List UInt8) (n : Nat) : Prop where
  grouped : Grouped bytes
  length_le : bytes.length ≤ groups
  total_eq : total bytes = n
  lt : n < 2 ^ bits

theorem Grouped.length_pos {bytes : List UInt8} (h : Grouped bytes) : 0 < bytes.length := by
  cases h <;> exact Nat.succ_pos _

/-! ### Reading -/

/-- A group fits if it starts inside the budget and has no bit beyond it. -/
theorem exceeds_eq_false_iff {bits shift data : Nat} (hbits : 7 ≤ bits) (hdata : data < 128) :
    exceeds bits shift data = false ↔ shift < bits ∧ data < 2 ^ (bits - shift) := by
  constructor
  · intro h
    simp only [exceeds, Bool.or_eq_false_iff, Bool.and_eq_false_iff, decide_eq_false_iff_not,
      Nat.not_le, not_not] at h
    obtain ⟨hs, hz | hz⟩ := h
    · -- the first group is too small to reach beyond the budget
      obtain rfl : shift = 0 := by omega
      exact ⟨hs, hdata.trans_le (Nat.pow_le_pow_right (by omega) hbits : 2 ^ 7 ≤ 2 ^ bits)⟩
    · rw [Nat.shiftRight_eq_div_pow, Nat.div_eq_zero_iff_lt (Nat.two_pow_pos _)] at hz
      exact ⟨hs, hz⟩
  · rintro ⟨hs, hlt⟩
    exact Read.exceeds_eq_false hs hlt

/-- Each group starts inside the budget, and the number has no bit beyond it. -/
def Inside (bits shift : Nat) (bytes : List UInt8) : Prop :=
  7 * (bytes.length - 1) + shift < bits ∧ total bytes < 2 ^ (bits - shift)

theorem inside_singleton {bits shift : Nat} (hbits : 7 ≤ bits) (b : UInt8) :
    Inside bits shift [b] ↔ exceeds bits shift (b.toNat % 128) = false := by
  rw [exceeds_eq_false_iff hbits (Nat.mod_lt _ (by omega))]
  simp [Inside, total]

/-- Groups are inside the budget if the lowest is and the others are inside what it leaves. -/
theorem inside_cons {bits shift : Nat} (hbits : 7 ≤ bits) (b : UInt8) {bytes : List UInt8}
    (hpos : 0 < bytes.length) : Inside bits shift (b :: bytes) ↔
      exceeds bits shift (b.toNat % 128) = false ∧ Inside bits (shift + 7) bytes := by
  have hlow : b.toNat % 128 < 128 := Nat.mod_lt _ (by omega)
  rw [exceeds_eq_false_iff hbits hlow, Inside, Inside, total_cons, List.length_cons]
  by_cases hroom : shift + 7 < bits
  · have hpow : 2 ^ (bits - shift) = 2 ^ (bits - (shift + 7)) * 128 := by
      rw [show bits - shift = bits - (shift + 7) + 7 by omega, Nat.pow_add]
    omega
  · omega

theorem total_cons_mul (b : UInt8) (bytes : List UInt8) (acc shift : Nat) :
    acc + total (b :: bytes) * 2 ^ shift =
      acc + b.toNat % 128 * Nat.pow 2 shift + total bytes * 2 ^ (shift + 7) := by
  rw [total_cons]
  change _ = acc + b.toNat % 128 * 2 ^ shift + _
  rw [Nat.pow_add]
  ring

/-- By induction on the groups: each one inside the budget is read. -/
theorem decodeFrom_of_grouped {bits : Nat} (hbits : 7 ≤ bits) (rest : List UInt8)
    {bytes : List UInt8} (hg : Grouped bytes) : ∀ {shift : Nat} (acc used : Nat),
      Inside bits shift bytes → decodeFrom bits shift acc used (bytes ++ rest) =
        .value (acc + total bytes * 2 ^ shift) (used + bytes.length) rest := by
  induction hg with
  | @last b h =>
      intro shift acc used hin
      rw [inside_singleton hbits] at hin
      rw [List.singleton_append, decodeFrom, total_cons_mul, hin]
      simp [h, total]
  | @more b bytes h hrest ih =>
      intro shift acc used hin
      obtain ⟨hx, hin⟩ := (inside_cons hbits b hrest.length_pos).mp hin
      rw [List.cons_append, decodeFrom, total_cons_mul, hx]
      simp only [Bool.false_eq_true, if_false, Nat.not_lt.mpr h]
      rw [ih _ _ hin, List.length_cons, Nat.add_assoc used, Nat.add_comm 1]

/-- By induction on the bytes: what was read are groups inside the budget. -/
theorem grouped_of_decodeFrom {bits : Nat} (hbits : 7 ≤ bits) {bytes rest : List UInt8}
    {n k : Nat} : ∀ {shift acc used : Nat}, decodeFrom bits shift acc used bytes = .value n k rest →
      ∃ taken, bytes = taken ++ rest ∧ Grouped taken ∧ Inside bits shift taken := by
  induction bytes with
  | nil =>
      intro shift acc used h
      cases h
  | cons b bytes ih =>
      intro shift acc used h
      simp only [decodeFrom] at h
      split at h
      · cases h
      · next hx =>
        have hx := Bool.eq_false_iff.mpr hx
        split at h
        · next hb =>
          cases h
          exact ⟨[b], rfl, .last hb, (inside_singleton hbits b).mpr hx⟩
        · next hb =>
          obtain ⟨taken, rfl, hg, hin⟩ := ih h
          exact ⟨b :: taken, rfl, .more (Nat.not_lt.mp hb) hg,
            (inside_cons hbits b hg.length_pos).mpr ⟨hx, hin⟩⟩

/-- At the first bit the budget is that of a whole form. -/
theorem inside_zero {groups bits : Nat} (hgroups : groups = (bits + 6) / 7) {bytes : List UInt8}
    (hpos : 0 < bytes.length) :
    Inside bits 0 bytes ↔ bytes.length ≤ groups ∧ total bytes < 2 ^ bits := by
  rw [Inside, Nat.sub_zero]
  omega

/-- **A number is read exactly where the bytes begin with a form of it.** -/
theorem decode_eq_value_iff {groups bits : Nat} (hbits : 7 ≤ bits)
    (hgroups : groups = (bits + 6) / 7) {bytes rest : List UInt8} {n used : Nat} :
    decode bits bytes = .value n used rest ↔
      ∃ taken, Form groups bits taken n ∧ bytes = taken ++ rest ∧ used = taken.length := by
  constructor
  · intro h
    obtain ⟨taken, rfl, hg, hin⟩ := grouped_of_decodeFrom hbits h
    rw [decode, decodeFrom_of_grouped hbits rest hg 0 0 hin] at h
    obtain ⟨hlen, hlt⟩ := (inside_zero hgroups hg.length_pos).mp hin
    have hval : total taken = n ∧ taken.length = used := by simpa using h
    exact ⟨taken, ⟨hg, hlen, hval.1, hval.1 ▸ hlt⟩, rfl, hval.2.symm⟩
  · rintro ⟨taken, ⟨hg, hlen, rfl, hlt⟩, rfl, rfl⟩
    have hin := (inside_zero hgroups hg.length_pos).mpr ⟨hlen, hlt⟩
    rw [decode, decodeFrom_of_grouped hbits rest hg 0 0 hin]
    simp

/-! ### Writing -/

theorem grouped_encode (n : Nat) : Grouped (encode n) := by
  induction n using Nat.strongRecOn with
  | ind n ih =>
    by_cases h : n < 128
    · rw [encode_of_lt h]
      exact .last (by simp; omega)
    · rw [encode_of_le (Nat.not_lt.mp h)]
      exact .more (by simp; omega) (ih (n / 128) (by omega))

theorem total_encode (n : Nat) : total (encode n) = n := by
  induction n using Nat.strongRecOn with
  | ind n ih =>
    by_cases h : n < 128
    · rw [encode_of_lt h, total]
      simp
      omega
    · rw [encode_of_le (Nat.not_lt.mp h), total_cons, ih (n / 128) (by omega)]
      have hbyte : (n % 128 + 128).toUInt8.toNat = n % 128 + 128 := by simp; omega
      omega

theorem length_encode_le_iff {k : Nat} (hk : 1 ≤ k) (n : Nat) :
    (encode n).length ≤ k ↔ n < 128 ^ k := by
  induction n using Nat.strongRecOn generalizing k with
  | ind n ih =>
    by_cases h : n < 128
    · rw [encode_of_lt h, List.length_singleton]
      have : 128 ^ 1 ≤ 128 ^ k := Nat.pow_le_pow_right (by omega) hk
      omega
    · rw [encode_of_le (Nat.not_lt.mp h), List.length_cons]
      obtain ⟨k, rfl⟩ : ∃ k', k = k' + 1 := ⟨k - 1, by omega⟩
      rcases Nat.eq_zero_or_pos k with rfl | hk
      · have := (grouped_encode (n / 128)).length_pos
        omega
      · rw [Nat.add_le_add_iff_right, ih (n / 128) (by omega) hk, Nat.div_lt_iff_lt_mul (by omega),
          Nat.pow_succ]

/-- By induction on the groups: a form that is not longer has the same groups. -/
theorem eq_encode_of_length_le {bytes : List UInt8} (h : Grouped bytes)
    (hlen : bytes.length ≤ (encode (total bytes)).length) : bytes = encode (total bytes) := by
  induction h with
  | @last b h =>
      have htotal : total [b] = b.toNat := by
        rw [total]
        simp
        omega
      rw [htotal, encode_of_lt h]
      simp
  | @more b bytes h hrest ih =>
      rw [total_cons] at hlen ⊢
      have hpos := hrest.length_pos
      rw [List.length_cons] at hlen
      have hbig : 128 ≤ b.toNat % 128 + 128 * total bytes := by
        by_contra hsmall
        rw [encode_of_lt (Nat.not_le.mp hsmall), List.length_singleton] at hlen
        omega
      have hlow : (b.toNat % 128 + 128 * total bytes) % 128 = b.toNat % 128 := by omega
      have hhigh : (b.toNat % 128 + 128 * total bytes) / 128 = total bytes := by omega
      have hbyte : b.toNat % 128 + 128 = b.toNat := by
        have := b.toNat_lt
        omega
      rw [encode_of_le hbig, List.length_cons, hhigh] at hlen
      rw [encode_of_le hbig, hlow, hhigh, hbyte, ← ih (by omega)]
      simp

/-- `bytes` have the property, and all others that have it are longer. -/
def Shortest (p : List UInt8 → Prop) (bytes : List UInt8) : Prop :=
  p bytes ∧ ∀ other, p other → other = bytes ∨ bytes.length < other.length

theorem shortest_encode {groups bits n : Nat} (hgroups : 1 ≤ groups) (hbits : bits ≤ 7 * groups)
    (hn : n < 2 ^ bits) : Shortest (Form groups bits · n) (encode n) := by
  have hlen : n < 128 ^ groups := by
    refine hn.trans_le ?_
    rw [show 128 = 2 ^ 7 from rfl, ← Nat.pow_mul]
    exact Nat.pow_le_pow_right (by omega) hbits
  refine ⟨⟨grouped_encode n, (length_encode_le_iff hgroups n).mpr hlen, total_encode n, hn⟩, ?_⟩
  rintro other ⟨hg, -, rfl, -⟩
  by_cases h : other.length ≤ (encode (total other)).length
  · exact .inl (eq_encode_of_length_le hg h)
  · exact .inr (Nat.not_le.mp h)

/-- Writing the item appends the only shortest of some bytes, and gives how many they are. -/
def WritesShortest (form : List UInt8 → Prop) (item : Item) : Prop :=
  Shortest form item.encode ∧ ∀ out : Output,
    (out.write item).bytes.toList = out.bytes.toList ++ item.encode ∧
      item.varintSize? = some ((out.write item).position - out.position)

theorem writesShortest {groups bits n : Nat} {item : Item} (hgroups : 1 ≤ groups)
    (hbits : bits ≤ 7 * groups) (hn : n < 2 ^ bits) (hencode : item.encode = encode n)
    (hsize : item.varintSize? = some item.encode.length) :
    WritesShortest (Form groups bits · n) item := by
  refine ⟨hencode ▸ shortest_encode hgroups hbits hn, fun out => ⟨out.toList_write item, ?_⟩⟩
  rw [hsize, Output.position, Output.position, ← Array.length_toList, ← Array.length_toList,
    out.toList_write, List.length_append, Nat.add_sub_cancel_left]

/-! ### Folded integers -/

theorem zigzag_lt_iff {k : Nat} (hk : 1 ≤ k) (v : Int) :
    zigzag v < 128 ^ k ↔ -2 ^ (7 * k - 1) ≤ v ∧ v < 2 ^ (7 * k - 1) := by
  obtain ⟨p, hp⟩ : ∃ p : Nat, p = 2 ^ (7 * k - 1) := ⟨_, rfl⟩
  have hpow : 128 ^ k = 2 * p := by
    rw [hp, ← Nat.pow_succ', show 128 = 2 ^ 7 from rfl, ← Nat.pow_mul]
    congr 1
    omega
  have hcast : (2 : Int) ^ (7 * k - 1) = p := by
    rw [hp]
    push_cast
    rfl
  rw [hpow, hcast, zigzag]
  split <;> omega

theorem isLeast_length_encode_zigzag (v : Int) :
    IsLeast {k | 1 ≤ k ∧ -2 ^ (7 * k - 1) ≤ v ∧ v < 2 ^ (7 * k - 1)}
      (encode (zigzag v)).length := by
  have hpos : 1 ≤ (encode (zigzag v)).length := (grouped_encode _).length_pos
  refine ⟨⟨hpos, (zigzag_lt_iff hpos v).mp ((length_encode_le_iff hpos _).mp le_rfl)⟩, ?_⟩
  rintro k ⟨hk, hv⟩
  exact (length_encode_le_iff hk _).mpr ((zigzag_lt_iff hk v).mpr hv)

/-- The number that is written for a 32-bit integer. -/
def raw32 (v : Int32) (positive : Bool) : Nat :=
  if positive then v.toUInt32.toNat else zigzag v.toInt

/-- The number that is written for a 64-bit integer. -/
def raw64 (v : Int64) (positive : Bool) : Nat :=
  if positive then v.toUInt64.toNat else zigzag v.toInt

end Varint

namespace Read

open Varint

variable {α β : Type}

/-- The read succeeds exactly where the input begins with a form of a value, and takes it off. -/
def TakesExactly (r : Read α) (form : List UInt8 → α → Prop) : Prop :=
  ∀ i j a, r.onInput i = (.ok a, j) ↔
    ∃ taken, form taken a ∧ i.rest = taken ++ j.rest ∧ j.position = i.position + taken.length

theorem takesExactly_varint {groups bits : Nat} (hbits : 7 ≤ bits)
    (hgroups : groups = (bits + 6) / 7) : TakesExactly (varint bits) (Form groups bits) := by
  intro i j n
  have hdecode : (varint bits).onInput i = (.ok n, j) ↔
      ∃ used, decode bits i.rest = .value n used j.rest ∧ j.position = i.position + used := by
    obtain ⟨position, rest⟩ := j
    simp only [onInput, varint]
    split
    · next m used left hd =>
      simp only [hd, Prod.mk.injEq, Except.ok.injEq, Input.mk.injEq, Outcome.value.injEq]
      constructor
      · rintro ⟨rfl, rfl, rfl⟩
        exact ⟨used, ⟨rfl, rfl, rfl⟩, rfl⟩
      · rintro ⟨_, ⟨rfl, rfl, rfl⟩, rfl⟩
        exact ⟨rfl, rfl, rfl⟩
    · next hd => simp [hd]
    · next hd => simp [hd]
  rw [hdecode]
  simp only [decode_eq_value_iff hbits hgroups]
  constructor
  · rintro ⟨_, ⟨taken, hform, hrest, rfl⟩, hpos⟩
    exact ⟨taken, hform, hrest, hpos⟩
  · rintro ⟨taken, hform, hrest, hpos⟩
    exact ⟨_, ⟨taken, hform, hrest, rfl⟩, hpos⟩

theorem takesExactly_varU32 : TakesExactly varU32 (Form 5 32) :=
  takesExactly_varint (by omega) rfl

theorem takesExactly_varU64 : TakesExactly varU64 (Form 10 64) :=
  takesExactly_varint (by omega) rfl

/-- What is done to a value in the end changes which forms it has, but not the bytes. -/
theorem takesExactly_map {r : Read α} {form : List UInt8 → α → Prop} {f : α → β}
    (raw : β → α) (hr : TakesExactly r form)
    (hf : ∀ {bytes a} b, form bytes a → (f a = b ↔ a = raw b)) :
    TakesExactly (do return f (← r)) fun bytes b => form bytes (raw b) := by
  intro i j b
  rw [map_onInput]
  constructor
  · intro h
    rcases hrun : r.onInput i with ⟨_ | a, j'⟩ <;> rw [hrun] at h <;> cases h
    obtain ⟨taken, hform, hrest⟩ := (hr i _ a).mp hrun
    refine ⟨taken, ?_, hrest⟩
    show form taken (raw (f a))
    rwa [← (hf (f a) hform).mp rfl]
  · rintro ⟨taken, hform, hrest⟩
    rw [(hr i j (raw b)).mpr ⟨taken, hform, hrest⟩]
    show (Except.ok (f (raw b)), j) = _
    rw [(hf b hform).mpr rfl]

theorem takesExactly_varI32 (positive : Bool) :
    TakesExactly (varI32 positive) fun bytes v => Form 5 32 bytes (raw32 v positive) := by
  refine takesExactly_map (raw32 · positive) takesExactly_varU32
    fun {bytes n} v h => ?_
  have hn := h.lt
  cases positive with
  | true =>
      simp only [raw32, if_true]
      constructor
      · rintro rfl
        simp; omega
      · rintro rfl
        simp
  | false =>
      simp only [raw32, Bool.false_eq_true, if_false]
      constructor
      · rintro rfl
        have hv : (Int32.ofInt (unzigzag n)).toInt = unzigzag n := by
          apply Int32.toInt_ofInt_of_le <;> simp only [unzigzag] <;> split <;> omega
        rw [hv, zigzag_unzigzag]
      · rintro rfl
        rw [unzigzag_zigzag, Int32.ofInt_toInt]

theorem takesExactly_varI64 (positive : Bool) :
    TakesExactly (varI64 positive) fun bytes v => Form 10 64 bytes (raw64 v positive) := by
  refine takesExactly_map (raw64 · positive) takesExactly_varU64
    fun {bytes n} v h => ?_
  have hn := h.lt
  cases positive with
  | true =>
      simp only [raw64, if_true]
      constructor
      · rintro rfl
        simp; omega
      · rintro rfl
        simp
  | false =>
      simp only [raw64, Bool.false_eq_true, if_false]
      constructor
      · rintro rfl
        have hv : (Int64.ofInt (unzigzag n)).toInt = unzigzag n := by
          apply Int64.toInt_ofInt_of_le <;> simp only [unzigzag] <;> split <;> omega
        rw [hv, zigzag_unzigzag]
      · rintro rfl
        rw [unzigzag_zigzag, Int64.ofInt_toInt]

end Read

end GraphCodec
