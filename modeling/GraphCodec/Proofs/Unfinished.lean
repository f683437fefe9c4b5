import GraphCodec.Proofs.Atomicity

/-!
# Bytes — numbers that are cut off

A variable-length number cannot be read if the bytes end inside it, or if a group reaches beyond the
budget of bits.  The first of these is found where groups that all ask for another one take up the
whole input (`Varint.Unfinished`).  If there is room for another group, more bytes help; if there is
none, the number can never be read, and the read says all the same that a byte is missing
(`Varint.Exhausted`).

* `Varint.decode_eq_truncated_iff`: which bytes are said to end inside a number.
* `varint_faults_tell`: a fault tells whether more bytes help, except at exhausted groups.
* `not_faultTells`: five exhausted groups.
-/

namespace GraphCodec

namespace Varint

/-- Groups inside the budget that all ask for another one. -/
structure Unfinished (groups bits : Nat) (bytes : List UInt8) : Prop where
  more : ∀ b ∈ bytes, 128 ≤ b.toNat
  length_le : bytes.length ≤ groups
  lt : total bytes < 2 ^ bits

/-- Unfinished groups behind which there is no room for another one. -/
structure Exhausted (groups bits : Nat) (bytes : List UInt8) : Prop
    extends Unfinished groups bits bytes where
  length_eq : bytes.length = groups

theorem Grouped.exists_last {bytes : List UInt8} (h : Grouped bytes) :
    ∃ b ∈ bytes, b.toNat < 128 := by
  induction h with
  | last h => exact ⟨_, List.mem_singleton_self _, h⟩
  | more _ _ ih =>
      obtain ⟨b, hmem, hb⟩ := ih
      exact ⟨b, List.mem_cons_of_mem _ hmem, hb⟩

theorem grouped_concat {bytes : List UInt8} (hmore : ∀ b ∈ bytes, 128 ≤ b.toNat) {last : UInt8}
    (hlast : last.toNat < 128) : Grouped (bytes ++ [last]) := by
  induction bytes with
  | nil => exact .last hlast
  | cons b bytes ih =>
      obtain ⟨hb, hmore⟩ := List.forall_mem_cons.mp hmore
      exact .more hb (ih hmore)

/-- A group of zeros at the end does not change the number. -/
theorem total_concat_zero (bytes : List UInt8) : total (bytes ++ [0]) = total bytes := by
  induction bytes with
  | nil => rfl
  | cons b bytes ih => rw [List.cons_append, total_cons, ih, total_cons]

/-! ### Groups that take up the whole input -/

/-- By induction on the bytes: they run out while each group is inside the budget and asks for
another one. -/
theorem decodeFrom_eq_truncated_iff {bits : Nat} (hbits : 7 ≤ bits) {bytes : List UInt8} {k : Nat} :
    ∀ {shift acc used : Nat}, decodeFrom bits shift acc used bytes = .truncated k ↔
      k = used + bytes.length ∧ (∀ b ∈ bytes, 128 ≤ b.toNat) ∧
        (bytes = [] ∨ Inside bits shift bytes) := by
  induction bytes with
  | nil =>
      intro shift acc used
      simp [decodeFrom, eq_comm]
  | cons b bytes ih =>
      intro shift acc used
      have hin : Inside bits shift (b :: bytes) ↔ exceeds bits shift (b.toNat % 128) = false ∧
          (bytes = [] ∨ Inside bits (shift + 7) bytes) := by
        rcases Nat.eq_zero_or_pos bytes.length with hnil | hpos
        · rw [List.length_eq_zero_iff.mp hnil, inside_singleton hbits]
          simp
        · rw [inside_cons hbits b hpos]
          simp [List.ne_nil_of_length_pos hpos]
      simp only [decodeFrom, hin, List.forall_mem_cons, List.length_cons]
      cases hx : exceeds bits shift (b.toNat % 128) with
      | true => simp
      | false =>
          by_cases hb : b.toNat < 128
          · simp [hb, Nat.not_le.mpr hb]
          · simp only [hb, if_false, Bool.false_eq_true, ih, Nat.not_lt.mp hb]
            simp [Nat.add_assoc, Nat.add_comm 1]

/-- **The bytes end inside a number if they are unfinished groups.** -/
theorem decode_eq_truncated_iff {groups bits : Nat} (hbits : 7 ≤ bits)
    (hgroups : groups = (bits + 6) / 7) {bytes : List UInt8} {k : Nat} :
    decode bits bytes = .truncated k ↔ k = bytes.length ∧ Unfinished groups bits bytes := by
  rw [decode, decodeFrom_eq_truncated_iff hbits, Nat.zero_add]
  rcases Nat.eq_zero_or_pos bytes.length with hnil | hpos
  · obtain rfl := List.length_eq_zero_iff.mp hnil
    have : Unfinished groups bits [] := ⟨List.forall_mem_nil _, Nat.zero_le _, Nat.two_pow_pos bits⟩
    simp [this]
  · rw [inside_zero hgroups hpos]
    refine and_congr_right fun _ => ⟨?_, ?_⟩
    · rintro ⟨hmore, rfl | ⟨hlen, hlt⟩⟩
      · cases hpos
      · exact ⟨hmore, hlen, hlt⟩
    · rintro ⟨hmore, hlen, hlt⟩
      exact ⟨hmore, .inr ⟨hlen, hlt⟩⟩

/-- Where there is room for another group, a group of zeros finishes the number. -/
theorem Unfinished.form {groups bits : Nat} {bytes : List UInt8}
    (h : Unfinished groups bits bytes) (hroom : bytes.length < groups) :
    Form groups bits (bytes ++ [0]) (total bytes) where
  grouped := grouped_concat h.more (by decide)
  length_le := by
    rw [List.length_append]
    exact hroom
  total_eq := total_concat_zero bytes
  lt := h.lt

/-- Where there is none, nothing does: a form ends inside the groups, and so with one of them. -/
theorem Exhausted.not_form {groups bits n : Nat} {bytes more taken rest : List UInt8}
    (h : Exhausted groups bits bytes) (hform : Form groups bits taken n) :
    bytes ++ more ≠ taken ++ rest := by
  intro heq
  obtain ⟨b, hmem, hb⟩ := hform.grouped.exists_last
  have hbegins : taken <+: bytes := List.prefix_of_prefix_length_le ⟨rest, heq.symm⟩
    (List.prefix_append bytes more) (h.length_eq ▸ hform.length_le)
  exact absurd hb (Nat.not_lt.mpr (h.more b (hbegins.subset hmem)))

end Varint

/-! ### Faults -/

namespace Read

open Varint

variable {α : Type}

/-- The read succeeds when some bytes are appended. -/
def Extensible (r : Read α) (i : Input) : Prop :=
  ∃ more a j, r.onInput (i.extend more) = (.ok a, j)

/-- If the read fails, the fault tells whether more bytes help: some are missing, or the number is
malformed where it starts. -/
def FaultTells (r : Read α) (i : Input) : Prop :=
  ∀ e j, r.onInput i = (.error e, j) →
    (e.Missing ↔ Extensible r i) ∧ (e = .malformedVarint i.position ↔ ¬ Extensible r i)

variable {groups bits : Nat} {i : Input}

theorem extensible_of_unfinished (hbits : 7 ≤ bits) (hgroups : groups = (bits + 6) / 7)
    (h : Unfinished groups bits i.rest) (hroom : i.rest.length < groups) :
    Extensible (varint bits) i := by
  have hform := h.form hroom
  refine ⟨[0], total i.rest, ⟨i.position + (i.rest ++ [0]).length, []⟩, ?_⟩
  exact (takesExactly_varint hbits hgroups _ _ _).mpr
    ⟨i.rest ++ [0], hform, (List.append_nil _).symm, rfl⟩

theorem not_extensible_of_exhausted (hbits : 7 ≤ bits) (hgroups : groups = (bits + 6) / 7)
    (h : Exhausted groups bits i.rest) : ¬ Extensible (varint bits) i := by
  rintro ⟨more, n, j, hok⟩
  obtain ⟨taken, hform, hrest, -⟩ := (takesExactly_varint hbits hgroups _ _ _).mp hok
  exact h.not_form hform hrest

/-- At exhausted groups a byte is said to be missing. -/
theorem missing_of_exhausted (hbits : 7 ≤ bits) (hgroups : groups = (bits + 6) / 7)
    (h : Exhausted groups bits i.rest) :
    ∃ e j, (varint bits).onInput i = (.error e, j) ∧ e.Missing := by
  have htrunc := (decode_eq_truncated_iff hbits hgroups).mpr ⟨rfl, h.toUnfinished⟩
  rcases hrun : (varint bits).onInput i with ⟨e | n, j⟩
  · refine ⟨e, j, rfl, ?_⟩
    rcases (varint_error hrun).1 with ⟨used, -, rfl⟩ | ⟨hd, -⟩
    · exact ⟨_, _, rfl⟩
    · cases hd.symm.trans htrunc
  · exact absurd ⟨[], n, j, i.extend_nil.symm ▸ hrun⟩ (not_extensible_of_exhausted hbits hgroups h)

theorem faultTells_varint_iff (hbits : 7 ≤ bits) (hgroups : groups = (bits + 6) / 7) (i : Input) :
    FaultTells (varint bits) i ↔ ¬ Exhausted groups bits i.rest := by
  constructor
  · intro htells hfull
    obtain ⟨e, j, hrun, he⟩ := missing_of_exhausted hbits hgroups hfull
    exact not_extensible_of_exhausted hbits hgroups hfull ((htells e j hrun).1.mp he)
  · intro hfull e j h
    rcases (varint_error h).1 with ⟨used, hd, rfl⟩ | ⟨hd, rfl⟩
    · -- unfinished groups with room for another one
      obtain ⟨-, hopen⟩ := (decode_eq_truncated_iff hbits hgroups).mp hd
      have hroom : i.rest.length < groups :=
        lt_of_le_of_ne hopen.length_le fun heq => hfull ⟨hopen, heq⟩
      have hext := extensible_of_unfinished hbits hgroups hopen hroom
      exact ⟨iff_of_true ⟨_, _, rfl⟩ hext, iff_of_false nofun (not_not_intro hext)⟩
    · -- a group beyond the budget stays there
      have hext : ¬ Extensible (varint bits) i := by
        rintro ⟨more, n, k, hok⟩
        cases ((whole_varint hbits hgroups).final more h nofun).symm.trans hok
      exact ⟨iff_of_false nofun hext, iff_of_true rfl hext⟩

end Read

open Read Varint

/-- **A fault tells whether more bytes help, unless the groups are exhausted.**  Where a number of
at most 32 or 64 bits cannot be read, bytes are said to be missing just if some bytes make it
readable, and the number is said to be malformed at its start just if none do.  The only exception
are five or ten groups at the end of the input, all of which ask for another one. -/
theorem varint_faults_tell (i : Input) :
    (FaultTells varU32 i ↔ ¬ Exhausted 5 32 i.rest) ∧
      (FaultTells varU64 i ↔ ¬ Exhausted 10 64 i.rest) :=
  ⟨faultTells_varint_iff (by omega) rfl i, faultTells_varint_iff (by omega) rfl i⟩

/-- Five groups that ask for another one are said to lack a byte, and no bytes help. -/
theorem not_faultTells : ¬ FaultTells varU32 ⟨0, [0x80, 0x80, 0x80, 0x80, 0x80]⟩ := by
  have hmore : ∀ b ∈ List.replicate 5 (0x80 : UInt8), 128 ≤ b.toNat := fun b hb =>
    (List.eq_of_mem_replicate hb).symm ▸ Nat.le_refl 128
  have hfull : Exhausted 5 32 (List.replicate 5 0x80) := ⟨⟨hmore, Nat.le_refl 5, by decide⟩, rfl⟩
  exact fun htells => (faultTells_varint_iff (by omega) rfl _).mp htells hfull

end GraphCodec
