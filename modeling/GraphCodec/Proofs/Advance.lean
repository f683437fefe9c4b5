import Mathlib.Data.List.Basic
import GraphCodec.Bytes.Input

/-!
# Bytes — reads go forward

However a read ends, what it leaves of its input is the input with some bytes taken off the front,
and the position has moved by their number (`Advances`).  A read of anything that has a size takes
at least one byte if it ends well (`Bites`).
-/

namespace GraphCodec

/-- `j` is what is left of `i` when some bytes are taken off the front. -/
def Input.Leaves (i j : Input) : Prop :=
  ∃ taken, i.rest = taken ++ j.rest ∧ j.position = i.position + taken.length

namespace Input.Leaves

variable {i j k : Input}

theorem refl (i : Input) : i.Leaves i := ⟨[], rfl, rfl⟩

theorem trans (h₁ : i.Leaves j) (h₂ : j.Leaves k) : i.Leaves k := by
  obtain ⟨bytes, hb, hp⟩ := h₁
  obtain ⟨bytes', hb', hp'⟩ := h₂
  refine ⟨bytes ++ bytes', ?_, ?_⟩
  · rw [hb, hb', List.append_assoc]
  · rw [hp', hp, List.length_append, Nat.add_assoc]

theorem length_le (h : i.Leaves j) : j.rest.length ≤ i.rest.length := by
  obtain ⟨bytes, hb, -⟩ := h
  rw [hb, List.length_append]
  exact Nat.le_add_left _ _

end Input.Leaves

namespace Read

variable {α β : Type}

/-- The read takes bytes off the front of its input, also when it fails. -/
def Advances (r : Read α) : Prop := ∀ i : Input, i.Leaves (r.onInput i).2

theorem Advances.of_run {r : Read α} (hr : Advances r) {i j : Input} {x : Except DecodeError α}
    (h : r.onInput i = (x, j)) : i.Leaves j := by
  have hi := hr i
  rwa [h] at hi

theorem advances_pure (a : α) : Advances (pure a) := fun i => .refl i

theorem advances_bind {r : Read α} {k : α → Read β} (hr : Advances r)
    (hk : ∀ a, Advances (k a)) : Advances (r >>= k) := by
  intro i
  show i.Leaves (match r.onInput i with
    | (x, j) => (ExceptT.bindCont k x : StateM Input _) j).2
  rcases h : r.onInput i with ⟨_ | a, j⟩
  · exact hr.of_run h
  · exact (hr.of_run h).trans (hk a j)

theorem map_onInput (f : α → β) (r : Read α) (i : Input) :
    (do return f (← r) : Read β).onInput i = ((r.onInput i).1.map f, (r.onInput i).2) := by
  show (match r.onInput i with
    | (x, j) => (ExceptT.bindCont (fun a => (pure (f a) : Read β)) x : StateM Input _) j) = _
  rcases r.onInput i with ⟨_ | a, j⟩ <;> rfl

theorem advances_map (f : α → β) {r : Read α} (hr : Advances r) :
    Advances (do return f (← r)) :=
  advances_bind hr fun _ => advances_pure _

/-! ### Numbers -/

theorem decodeFrom_eq_value {bits : Nat} {bytes rest : List UInt8} {n used' : Nat} :
    ∀ {shift acc used : Nat}, Varint.decodeFrom bits shift acc used bytes = .value n used' rest →
      ∃ taken, bytes = taken ++ rest ∧ taken ≠ [] ∧ used' = used + taken.length := by
  induction bytes with
  | nil =>
      intro shift acc used h
      cases h
  | cons b bytes ih =>
      intro shift acc used h
      simp only [Varint.decodeFrom] at h
      split at h
      · cases h
      · split at h
        · cases h
          exact ⟨[b], rfl, List.cons_ne_nil _ _, rfl⟩
        · obtain ⟨taken, rfl, -, rfl⟩ := ih h
          exact ⟨b :: taken, rfl, List.cons_ne_nil _ _, by rw [List.length_cons]; omega⟩

theorem varint_eq_ok {bits : Nat} {i j : Input} {n : Nat}
    (h : (varint bits).onInput i = (.ok n, j)) : i.Leaves j ∧ j.rest.length < i.rest.length := by
  simp only [onInput, varint, Varint.decode] at h
  split at h
  · next hd =>
    cases h
    obtain ⟨taken, hb, hne, rfl⟩ := decodeFrom_eq_value hd
    refine ⟨⟨taken, hb, by simp⟩, ?_⟩
    rw [hb, List.length_append]
    exact Nat.lt_add_of_pos_left (List.length_pos_of_ne_nil hne)
  · cases h
  · cases h

theorem advances_varint (bits : Nat) : Advances (varint bits) := by
  intro i
  rcases h : (varint bits).onInput i with ⟨e | n, j⟩
  · -- a number that cannot be read leaves the input as it is
    simp only [onInput, varint] at h
    split at h <;> cases h <;> exact .refl i
  · exact (varint_eq_ok h).1

/-- A number that was read has taken a byte. -/
theorem length_lt_of_varU32 {i j : Input} {n : Nat} (h : varU32.onInput i = (.ok n, j)) :
    j.rest.length < i.rest.length := (varint_eq_ok h).2

theorem advances_varI32 (positive : Bool) : Advances (varI32 positive) :=
  advances_map _ (advances_varint _)

theorem advances_varI64 (positive : Bool) : Advances (varI64 positive) :=
  advances_map _ (advances_varint _)

/-! ### Bytes -/

theorem bytes_onInput (len position : Nat) (rest : List UInt8) :
    (bytes len).onInput ⟨position, rest⟩ =
      if len ≤ rest.length then (.ok (rest.take len), ⟨position + len, rest.drop len⟩)
      else (.error (.unexpectedEnd position (len - rest.length)), ⟨position, rest⟩) := rfl

/-- A text is its length and that many bytes. -/
theorem string_onInput (i : Input) : string.onInput i =
    match varU64.onInput i with
    | (.error e, j) => (.error e, j)
    | (.ok len, j) =>
      match (bytes len).onInput j with
      | (.error e, _) => (.error e, i)
      | (.ok text, k) =>
        match utf8? text with
        | some s => (.ok s, k)
        | none => (.error (.invalidUtf8 j.position), i) := rfl

theorem advances_bytes (len : Nat) : Advances (bytes len) := by
  intro i
  simp only [onInput, bytes]
  split
  · next h =>
    unfold Input.remaining at h
    exact ⟨i.rest.take len, by simp, by simp [Nat.min_eq_left h]⟩
  · exact .refl i

theorem advances_bool : Advances bool := by
  intro i
  obtain ⟨position, rest⟩ := i
  cases rest with
  | nil => exact .refl _
  | cons b rest =>
      simp only [onInput, bool]
      split
      · exact ⟨[b], rfl, rfl⟩
      · split
        · exact ⟨[b], rfl, rfl⟩
        · exact .refl _

theorem advances_word32 : Advances word32 := advances_map _ (advances_bytes 4)

theorem advances_word64 : Advances word64 := advances_map _ (advances_bytes 8)

theorem advances_i32 : Advances i32 := advances_map _ advances_word32

theorem advances_i64 : Advances i64 := advances_map _ advances_word64

theorem advances_string : Advances string := by
  intro i
  show i.Leaves (string i).2
  simp only [string]
  rcases h : varU64 i with ⟨e | len, j⟩
  · exact (advances_varint 64).of_run h
  · -- a text that cannot be read leaves the input in front of its length
    simp only
    rcases h' : bytes len j with ⟨e | text, k⟩
    · exact .refl i
    · simp only
      split
      · exact ((advances_varint 64).of_run h).trans ((advances_bytes len).of_run h')
      · exact .refl i

/-! ### Reads that take a byte -/

/-- When the read ends well, it has taken at least one byte. -/
def Bites (r : Read α) : Prop :=
  ∀ {i a j}, r.onInput i = (.ok a, j) → j.rest.length < i.rest.length

theorem bites_map (f : α → β) {r : Read α} (hr : Bites r) : Bites (do return f (← r)) := by
  intro i b j h
  rw [map_onInput] at h
  rcases hx : r.onInput i with ⟨_ | a, j'⟩ <;> rw [hx] at h <;> cases h
  exact hr hx

theorem bites_varint (bits : Nat) : Bites (varint bits) := fun h => (varint_eq_ok h).2

theorem bites_bytes {len : Nat} (hlen : 0 < len) : Bites (bytes len) := by
  rintro ⟨position, rest⟩ text j h
  rw [bytes_onInput] at h
  split at h <;> cases h
  simp only [List.length_drop]
  omega

theorem bites_bool : Bites bool := by
  rintro ⟨position, _ | ⟨x, rest⟩⟩ b j h
  · cases h
  · simp only [onInput, bool] at h
    split at h
    · cases h
      exact Nat.lt_succ_self _
    · split at h <;> cases h
      exact Nat.lt_succ_self _

theorem bites_varI32 (positive : Bool) : Bites (varI32 positive) := bites_map _ (bites_varint 32)

theorem bites_varI64 (positive : Bool) : Bites (varI64 positive) := bites_map _ (bites_varint 64)

theorem bites_word32 : Bites word32 := bites_map _ (bites_bytes (by decide))

theorem bites_word64 : Bites word64 := bites_map _ (bites_bytes (by decide))

theorem bites_i32 : Bites i32 := bites_map _ bites_word32

theorem bites_i64 : Bites i64 := bites_map _ bites_word64

theorem bites_string : Bites string := by
  intro i s j h
  rw [string_onInput] at h
  rcases hl : varU64.onInput i with ⟨e | len, i₁⟩ <;> simp only [hl] at h
  · cases h
  · rcases hb : (bytes len).onInput i₁ with ⟨e | text, i₂⟩ <;> simp only [hb] at h
    · cases h
    · split at h <;> cases h
      have hlen : i₁.rest.length < i.rest.length := bites_varint 64 hl
      exact Nat.lt_of_le_of_lt ((advances_bytes len).of_run hb).length_le hlen

end Read

end GraphCodec
