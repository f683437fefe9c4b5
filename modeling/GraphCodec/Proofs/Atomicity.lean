import GraphCodec.Proofs.Shortfall
import GraphCodec.Proofs.Streams
import GraphCodec.Proofs.Varints

/-!
# Bytes — a read takes a value or nothing

A read that succeeds takes the bytes of its value off the input and depends on no others; a read
that fails leaves the input as it is.  A failure does not go away when bytes are appended, unless
the input ended too early, and then not before as many bytes have come as were said to be missing
(`Read.Whole`).

* `whole_item`: all of this holds of the read for every kind of item.
-/

namespace GraphCodec

/-- The error says that the input ended too early. -/
def DecodeError.Missing (e : DecodeError) : Prop :=
  ∃ position needed, e = .unexpectedEnd position needed

theorem Input.extend_nil (i : Input) : i.extend [] = i := by
  simp [extend]

namespace Read

variable {α β : Type}

/-- The read takes a value or nothing. -/
structure Whole (r : Read α) : Prop where
  /-- What is taken is read alike wherever it stands. -/
  ok : ∀ {i a j}, r.onInput i = (.ok a, j) →
    ∃ taken, i.rest = taken ++ j.rest ∧ j.position = i.position + taken.length ∧ Reads r taken a
  error : ∀ {i e j}, r.onInput i = (.error e, j) → j = i
  /-- Appended bytes mend no failure but that of an input that ended too early. -/
  final : ∀ {i e j} more, r.onInput i = (.error e, j) → ¬ e.Missing →
    r.onInput (i.extend more) = (.error e, i.extend more)
  /-- Fewer bytes than are missing do not help. -/
  missing : ∀ {i position needed j} more,
    r.onInput i = (.error (.unexpectedEnd position needed), j) → more.length < needed →
      ∃ e, e.Missing ∧ r.onInput (i.extend more) = (.error e, i.extend more)

theorem TakesExactly.ok {r : Read α} {form : List UInt8 → α → Prop} (hr : TakesExactly r form)
    {i j : Input} {a : α} (h : r.onInput i = (.ok a, j)) :
    ∃ taken, i.rest = taken ++ j.rest ∧ j.position = i.position + taken.length ∧
      Reads r taken a := by
  obtain ⟨taken, hform, hrest, hpos⟩ := (hr i j a).mp h
  exact ⟨taken, hrest, hpos, fun _ _ => (hr _ _ a).mpr ⟨taken, hform, rfl, rfl⟩⟩

theorem Senses.final {r : Read α} (hr : Senses r)
    (herror : ∀ {i e j}, r.onInput i = (.error e, j) → j = i) {i j : Input} {e : DecodeError}
    (more : List UInt8) (h : r.onInput i = (.error e, j)) (he : ¬ e.Missing) :
    r.onInput (i.extend more) = (.error e, i.extend more) := by
  obtain rfl := herror h
  rcases hr.error more h with h | ⟨position, needed, rfl, -⟩
  · exact h
  · exact absurd ⟨position, needed, rfl⟩ he

/-- A read that never says that more than one byte is missing. -/
theorem missing_of_one {r : Read α} (herror : ∀ {i e j}, r.onInput i = (.error e, j) → j = i)
    (hone : ∀ {i position needed j}, r.onInput i = (.error (.unexpectedEnd position needed), j) →
      needed = 1) {i j : Input} {position needed : Nat} (more : List UInt8)
    (h : r.onInput i = (.error (.unexpectedEnd position needed), j))
    (hmore : more.length < needed) :
    ∃ e, e.Missing ∧ r.onInput (i.extend more) = (.error e, i.extend more) := by
  obtain rfl := hone h
  obtain rfl := herror h
  obtain rfl := List.length_eq_zero_iff.mp (Nat.lt_one_iff.mp hmore)
  rw [Input.extend_nil]
  exact ⟨_, ⟨_, _, rfl⟩, h⟩

theorem whole_map (f : α → β) {r : Read α} (hr : Whole r) : Whole (do return f (← r)) where
  ok := by
    intro i b j h
    rw [map_onInput] at h
    rcases hx : r.onInput i with ⟨e | a, j'⟩ <;> rw [hx] at h <;> cases h
    obtain ⟨taken, hrest, hpos, hreads⟩ := hr.ok hx
    exact ⟨taken, hrest, hpos, reads_map f hreads⟩
  error := by
    intro i e j h
    rw [map_onInput] at h
    rcases hx : r.onInput i with ⟨e | a, j'⟩ <;> rw [hx] at h <;> cases h
    exact hr.error hx
  final := by
    intro i e j more h he
    rw [map_onInput] at h ⊢
    rcases hx : r.onInput i with ⟨e | a, j'⟩ <;> rw [hx] at h <;> cases h
    rw [hr.final more hx he]
    rfl
  missing := by
    intro i position needed j more h hmore
    rw [map_onInput] at h ⊢
    rcases hx : r.onInput i with ⟨e | a, j'⟩ <;> rw [hx] at h <;> cases h
    obtain ⟨e, he, hrun⟩ := hr.missing more hx hmore
    rw [hrun]
    exact ⟨e, he, rfl⟩

/-! ### Bytes -/

theorem whole_bytes (len : Nat) : Whole (bytes len) where
  ok := by
    rintro ⟨position, rest⟩ text j h
    rw [bytes_onInput] at h
    split at h <;> cases h
    next hlen =>
    have hreads := reads_bytes (rest.take len)
    rw [List.length_take, Nat.min_eq_left hlen] at hreads
    exact ⟨rest.take len, by simp, by simp [Nat.min_eq_left hlen], hreads⟩
  error := by
    rintro ⟨position, rest⟩ e j h
    rw [bytes_onInput] at h
    split at h <;> cases h
    rfl
  final := by
    rintro ⟨position, rest⟩ e j more h he
    rw [bytes_onInput] at h
    split at h <;> cases h
    exact absurd ⟨_, _, rfl⟩ he
  missing := by
    rintro ⟨position, rest⟩ p needed j more h hmore
    rw [bytes_onInput] at h
    split at h <;> cases h
    have hshort : ¬ len ≤ (rest ++ more).length := by
      rw [List.length_append]
      omega
    refine ⟨.unexpectedEnd position (len - (rest ++ more).length), ⟨_, _, rfl⟩, ?_⟩
    rw [Input.extend, bytes_onInput, if_neg hshort]

theorem u8_error {i j : Input} {e : DecodeError} (h : u8.onInput i = (.error e, j)) :
    e = .unexpectedEnd i.position 1 ∧ j = i := by
  obtain ⟨position, _ | ⟨b, rest⟩⟩ := i <;> cases h
  exact ⟨rfl, rfl⟩

theorem whole_u8 : Whole u8 where
  ok := by
    rintro ⟨position, _ | ⟨b, rest⟩⟩ a j h <;> cases h
    exact ⟨[b], rfl, rfl, reads_u8 b⟩
  error h := (u8_error h).2
  final more h he := by
    obtain ⟨rfl, -⟩ := u8_error h
    exact absurd ⟨_, _, rfl⟩ he
  missing more h hmore :=
    missing_of_one (fun h => (u8_error h).2) (fun h => by cases (u8_error h).1; rfl) more h hmore

theorem bool_error {i j : Input} {e : DecodeError} (h : bool.onInput i = (.error e, j)) :
    (e = .unexpectedEnd i.position 1 ∨ ∃ b, e = .invalidBool i.position b) ∧ j = i := by
  obtain ⟨position, _ | ⟨b, rest⟩⟩ := i
  · cases h
    exact ⟨.inl rfl, rfl⟩
  · simp only [onInput, bool] at h
    split at h
    · cases h
    · split at h <;> cases h
      exact ⟨.inr ⟨b, rfl⟩, rfl⟩

theorem whole_bool : Whole bool where
  ok := by
    rintro ⟨position, _ | ⟨b, rest⟩⟩ a j h
    · cases h
    · simp only [onInput, bool] at h
      split at h
      · next hb =>
        cases h
        exact ⟨[b], rfl, rfl, hb ▸ reads_bool false⟩
      · split at h <;> cases h
        next hb => exact ⟨[b], rfl, rfl, hb ▸ reads_bool true⟩
  error h := (bool_error h).2
  final := senses_bool.final fun h => (bool_error h).2
  missing more h hmore := by
    refine missing_of_one (fun h => (bool_error h).2) (fun h => ?_) more h hmore
    rcases (bool_error h).1 with he | ⟨b, he⟩ <;> cases he
    rfl

/-! ### Variable-length numbers -/

theorem varint_error {bits : Nat} {i j : Input} {e : DecodeError}
    (h : (varint bits).onInput i = (.error e, j)) :
    ((∃ used, Varint.decode bits i.rest = .truncated used ∧
        e = .unexpectedEnd (i.position + used) 1) ∨
      Varint.decode bits i.rest = .overlong ∧ e = .malformedVarint i.position) ∧ j = i := by
  simp only [onInput, varint] at h
  split at h <;> cases h
  · next used hd => exact ⟨.inl ⟨used, hd, rfl⟩, rfl⟩
  · next hd => exact ⟨.inr ⟨hd, rfl⟩, rfl⟩

theorem whole_varint {groups bits : Nat} (hbits : 7 ≤ bits) (hgroups : groups = (bits + 6) / 7) :
    Whole (varint bits) where
  ok h := (takesExactly_varint hbits hgroups).ok h
  error h := (varint_error h).2
  final := (senses_varint bits).final fun h => (varint_error h).2
  missing more h hmore := by
    refine missing_of_one (fun h => (varint_error h).2) (fun h => ?_) more h hmore
    rcases (varint_error h).1 with ⟨_, -, he⟩ | ⟨-, he⟩ <;> cases he
    rfl

theorem whole_varU32 : Whole varU32 := whole_varint (by omega) rfl

theorem whole_varU64 : Whole varU64 := whole_varint (by omega) rfl

/-! ### Texts -/

/-- How reading a text fails: at its length, behind it, or because the bytes are no text. -/
theorem string_error {i j : Input} {e : DecodeError} (h : string.onInput i = (.error e, j)) :
    (varU64.onInput i = (.error e, i) ∨ ∃ len i₁, varU64.onInput i = (.ok len, i₁) ∧
      ((bytes len).onInput i₁ = (.error e, i₁) ∨ e = .invalidUtf8 i₁.position)) ∧ j = i := by
  rw [string_onInput] at h
  rcases hlen : varU64.onInput i with ⟨e | len, i₁⟩ <;> simp only [hlen] at h
  · cases h
    obtain rfl := whole_varU64.error hlen
    exact ⟨.inl rfl, rfl⟩
  · rcases htext : (bytes len).onInput i₁ with ⟨e | text, i₂⟩ <;> simp only [htext] at h
    · cases h
      obtain rfl := (whole_bytes len).error htext
      exact ⟨.inr ⟨len, i₂, rfl, .inl htext⟩, rfl⟩
    · split at h <;> cases h
      exact ⟨.inr ⟨len, i₁, rfl, .inr rfl⟩, rfl⟩

theorem whole_string : Whole string where
  ok := by
    intro i s j h
    rw [string_onInput] at h
    rcases hlen : varU64.onInput i with ⟨e | len, i₁⟩ <;> simp only [hlen] at h
    · cases h
    · rcases htext : (bytes len).onInput i₁ with ⟨e | text, i₂⟩ <;> simp only [htext] at h
      · cases h
      · split at h <;> cases h
        next hs =>
        obtain ⟨taken₁, hrest₁, hpos₁, hreads₁⟩ := whole_varU64.ok hlen
        obtain ⟨taken₂, hrest₂, hpos₂, hreads₂⟩ := (whole_bytes len).ok htext
        refine ⟨taken₁ ++ taken₂, ?_, ?_, reads_string_of hreads₁ hreads₂ hs⟩
        · rw [hrest₁, hrest₂, List.append_assoc]
        · rw [hpos₂, hpos₁, List.length_append, Nat.add_assoc]
  error h := (string_error h).2
  final := senses_string.final fun h => (string_error h).2
  missing := by
    intro i position needed j more h hmore
    obtain ⟨hlen | ⟨len, i₁, hlen, htext | he⟩, -⟩ := string_error h
    · obtain ⟨e, he, hrun⟩ := whole_varU64.missing more hlen hmore
      rw [string_onInput, hrun]
      exact ⟨e, he, rfl⟩
    · -- the length is read again, and there are still too few bytes behind it
      obtain ⟨e, he, hrun⟩ := (whole_bytes len).missing more htext hmore
      have hlen : varU64.onInput (i.extend more) = (.ok len, i₁.extend more) :=
        (senses_varint 64).ok more hlen
      rw [string_onInput, hlen]
      simp only [hrun]
      exact ⟨e, he, rfl⟩
    · cases he

/-! ### Items -/

/-- **Reading an item takes its bytes or nothing.** -/
theorem whole_item (k : Item.Kind) : Whole (item k) := by
  cases k with
  | u8 => exact whole_map _ whole_u8
  | bytes len => exact whole_map _ (whole_bytes len)
  | bool => exact whole_map _ whole_bool
  | i32 => exact whole_map _ (whole_map _ (whole_map _ (whole_bytes 4)))
  | i64 => exact whole_map _ (whole_map _ (whole_map _ (whole_bytes 8)))
  | f32 => exact whole_map _ (whole_map _ (whole_bytes 4))
  | f64 => exact whole_map _ (whole_map _ (whole_bytes 8))
  | varU32 => exact whole_map _ whole_varU32
  | varU64 => exact whole_map _ whole_varU64
  | varI32 positive => exact whole_map _ (whole_map _ whole_varU32)
  | varI64 positive => exact whole_map _ (whole_map _ whole_varU64)
  | str => exact whole_map _ whole_string

end Read

end GraphCodec
