import GraphCodec.Proofs.Atomicity
import GraphCodec.Proofs.Words

/-!
# Bytes — positions in machine words

An `Input` counts the bytes that were taken with a number.  A `Cursor` stands in a fixed string of
bytes and counts with a word of 64 bits, and each step on it calculates with words.  There is no
answer where a sum or a difference does not fit a word, or where a place outside the bytes is asked
for; and this never happens to a cursor inside its bytes (`Cursor.Tracks`).

* `Cursor.tracks_item`: the step for each kind of item does what the read for it does.
* `Cursor.run_inside`: a cursor that starts at the first byte stays inside the bytes.
* `items_all_or_nothing`: what is read, and what is left alone, by all of this.
-/

namespace GraphCodec

/-- A place in some bytes. -/
structure Cursor where
  bytes : List UInt8
  position : UInt64

/-- A number of bytes that is asked for fits a word. -/
def Item.Kind.Addressable : Item.Kind → Prop
  | .bytes len => len < 2 ^ 64
  | _ => True

instance : DecidablePred Item.Kind.Addressable
  | .bytes len => inferInstanceAs (Decidable (len < 2 ^ 64))
  | .u8 | .bool | .i32 | .i64 | .f32 | .f64 | .varU32 | .varU64 | .varI32 _ | .varI64 _ | .str =>
    .isTrue trivial

namespace Cursor

/-! ### Steps -/

/-- The sum of two words, unless it is too large for a word. -/
def add? (a b : UInt64) : Option UInt64 := if a.toNat + b.toNat < 2 ^ 64 then some (a + b) else none

/-- The difference of two words, unless it is negative. -/
def sub? (a b : UInt64) : Option UInt64 := if b.toNat ≤ a.toNat then some (a - b) else none

theorem add?_of_lt {a b : UInt64} (h : a.toNat + b.toNat < 2 ^ 64) :
    ∃ s, add? a b = some s ∧ s.toNat = a.toNat + b.toNat :=
  ⟨a + b, if_pos h, by rw [UInt64.toNat_add]; exact Nat.mod_eq_of_lt h⟩

theorem toNat_of_add? {a b s : UInt64} (h : add? a b = some s) : s.toNat = a.toNat + b.toNat := by
  by_cases hlt : a.toNat + b.toNat < 2 ^ 64
  · obtain ⟨s', hs', hsum⟩ := add?_of_lt hlt
    rwa [Option.some.inj (h.symm.trans hs')]
  · rw [add?, if_neg hlt] at h
    cases h

theorem sub?_of_le {a b : UInt64} (h : b.toNat ≤ a.toNat) :
    ∃ s, sub? a b = some s ∧ s.toNat = a.toNat - b.toNat :=
  ⟨a - b, if_pos h, UInt64.toNat_sub_of_le _ _ (UInt64.le_iff_toNat_le.mpr h)⟩

/-- The bytes from one place to another, unless these places are out of order or outside. -/
def slice? (bytes : List UInt8) (first last : UInt64) : Option (List UInt8) :=
  if first.toNat ≤ last.toNat ∧ last.toNat ≤ bytes.length then
    some ((bytes.take last.toNat).drop first.toNat)
  else none

/-- A step on a cursor, if all that it calculates fits a word. -/
abbrev Step (α : Type) := Cursor → Option (Except DecodeError α × Cursor)

variable {α β : Type}

def map (f : α → β) (m : Step α) : Step β := fun c => do
  let (x, d) ← m c
  return (x.map f, d)

/-- The next `len` bytes. -/
def take (len : UInt64) : Step (List UInt8) := fun c => do
  let remaining ← sub? c.bytes.length.toUInt64 c.position
  if remaining.toNat < len.toNat then
    let needed ← sub? len remaining
    return (.error (.unexpectedEnd c.position.toNat needed.toNat), c)
  else
    let last ← add? c.position len
    let taken ← slice? c.bytes c.position last
    return (.ok taken, { c with position := last })

/-- The next byte. -/
def u8 : Step UInt8 := fun c => do
  let (x, d) ← take 1 c
  match x with
  | .error e => return (.error e, d)
  | .ok taken =>
    let b ← taken[0]?
    return (.ok b, d)

/-- A byte that is 0 or 1. -/
def bool : Step Bool := fun c =>
  match c.bytes[c.position.toNat]? with
  | none => some (.error (.unexpectedEnd c.position.toNat 1), c)
  | some b =>
    if b = 0 then do
      let next ← add? c.position 1
      return (.ok false, { c with position := next })
    else if b = 1 then do
      let next ← add? c.position 1
      return (.ok true, { c with position := next })
    else some (.error (.invalidBool c.position.toNat b), c)

/-- Joins the groups from a place on to `acc`, the next one at bit `shift`. -/
def joinFrom (c : Cursor) (bits shift acc place : UInt64) :
    Option (Except DecodeError Nat × Cursor) :=
  match _hb : c.bytes[place.toNat]? with
  | none => some (.error (.unexpectedEnd place.toNat 1), c)
  | some b =>
    match _hnext : add? place 1 with
    | none => none
    | some next =>
      let data := (b &&& 0x7F).toUInt64
      if bits ≤ shift ∨ 0 < shift ∧ data >>> (bits - shift) ≠ 0 then
        some (.error (.malformedVarint c.position.toNat), c)
      else if b &&& 0x80 = 0 then
        some (.ok (acc ||| data <<< shift).toNat, { c with position := next })
      else joinFrom c bits (shift + 7) (acc ||| data <<< shift) next
termination_by c.bytes.length - place.toNat
decreasing_by
  have hlt := (List.getElem?_eq_some_iff.mp _hb).1
  have hadd : next.toNat = place.toNat + 1 := toNat_of_add? _hnext
  omega

/-- A variable-length number of at most `bits` bits. -/
def varint (bits : UInt64) : Step Nat := fun c => joinFrom c bits 0 0 c.position

/-- A count of bytes and that many bytes of UTF-8. -/
def string : Step String := fun c => do
  let (x, d) ← varint 64 c
  match x with
  | .error e => return (.error e, d)
  | .ok len =>
    let (y, d) ← take len.toUInt64 d
    match y with
    | .error e => return (.error e, { d with position := c.position })
    | .ok text =>
      match Read.utf8? text with
      | some s => return (.ok s, d)
      | none =>
        let position ← sub? d.position text.length.toUInt64
        return (.error (.invalidUtf8 position.toNat), { d with position := c.position })

def word32 : Step UInt32 := map (fun bs => (Read.bigEndian bs).toUInt32) (take 4)

def word64 : Step UInt64 := map (fun bs => (Read.bigEndian bs).toUInt64) (take 8)

/-- An item of the given kind. -/
def item : Item.Kind → Step Item
  | .u8 => map .u8 u8
  | .bytes len => map .bytes (take len.toUInt64)
  | .bool => map .bool bool
  | .i32 => map .i32 (map UInt32.toInt32 word32)
  | .i64 => map .i64 (map UInt64.toInt64 word64)
  | .f32 => map .f32 word32
  | .f64 => map .f64 word64
  | .varU32 => map (fun n => .varU32 n.toUInt32) (varint 32)
  | .varU64 => map (fun n => .varU64 n.toUInt64) (varint 64)
  | .varI32 positive => map (.varI32 · positive) (map (fun n =>
    if positive then n.toUInt32.toInt32 else Int32.ofInt (Varint.unzigzag n)) (varint 32))
  | .varI64 positive => map (.varI64 · positive) (map (fun n =>
    if positive then n.toUInt64.toInt64 else Int64.ofInt (Varint.unzigzag n)) (varint 64))
  | .str => map .str string

/-- Reads an item of each kind, one after the other, also behind one that cannot be read. -/
def run : List Item.Kind → Cursor → Option (List (Except DecodeError Item) × Cursor)
  | [], c => some ([], c)
  | k :: kinds, c => do
    let (x, d) ← item k c
    let (xs, e) ← run kinds d
    return (x :: xs, e)

/-! ### Cursors and inputs -/

/-- The bytes are no more than words can count, and the position is not behind them. -/
structure Inside (c : Cursor) : Prop where
  size : c.bytes.length < 2 ^ 64
  position : c.position.toNat ≤ c.bytes.length

/-- What is left behind the position. -/
def input (c : Cursor) : Input := .seek c.bytes c.position.toNat

/-- The cursor with another position. -/
def seek (c : Cursor) (position : Nat) : Cursor := { c with position := position.toUInt64 }

/-- On a cursor inside its bytes all that the step calculates fits a word; the step gives what the
read gives, and the cursor then stands, inside the same bytes, in front of what the read leaves. -/
def Tracks (m : Step α) (r : Read α) : Prop :=
  ∀ c : Cursor, c.Inside → ∃ d : Cursor, m c = some ((r.onInput c.input).1, d) ∧
    d.input = (r.onInput c.input).2 ∧ d.bytes = c.bytes ∧ d.Inside

theorem toNat_toUInt64 {n : Nat} (h : n < 2 ^ 64) : n.toUInt64.toNat = n :=
  (UInt64.toNat_ofNat' (n := n)).trans (Nat.mod_eq_of_lt h)

theorem seek_toNat (c : Cursor) {word : UInt64} {n : Nat} (h : word.toNat = n) :
    { c with position := word } = c.seek n := by
  subst h
  rw [seek, show word.toNat.toUInt64 = word from UInt64.ofNat_toNat]

theorem seek_self (c : Cursor) : c.seek c.position.toNat = c := (seek_toNat c rfl).symm

/-- What a read leaves is left behind another position of the cursor. -/
theorem input_seek {c : Cursor} (hc : c.Inside) {j : Input} (hj : c.input.Leaves j) :
    (c.seek j.position).input = j ∧ (c.seek j.position).Inside := by
  obtain ⟨taken, hrest, hpos⟩ := hj
  have hsize : c.bytes.length - c.position.toNat = taken.length + j.rest.length := by
    rw [← List.length_append, ← hrest]
    exact List.length_drop.symm
  have hle := hc.position
  have hpos' : j.position = c.position.toNat + taken.length := hpos
  have hword : j.position.toUInt64.toNat = j.position :=
    toNat_toUInt64 (by have := hc.size; omega)
  have hdrop : c.bytes.drop j.position = j.rest := by
    rw [hpos', ← List.drop_drop]
    exact (congrArg _ hrest).trans List.drop_left
  refine ⟨?_, hc.size, ?_⟩
  · show Input.seek c.bytes j.position.toUInt64.toNat = j
    rw [hword, Input.seek, hdrop]
  · show j.position.toUInt64.toNat ≤ c.bytes.length
    rw [hword]
    omega

/-- Where a read goes forward, only its result and its position matter. -/
theorem tracks_of_eq {m : Step α} {r : Read α} (hr : r.Advances) (h : ∀ c : Cursor, c.Inside →
    m c = some ((r.onInput c.input).1, c.seek (r.onInput c.input).2.position)) : Tracks m r := by
  intro c hc
  obtain ⟨hinput, hinside⟩ := input_seek hc (hr c.input)
  exact ⟨_, h c hc, hinput, rfl, hinside⟩

theorem tracks_map (f : α → β) {m : Step α} {r : Read α} (h : Tracks m r) :
    Tracks (map f m) (do return f (← r)) := by
  intro c hc
  obtain ⟨d, hrun, hinput, hd⟩ := h c hc
  refine ⟨d, ?_, ?_, hd⟩
  · simp only [map, hrun, Read.map_onInput]
    rfl
  · rw [Read.map_onInput, hinput]

/-! ### What the steps do -/

theorem getElem?_position (c : Cursor) : c.bytes[c.position.toNat]? = c.input.rest.head? :=
  List.head?_drop.symm

theorem tracks_take {len : UInt64} {n : Nat} (hn : len.toNat = n) :
    Tracks (take len) (Read.bytes n) := by
  subst hn
  refine tracks_of_eq (Read.advances_bytes _) fun c hc => ?_
  have hsize := toNat_toUInt64 hc.size
  obtain ⟨remaining, hremaining, hleft⟩ :=
    sub?_of_le (a := c.bytes.length.toUInt64) (b := c.position) (by rw [hsize]; exact hc.position)
  rw [hsize] at hleft
  have hlength : c.input.rest.length = remaining.toNat := by rw [hleft]; exact List.length_drop
  simp only [take, hremaining, Option.bind_eq_bind, Option.bind_some]
  rw [show c.input = ⟨c.position.toNat, c.input.rest⟩ from rfl, Read.bytes_onInput, hlength]
  by_cases hlen : len.toNat ≤ remaining.toNat
  · have hle := hc.position
    obtain ⟨last, hlast, hsum⟩ := add?_of_lt (a := c.position) (b := len)
      (by have := hc.size; omega)
    have hslice : slice? c.bytes c.position last = some (c.input.rest.take len.toNat) := by
      rw [slice?, if_pos (by omega), List.drop_take, hsum, Nat.add_sub_cancel_left]
      rfl
    rw [if_neg (Nat.not_lt.mpr hlen), if_pos hlen, hlast]
    simp only [Option.bind_some, hslice, Option.pure_def, seek_toNat c hsum]
  · obtain ⟨needed, hneeded, hdiff⟩ := sub?_of_le (a := len) (b := remaining) (by omega)
    rw [if_pos (Nat.not_le.mp hlen), if_neg hlen, hneeded]
    simp only [Option.bind_some, Option.pure_def, hdiff, seek_self]

theorem tracks_u8 : Tracks u8 Read.u8 := by
  intro c hc
  have htake : Tracks (take 1) (Read.bytes 1) := tracks_take rfl
  obtain ⟨d, hrun, hinput, hd⟩ := htake c hc
  refine ⟨d, ?_, ?_, hd⟩ <;>
    rw [show c.input = ⟨c.position.toNat, c.input.rest⟩ from rfl] at hrun hinput ⊢ <;>
    rw [Read.bytes_onInput] at hrun hinput <;> cases hrest : c.input.rest <;>
    rw [hrest] at hrun hinput
  · simp only [u8, hrun]
    rfl
  · simp only [u8, hrun]
    rfl
  · exact hinput
  · exact hinput

/-- A byte is taken, where there is one. -/
theorem exists_add?_one {c : Cursor} (hc : c.Inside) {place : UInt64} {b : UInt8}
    (hb : c.bytes[place.toNat]? = some b) :
    ∃ next, add? place 1 = some next ∧ next.toNat = place.toNat + 1 := by
  have hlt := (List.getElem?_eq_some_iff.mp hb).1
  refine add?_of_lt ?_
  have := hc.size
  have : (1 : UInt64).toNat = 1 := rfl
  omega

theorem tracks_bool : Tracks bool Read.bool := by
  refine tracks_of_eq Read.advances_bool fun c hc => ?_
  rw [show c.input = ⟨c.position.toNat, c.input.rest⟩ from rfl]
  have hbyte := getElem?_position c
  cases hrest : c.input.rest with
  | nil =>
      rw [hrest] at hbyte
      simp only [bool, hbyte, List.head?_nil]
      exact congrArg _ (congrArg _ (seek_self c).symm)
  | cons b rest =>
      rw [hrest] at hbyte
      obtain ⟨next, hnext, hsum⟩ := exists_add?_one hc hbyte
      simp only [bool, hbyte, List.head?_cons, hnext, Read.onInput, Read.bool]
      split
      · exact congrArg _ (congrArg _ (seek_toNat c hsum))
      · split
        · exact congrArg _ (congrArg _ (seek_toNat c hsum))
        · exact congrArg _ (congrArg _ (seek_self c).symm)

/-- By induction on the groups: the place is where the groups that are left begin. -/
theorem joinFrom_eq {c : Cursor} (hc : c.Inside) {bits shift acc place : UInt64} {used : Nat}
    (hplace : place.toNat = c.position.toNat + used) :
    joinFrom c bits shift acc place =
      some (match Words.read bits shift acc used (c.bytes.drop place.toNat) with
        | .value n used _ => (.ok n, c.seek (c.position.toNat + used))
        | .truncated used => (.error (.unexpectedEnd (c.position.toNat + used) 1), c)
        | .overlong => (.error (.malformedVarint c.position.toNat), c)) := by
  fun_induction joinFrom c bits shift acc place generalizing used with
  | case1 shift acc place hb =>
      rw [List.drop_eq_nil_iff.mpr (List.getElem?_eq_none_iff.mp hb), Words.read, hplace]
  | case2 shift acc place b hb hnone =>
      obtain ⟨next, hnext, -⟩ := exists_add?_one hc hb
      cases hnone.symm.trans hnext
  | case3 shift acc place b hb next hnext data =>
      rename_i hover
      obtain ⟨hlt, rfl⟩ := List.getElem?_eq_some_iff.mp hb
      rw [List.drop_eq_getElem_cons hlt, Words.read, if_pos hover]
  | case4 shift acc place b hb next hnext data hover =>
      rename_i hlast
      obtain ⟨hlt, rfl⟩ := List.getElem?_eq_some_iff.mp hb
      have hsum : next.toNat = c.position.toNat + (used + 1) := by
        rw [toNat_of_add? hnext, hplace, Nat.add_assoc]
        rfl
      rw [List.drop_eq_getElem_cons hlt, Words.read, if_neg hover, if_pos hlast, seek_toNat c hsum]
  | case5 shift acc place b hb next hnext data hover hlast =>
      rename_i ih
      obtain ⟨hlt, rfl⟩ := List.getElem?_eq_some_iff.mp hb
      have hsum : next.toNat = place.toNat + 1 := toNat_of_add? hnext
      have hnext : next.toNat = c.position.toNat + (used + 1) := by
        rw [hsum, hplace, Nat.add_assoc]
      rw [ih hnext, hsum, List.drop_eq_getElem_cons hlt, Words.read, if_neg hover, if_neg hlast]

theorem tracks_varint {bits : UInt64} {n : Nat} (hn : bits.toNat = n) (h7 : 7 ≤ n) (h64 : n ≤ 64) :
    Tracks (varint bits) (Read.varint n) := by
  subst hn
  refine tracks_of_eq (Read.advances_varint _) fun c hc => ?_
  have hdecode : Words.read bits 0 0 0 c.input.rest = Varint.decode bits.toNat c.input.rest :=
    Words.read_eq_decodeFrom h7 h64 _ (Nat.add_pos_left (by omega) 7) fun _ => Nat.one_pos
  have hplace : c.position.toNat = c.position.toNat + 0 := rfl
  rw [varint, joinFrom_eq hc hplace,
    show c.bytes.drop c.position.toNat = c.input.rest from rfl, hdecode]
  simp only [Read.onInput, Read.varint]
  cases Varint.decode bits.toNat c.input.rest with
  | value n used rest => rfl
  | truncated used => exact congrArg _ (congrArg _ (seek_self c).symm)
  | overlong => exact congrArg _ (congrArg _ (seek_self c).symm)

theorem tracks_varU32 : Tracks (varint 32) Read.varU32 := tracks_varint rfl (by omega) (by omega)

theorem tracks_varU64 : Tracks (varint 64) Read.varU64 := tracks_varint rfl (by omega) (by omega)

/-- Taking bytes moves the position by their number. -/
theorem bytes_eq_ok {len : Nat} {i j : Input} {text : List UInt8}
    (h : (Read.bytes len).onInput i = (.ok text, j)) :
    text.length = len ∧ j.position = i.position + len := by
  obtain ⟨position, rest⟩ := i
  rw [Read.bytes_onInput] at h
  split at h <;> cases h
  next hlen => exact ⟨List.length_take_of_le hlen, rfl⟩

theorem tracks_string : Tracks string Read.string := by
  intro c hc
  obtain ⟨d, hrun, hinput, hbytes, hd⟩ := tracks_varU64 c hc
  rw [Read.string_onInput]
  simp only [string, hrun, Option.bind_eq_bind, Option.bind_some]
  rcases hlen : Read.varU64.onInput c.input with ⟨e | len, i₁⟩ <;> rw [hlen] at hinput
  · exact ⟨d, rfl, hinput, hbytes, hd⟩
  · obtain rfl : d.input = i₁ := hinput
    obtain ⟨_, hform, -⟩ := (Read.takesExactly_varU64 _ _ _).mp hlen
    obtain ⟨d', hrun', hinput', hbytes', hd'⟩ := tracks_take (toNat_toUInt64 hform.lt) d hd
    have hback : { d' with position := c.position } = c := by
      rw [hbytes'.trans hbytes]
    simp only [hrun', hback, Option.bind_some]
    rcases htext : (Read.bytes len).onInput d.input with ⟨e | text, i₂⟩ <;> rw [htext] at hinput'
    · exact ⟨c, rfl, rfl, rfl, hc⟩
    · simp only
      cases Read.utf8? text with
      | some s => exact ⟨d', rfl, hinput', hbytes'.trans hbytes, hd'⟩
      | none =>
          -- the bytes of the text end at the position, so that their number can be taken off it
          obtain ⟨hlength, hpos⟩ := bytes_eq_ok htext
          have hpos : d'.position.toNat = d.position.toNat + len :=
            (congrArg Input.position hinput').trans hpos
          have hword : text.length.toUInt64.toNat = len :=
            toNat_toUInt64 (hlength ▸ hform.lt) |>.trans hlength
          obtain ⟨first, hfirst, hdiff⟩ := sub?_of_le
            (a := d'.position) (b := text.length.toUInt64) (by omega)
          have hdiff : first.toNat = d.input.position := by
            rw [hdiff, hpos, hword, Nat.add_sub_cancel]
            rfl
          rw [hfirst]
          exact ⟨c, by rw [← hdiff]; rfl, rfl, rfl, hc⟩

theorem tracks_word32 : Tracks word32 Read.word32 := tracks_map _ (tracks_take rfl)

theorem tracks_word64 : Tracks word64 Read.word64 := tracks_map _ (tracks_take rfl)

theorem tracks_item {k : Item.Kind} (hk : k.Addressable) : Tracks (item k) (Read.item k) := by
  cases k with
  | u8 => exact tracks_map _ tracks_u8
  | bytes len => exact tracks_map _ (tracks_take (toNat_toUInt64 hk))
  | bool => exact tracks_map _ tracks_bool
  | i32 => exact tracks_map _ (tracks_map _ tracks_word32)
  | i64 => exact tracks_map _ (tracks_map _ tracks_word64)
  | f32 => exact tracks_map _ tracks_word32
  | f64 => exact tracks_map _ tracks_word64
  | varU32 => exact tracks_map _ tracks_varU32
  | varU64 => exact tracks_map _ tracks_varU64
  | varI32 positive => exact tracks_map _ (tracks_map _ tracks_varU32)
  | varI64 positive => exact tracks_map _ (tracks_map _ tracks_varU64)
  | str => exact tracks_map _ tracks_string

/-- By induction on the kinds: each step begins and ends inside the bytes. -/
theorem run_inside {kinds : List Item.Kind} (hkinds : ∀ k ∈ kinds, k.Addressable) :
    ∀ {c : Cursor}, c.Inside →
      ∃ results d, run kinds c = some (results, d) ∧ d.bytes = c.bytes ∧ d.Inside := by
  induction kinds with
  | nil => exact fun {c} hc => ⟨[], c, rfl, rfl, hc⟩
  | cons k kinds ih =>
      intro c hc
      obtain ⟨hk, hkinds⟩ := List.forall_mem_cons.mp hkinds
      obtain ⟨d, hrun, -, hbytes, hd⟩ := tracks_item hk c hc
      obtain ⟨results, e, hrest, hbytes', he⟩ := ih hkinds hd
      refine ⟨((Read.item k).onInput c.input).1 :: results, e, ?_, hbytes'.trans hbytes, he⟩
      simp only [run, hrun, hrest, Option.bind_eq_bind, Option.bind_some]
      rfl

end Cursor

/-- **A read takes a value or nothing, and never leaves the bytes.**  A cursor that starts at the
first byte can read items of any kinds, one after the other, also behind items that cannot be read:
it stays inside the bytes, and all that is calculated fits its words.  From any place the step for
an item does what the read for it does, and this read takes the bytes of the item or nothing. -/
theorem items_all_or_nothing (bytes : List UInt8) (hbytes : bytes.length < 2 ^ 64)
    (kinds : List Item.Kind) (hkinds : ∀ k ∈ kinds, k.Addressable) :
    (∃ results d, Cursor.run kinds ⟨bytes, 0⟩ = some (results, d) ∧ d.bytes = bytes ∧ d.Inside) ∧
      ∀ k ∈ kinds, Cursor.Tracks (Cursor.item k) (Read.item k) ∧ Read.Whole (Read.item k) :=
  ⟨Cursor.run_inside hkinds ⟨hbytes, Nat.zero_le _⟩,
    fun k hk => ⟨Cursor.tracks_item (hkinds k hk), Read.whole_item k⟩⟩

/-- A text of which only two of three bytes are there, behind a request for as many bytes as a word
can count. -/
theorem items_all_or_nothing_cut :
    let bytes : List UInt8 := [3, 0x61, 0x62]
    let kinds : List Item.Kind := [.bytes (2 ^ 64 - 1), .str]
    bytes.length < 2 ^ 64 ∧ (∀ k ∈ kinds, k.Addressable) ∧
      (∃ results d, Cursor.run kinds ⟨bytes, 0⟩ = some (results, d) ∧ d.bytes = bytes ∧ d.Inside) ∧
      ∃ d, Cursor.item .str ⟨bytes, 0⟩ = some (.error (.unexpectedEnd 1 1), d) ∧
        d.input = ⟨0, bytes⟩ := by
  intro bytes kinds
  have hbytes : bytes.length < 2 ^ 64 := by decide
  have hkinds : ∀ k ∈ kinds, k.Addressable := by decide
  obtain ⟨hrun, hitems⟩ := items_all_or_nothing bytes hbytes kinds hkinds
  have hread : (Read.item .str).onInput ⟨0, bytes⟩ =
    (.error (.unexpectedEnd 1 1), ⟨0, bytes⟩) := rfl
  obtain ⟨d, hstep, hinput, -, -⟩ :=
    (hitems .str (by simp [kinds])).1 ⟨bytes, 0⟩ ⟨hbytes, Nat.zero_le _⟩
  refine ⟨hbytes, hkinds, hrun, d, hstep.trans ?_, hinput.trans ?_⟩
  · rw [show Cursor.input ⟨bytes, 0⟩ = ⟨0, bytes⟩ from rfl, hread]
  · rw [show Cursor.input ⟨bytes, 0⟩ = ⟨0, bytes⟩ from rfl, hread]

end GraphCodec
