import GraphCodec.Bytes.Item
import GraphCodec.Proofs.Items

/-!
# Bytes — streams of items

Items that were written one after the other, behind anything and in front of anything, are read back
in the same order (`stream_reads_back`).  Every read stops where its write did, so that it does not
matter what the neighbours of an item are.
-/

namespace GraphCodec

/-- The input that stands at a position of some bytes. -/
def Input.seek (bytes : List UInt8) (position : Nat) : Input := ⟨position, bytes.drop position⟩

/-- Whether an item has a form that can be read: a string is no longer than its length can say. -/
def Item.Sized : Item → Prop
  | .str s => s.utf8ByteSize < 2 ^ 64
  | _ => True

instance : DecidablePred Item.Sized
  | .str s => inferInstanceAs (Decidable (s.utf8ByteSize < 2 ^ 64))
  | .u8 _ | .bytes _ | .bool _ | .i32 _ | .i64 _ | .f32 _ | .f64 _ | .varU32 _ | .varU64 _
  | .varI32 _ _ | .varI64 _ _ => .isTrue trivial

/-- The forms of items, one behind the other. -/
def Item.encodeAll (items : List Item) : List UInt8 := items.flatMap Item.encode

namespace Output

/-- Adds the forms of items at the end, one after the other. -/
def writeAll (out : Output) (items : List Item) : Output := items.foldl write out

theorem toList_writeAll (out : Output) (items : List Item) :
    (out.writeAll items).bytes.toList = out.bytes.toList ++ Item.encodeAll items := by
  induction items generalizing out with
  | nil => exact (List.append_nil _).symm
  | cons x items ih =>
      have hcons : Item.encodeAll (x :: items) = x.encode ++ Item.encodeAll items :=
        List.flatMap_cons
      show ((out.write x).writeAll items).bytes.toList = _
      rw [ih, toList_write, hcons, List.append_assoc]

theorem position_writeAll (out : Output) (items : List Item) :
    (out.writeAll items).position = out.position + (Item.encodeAll items).length := by
  rw [position, ← Array.length_toList, toList_writeAll, List.length_append, Array.length_toList]
  rfl

end Output

namespace Read

/-- Reads one item of each kind. -/
def items : List Item.Kind → Read (List Item)
  | [] => return []
  | k :: kinds => do
    let x ← item k
    return x :: (← items kinds)

theorem reads_u8 (b : UInt8) : Reads u8 [b] b := fun _ _ => rfl

/-- **An item is read back by the read for its kind.** -/
theorem reads_item (x : Item) (hx : x.Sized) : Reads (item x.kind) x.encode x := by
  cases x with
  | u8 b => exact reads_map Item.u8 (reads_u8 b)
  | bytes bs => exact reads_map Item.bytes (reads_bytes bs)
  | bool b => exact reads_map Item.bool (reads_bool b)
  | i32 v => exact reads_map Item.i32 (reads_i32 v)
  | i64 v => exact reads_map Item.i64 (reads_i64 v)
  | f32 bits => exact reads_map Item.f32 (reads_word32 bits)
  | f64 bits => exact reads_map Item.f64 (reads_word64 bits)
  | varU32 n =>
      have h := reads_map (fun m => Item.varU32 m.toUInt32) (reads_varU32 n.toNat_lt)
      rwa [show n.toNat.toUInt32 = n from UInt32.ofNat_toNat] at h
  | varU64 n =>
      have h := reads_map (fun m => Item.varU64 m.toUInt64) (reads_varU64 n.toNat_lt)
      rwa [show n.toNat.toUInt64 = n from UInt64.ofNat_toNat] at h
  | varI32 v positive => exact reads_map (Item.varI32 · positive) (reads_varI32 v positive)
  | varI64 v positive => exact reads_map (Item.varI64 · positive) (reads_varI64 v positive)
  | str s => exact reads_map Item.str (reads_string hx)

/-- By induction on the items: each read leaves the forms of the items behind it. -/
theorem reads_items {xs : List Item} (hxs : ∀ x ∈ xs, x.Sized) :
    Reads (items (xs.map Item.kind)) (Item.encodeAll xs) xs := by
  induction xs with
  | nil => exact reads_pure []
  | cons x xs ih =>
      obtain ⟨hx, hxs⟩ := List.forall_mem_cons.mp hxs
      exact reads_bind (reads_item x hx) (reads_map (x :: ·) (ih hxs))

/-- What reads some bytes takes them off wherever they stand. -/
theorem Reads.seek {α : Type} {r : Read α} {bytes whole : List UInt8} {a : α} (h : Reads r bytes a)
    (before after : List UInt8) (hwhole : whole = before ++ bytes ++ after) {p q : Nat}
    (hp : p = before.length) (hq : q = (before ++ bytes).length) :
    r.onInput (.seek whole p) = (.ok a, .seek whole q) := by
  subst hwhole hp hq
  rw [Input.seek, Input.seek, List.drop_left, List.append_assoc, List.drop_left, List.length_append]
  exact h before.length after

end Read

variable (out : Output) (items : List Item) (suffix : List UInt8)

/-- **What was written is read back, item for item.**  The bytes are what the output held before,
the forms of the items, and anything behind them.  From the position at which the items begin,
reading one item of each kind gives the items; each read of the way begins where the write of the
items in front of it ended, and ends where the write of its own item ended; and the last one leaves
what is behind the items. -/
theorem stream_reads_back (hsized : ∀ x ∈ items, x.Sized) :
    let bytes := (out.writeAll items).bytes.toList ++ suffix
    (Read.bytes out.position).onInput (.ofBytes bytes) =
      (.ok out.bytes.toList, .seek bytes out.position) ∧
    (Read.items (items.map Item.kind)).onInput (.seek bytes out.position) =
      (.ok items, .seek bytes (out.writeAll items).position) ∧
    (∀ before x after, items = before ++ x :: after →
      (Read.item x.kind).onInput (.seek bytes (out.writeAll before).position) =
        (.ok x, .seek bytes (out.writeAll (before ++ [x])).position)) ∧
    (Input.seek bytes (out.writeAll items).position).rest = suffix := by
  have hout : out.position = out.bytes.toList.length := Array.length_toList.symm
  simp only [out.toList_writeAll, out.position_writeAll, hout]
  refine ⟨?_, ?_, ?_, ?_⟩
  · exact (Read.reads_bytes out.bytes.toList).seek []
      (Item.encodeAll items ++ suffix) (by simp) rfl rfl
  · exact (Read.reads_items hsized).seek _ _ rfl rfl List.length_append.symm
  · rintro before x after rfl
    have hx := hsized x (List.mem_append_right _ List.mem_cons_self)
    refine (Read.reads_item x hx).seek (out.bytes.toList ++ Item.encodeAll before)
      (Item.encodeAll after ++ suffix) ?_ ?_ ?_
    · simp [Item.encodeAll]
    · simp
    · simp [Item.encodeAll]
  · rw [Input.seek, ← List.length_append]
    exact List.drop_left

/-- Extreme values of several kinds, behind a byte and in front of another one. -/
theorem stream_reads_back_extremes :
    let items : List Item := [.varI32 Int32.minValue false, .varI64 Int64.minValue true, .str "hé",
      .bytes [0x80], .bool true, .f64 0x7FF8000000000001]
    let bytes := ((Output.mk #[7]).writeAll items).bytes.toList ++ [0xFF]
    (∀ x ∈ items, x.Sized) ∧
      (Read.items (items.map Item.kind)).onInput (.seek bytes 1) = (.ok items, ⟨30, [0xFF]⟩) := by
  intro items bytes
  have hsized : ∀ x ∈ items, x.Sized := by decide
  have hend : Input.seek bytes ((Output.mk #[7]).writeAll items).position = ⟨30, [0xFF]⟩ := by
    decide +kernel
  obtain ⟨-, hread, -, -⟩ := stream_reads_back ⟨#[7]⟩ items [0xFF] hsized
  exact ⟨hsized, hread.trans (by rw [hend])⟩

end GraphCodec
