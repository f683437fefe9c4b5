import GraphCodec.Proofs.Isomorphism
import GraphCodec.Proofs.Records

/-!
# Codecs — the slots that take part

The slots of a class that are written, and those that are copied, are read off the field table of
its record serializer.  A class without a record serializer has none of either.
-/

namespace GraphCodec

theorem Slot.getElem?_of_get {s : Slot} {h : Heap} {o : ObjectId} {v : Value}
    (hv : s.get h o = .ok v) : (h.get o).slots[s.index]? = some v := by
  simp only [get, check] at hv
  split at hv
  · cases hs : (h.get o).slots[s.index]? with
    | none =>
        rw [hs] at hv
        cases hv
    | some w =>
        rw [hs] at hv
        cases hv
        rfl
  · cases hv

/-- An object with a value in a slot is in the heap. -/
theorem Slot.lt_size {s : Slot} {h : Heap} {o : ObjectId} {v : Value} (hv : s.get h o = .ok v) :
    o < h.size := by
  by_contra hlt
  simp only [get, check] at hv
  rw [Heap.get_of_le (Nat.not_lt.mp hlt)] at hv
  split at hv <;> cases hv

theorem Slot.get_of_owner {s : Slot} {h : Heap} {o : ObjectId} {v : Value}
    (ho : (h.get o).owner = s.owner) (hv : (h.get o).slots[s.index]? = some v) :
    s.get h o = .ok v := by
  simp [get, check, ho, hv, bind, Except.bind]
  rfl

/-- A slot is looked up in the object alone. -/
theorem Slot.get_congr {s : Slot} {h h' : Heap} {o : ObjectId} (ho : h'.get o = h.get o) :
    s.get h' o = s.get h o := by
  rw [get, get, ho]

theorem Slot.set_of_owner {s : Slot} {h : Heap} {o : ObjectId} (ho : (h.get o).owner = s.owner)
    (hs : s.index < (h.get o).slots.length) (v : Value) :
    ∃ old, s.set h o v = .ok (old, h.store o s.index v) := by
  refine ⟨(h.get o).slots[s.index], ?_⟩
  simp [set, setWhile, check, ho, hs, bind, Except.bind]
  rfl

theorem Heap.instanceOf_eq_ok {h : Heap} {owner : ClassId} {v : Value} {o : ObjectId} :
    h.instanceOf owner v = .ok o ↔ v = .object o ∧ (h.get o).owner = owner := by
  constructor
  · intro hi
    simp only [instanceOf] at hi
    split at hi
    · split at hi
      · next ho =>
        cases hi
        exact ⟨rfl, ho⟩
      · cases hi
    · cases hi
  · rintro ⟨rfl, ho⟩
    simp [instanceOf, ho]

namespace Codec

/-- The slots of the fields that take part in the sense of `part`. -/
def slots (c : Codec) (part : FieldEntry → Bool) : Selection := fun owner i =>
  ∃ r, c.record (.object owner) = .ok r ∧ ∃ e ∈ r.entries, part e = true ∧ e.slot.index = i

/-- The slots that are written and read. -/
abbrev writtenSlots (c : Codec) : Selection := c.slots FieldEntryOf.serialized

/-- The slots that are copied. -/
abbrev copiedSlots (c : Codec) : Selection := c.slots FieldEntryOf.copied

theorem Lists.slots_iff {c : Codec} {rs : List RecordSerializer} (hc : c.Lists rs)
    {r : RecordSerializer} (hr : r ∈ rs) {part : FieldEntry → Bool} {i : Nat} :
    c.slots part r.decl.id i ↔ ∃ e ∈ r.entries, part e = true ∧ e.slot.index = i := by
  rw [slots, hc.record_eq hr]
  constructor
  · rintro ⟨_, ⟨⟩, h⟩
    exact h
  · exact fun h => ⟨r, rfl, h⟩

section

variable {c : Codec} {rs : List RecordSerializer} (hc : c.Lists rs) {r : RecordSerializer}
  (hr : r ∈ rs) {part : FieldEntry → Bool} {e : FieldEntry} (he : e ∈ r.entries)
  (hp : part e = true) {h : Heap} {o : ObjectId} (hid : (h.get o).owner = r.decl.id)
include hc hr he hp hid

theorem Lists.slots_of_entry : c.slots part (h.get o).owner e.slot.index := by
  rw [hid]
  exact (hc.slots_iff hr).mpr ⟨e, he, hp, rfl⟩

/-- An object with all its slots has a value for each entry. -/
theorem Lists.get_of_entry (hlen : (h.get o).slots.length = r.decl.fields.length) :
    ∃ v, e.slot.get h o = .ok v ∧ c.slots part (h.get o).owner e.slot.index := by
  have hfollows := (hc.plain r hr).follows
  have hlt := hfollows.index_lt he
  have hv := List.getElem?_eq_getElem (l := (h.get o).slots) (i := e.slot.index) (by omega)
  exact ⟨_, Slot.get_of_owner (hid.trans (hfollows.owner he).symm) hv,
    hc.slots_of_entry hr he hp hid⟩

end

end Codec

end GraphCodec
