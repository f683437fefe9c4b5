import GraphCodec.Proofs.Slots

/-!
# Objects — instances that are being filled in

Copying and reading make a fresh instance and then set its slots, entry by entry.
`Filled C done d x` says how far this has gone: `x` is an instance of `d` in which the slots of the
entries `done` hold what `C` asks for, and the other slots hold their initial values.  In the end
`x` is an instance made for another object `y` (`Codec.Made`): what it holds in the slots that take
part stands for what `y` holds there.
-/

namespace GraphCodec

/-- `x` is an instance of the class `d` in which the slot of each entry of `done` holds a value of
which `C` holds, and the other slots are as in a fresh instance. -/
structure Filled (C : FieldEntry → Value → Prop) (done : FieldTable) (d : ClassDecl) (x : Object) :
    Prop where
  decl : x.decl = d
  size : x.slots.length = d.fields.length
  slots : ∀ e ∈ done, ∃ w, x.slots[e.slot.index]? = some w ∧ C e w
  initial : ∀ i, (∀ e ∈ done, e.slot.index ≠ i) →
    x.slots[i]? = d.fields[i]?.map fun f => Value.initial f.type

namespace Filled

variable {C C' : FieldEntry → Value → Prop} {done : FieldTable} {d : ClassDecl} {x : Object}

theorem fresh (C : FieldEntry → Value → Prop) (d : ClassDecl) : Filled C [] d (.fresh d) :=
  ⟨rfl, by simp [Object.fresh], nofun, fun i _ => by simp [Object.fresh]⟩

theorem mono (hC : ∀ e w, C e w → C' e w) (hx : Filled C done d x) : Filled C' done d x :=
  { hx with
    slots := by
      intro e he
      obtain ⟨w, hw, hc⟩ := hx.slots e he
      exact ⟨w, hw, hC e w hc⟩ }

/-- One more slot is filled in. -/
theorem set (hx : Filled C done d x) {e : FieldEntry} (he : e.slot.index < d.fields.length)
    (hnew : ∀ e' ∈ done, e'.slot.index ≠ e.slot.index) {w : Value} (hw : C e w) :
    Filled C (done ++ [e]) d { x with slots := x.slots.set e.slot.index w } := by
  refine ⟨hx.decl, by simp [hx.size], ?_, ?_⟩
  · intro e' he'
    rcases List.mem_append.mp he' with he' | he'
    · obtain ⟨w', hw', hc⟩ := hx.slots e' he'
      refine ⟨w', ?_, hc⟩
      rwa [List.getElem?_set_ne (hnew e' he').symm]
    · obtain rfl := List.mem_singleton.mp he'
      exact ⟨w, by rw [List.getElem?_set_self (by rw [hx.size]; exact he)], hw⟩
  · intro i hi
    rw [List.getElem?_set_ne (hi e (by simp))]
    exact hx.initial i fun e' he' => hi e' (List.mem_append_left _ he')

/-- The slot of each entry of the class can be set. -/
theorem set_run {h : Heap} {o : ObjectId} (hx : Filled C done d (h.get o)) {t : FieldTable}
    (ht : FieldTable.Follows d t) {e : FieldEntry} (he : e ∈ t) (w : Value) :
    ∃ old, e.slot.set h o w = .ok (old, h.store o e.slot.index w) := by
  refine Slot.set_of_owner ?_ ?_ w
  · rw [Object.owner, hx.decl, ht.owner he]
  · rw [hx.size]
    exact ht.index_lt he

/-- A slot that is not filled in holds no object. -/
theorem mem_of_object (hx : Filled C done d x) {i : Nat} {p : ObjectId}
    (hi : x.slots[i]? = some (.object p)) : ∃ e ∈ done, e.slot.index = i ∧ C e (.object p) := by
  by_cases hs : ∃ e ∈ done, e.slot.index = i
  · obtain ⟨e, he, rfl⟩ := hs
    obtain ⟨w, hw, hc⟩ := hx.slots e he
    obtain rfl : w = .object p := Option.some.inj (hw.symm.trans hi)
    exact ⟨e, he, rfl, hc⟩
  · rw [hx.initial i fun e he hei => hs ⟨e, he, hei⟩, Option.map_eq_some_iff] at hi
    obtain ⟨f, -, hf⟩ := hi
    exact absurd hf (Value.initial_ne_object _ _)

end Filled

/-- `w` stands, in the sense of `T`, for what `y` holds in the slot of the entry. -/
def StandsFor (T : Value → Value → Prop) (y : Object) (e : FieldEntry) (w : Value) : Prop :=
  ∃ v, y.slots[e.slot.index]? = some v ∧ T v w

theorem StandsFor.mono {T T' : Value → Value → Prop} (hT : ∀ v w, T v w → T' v w) {y : Object}
    (e : FieldEntry) (w : Value) (hw : StandsFor T y e w) : StandsFor T' y e w := by
  obtain ⟨v, hv, ht⟩ := hw
  exact ⟨v, hv, hT v w ht⟩

namespace Codec

/-- `x` is an instance made for `y`: the slots that take part in the sense of `part` are filled in
with what stands for the slots of `y`. -/
def Made (c : Codec) (part : FieldEntry → Bool) (T : Value → Value → Prop) (y x : Object) : Prop :=
  ∃ r, c.record (.object y.owner) = .ok r ∧ r.decl.constructible = true ∧
    Filled (StandsFor T y) (r.entries.filter part) r.decl x

/-- The instance is of the class that the codec knows, and its slots that take no part are as in a
fresh one. -/
def FreshElsewhere (c : Codec) (part : FieldEntry → Bool) (x : Object) : Prop :=
  ∃ r, c.record x.type = .ok r ∧ x.decl = r.decl ∧
    ∀ i, ¬ c.slots part x.owner i →
      x.slots[i]? = r.decl.fields[i]?.map fun f => Value.initial f.type

namespace Made

variable {c : Codec} {rs : List RecordSerializer} {part : FieldEntry → Bool}
  {T T' : Value → Value → Prop} {x y : Object}

theorem mono (hT : ∀ v w, T v w → T' v w) (hx : c.Made part T y x) : c.Made part T' y x := by
  obtain ⟨r, hr, hd, hx⟩ := hx
  exact ⟨r, hr, hd, hx.mono (StandsFor.mono hT)⟩

/-- An object in a slot stands for what `y` holds there. -/
theorem stands (hx : c.Made part T y x) {i : Nat} {p : ObjectId}
    (hi : x.slots[i]? = some (.object p)) : ∃ v, y.slots[i]? = some v ∧ T v (.object p) := by
  obtain ⟨r, -, -, hx⟩ := hx
  obtain ⟨e, -, rfl, v, hv, ht⟩ := hx.mem_of_object hi
  exact ⟨v, hv, ht⟩

section

variable (hc : c.Lists rs) (hx : c.Made part T y x)
include hc hx

theorem owner : x.owner = y.owner := by
  obtain ⟨r, hr, -, hx⟩ := hx
  rw [Object.owner, hx.decl, (hc.mem_of_record hr).2]

theorem slots {i : Nat} (hi : c.slots part y.owner i) :
    ∃ v w, y.slots[i]? = some v ∧ x.slots[i]? = some w ∧ T v w := by
  obtain ⟨r, hr, -, hx⟩ := hx
  obtain ⟨hmem, hid⟩ := hc.mem_of_record hr
  rw [← hid] at hi
  obtain ⟨e, he, hp, rfl⟩ := (hc.slots_iff hmem).mp hi
  obtain ⟨w, hw, v, hv, hi⟩ := hx.slots e (List.mem_filter.mpr ⟨he, hp⟩)
  exact ⟨v, w, hv, hw, hi⟩

/-- Objects are held in slots that take part only. -/
theorem selected {i : Nat} {p : ObjectId} (hi : x.slots[i]? = some (.object p)) :
    c.slots part y.owner i := by
  obtain ⟨r, hr, -, hx⟩ := hx
  obtain ⟨hmem, hid⟩ := hc.mem_of_record hr
  obtain ⟨e, he, rfl, -⟩ := hx.mem_of_object hi
  obtain ⟨he, hp⟩ := List.mem_filter.mp he
  rw [← hid]
  exact (hc.slots_iff hmem).mpr ⟨e, he, hp, rfl⟩

theorem freshElsewhere : c.FreshElsewhere part x := by
  have howner := owner hc hx
  obtain ⟨r, hr, -, hx⟩ := hx
  obtain ⟨hmem, hid⟩ := hc.mem_of_record hr
  refine ⟨r, ?_, hx.decl, fun i hi => hx.initial i fun e he hei => hi ?_⟩
  · rw [← hr, ← howner]
    rfl
  · obtain ⟨he, hp⟩ := List.mem_filter.mp he
    rw [howner, ← hid]
    exact (hc.slots_iff hmem).mpr ⟨e, he, hp, hei⟩

end

end Made

end Codec

end GraphCodec
