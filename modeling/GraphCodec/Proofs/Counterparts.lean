import GraphCodec.Proofs.Matching
import GraphCodec.Proofs.Recovery

/-!
# Objects — what two readers make of one value

Where a value was read back, each object that was made stands for an object below the original one
(`Counterparts`), whether objects keep their identity or not.  If two readers have read back the
same value, their objects are met side by side along the same slots (`Heap.Beside`), and objects
that are side by side stand for the same object.  Neither reader has two objects side by side with
one of the other: where objects keep their identity there is one for each of the original ones, and
else both results are trees.  So the objects that are side by side match
(`Counterparts.matching`), and the graphs are the same.
-/

namespace GraphCodec

namespace Heap

/-! ### Side by side -/

/-- Object `x` is below `w` where `y` is below `w'`. -/
inductive Beside (g : Heap) (w : Value) (g' : Heap) (w' : Value) : ObjectId → ObjectId → Prop
  | root {x y : ObjectId} (hx : w = .object x) (hy : w' = .object y) : Beside g w g' w' x y
  | step {p q x y : ObjectId} {i : Nat} (hpq : Beside g w g' w' p q) (hx : g.HoldsAt p i x)
      (hy : g'.HoldsAt q i y) : Beside g w g' w' x y

namespace Beside

variable {g g' : Heap} {w w' : Value} {x x' y y' : ObjectId}

theorem symm (h : Beside g w g' w' x y) : Beside g' w' g w y x := by
  induction h with
  | root hx hy => exact .root hy hx
  | step _ hx hy ih => exact .step ih hy hx

theorem reach (h : Beside g w g' w' x y) : g.Reach .all w x := by
  induction h with
  | root hx _ => exact .root hx
  | step _ hx _ ih => exact .step ih trivial hx

/-- In a tree there is only one way to an object. -/
theorem right_unique (htree : g.IsTree w) (h : Beside g w g' w' x y) :
    ∀ {y'}, Beside g w g' w' x y' → y' = y := by
  induction h with
  | root hx hy =>
      intro y' h'
      cases h' with
      | root _ hy' => exact Value.object.inj (hy'.symm.trans hy)
      | step hpq hx' _ => exact absurd hx' (htree.root _ hx _ _ hpq.reach)
  | @step p q x y i hpq hx hy ih =>
      intro y' h'
      cases h' with
      | root hx' _ => exact absurd hx (htree.root _ hx' _ _ hpq.reach)
      | step hpq' hx' hy' =>
          obtain ⟨rfl, rfl⟩ := htree.once _ _ _ _ _ hpq'.reach hpq.reach hx' hx
          rw [ih hpq', HoldsAt, hy] at hy'
          cases hy'
          rfl

theorem left_unique (htree : g'.IsTree w') (h : Beside g w g' w' x y)
    (h' : Beside g w g' w' x' y) : x' = x :=
  right_unique htree h.symm h'.symm

end Beside

end Heap

namespace Codec

/-! ### Counterparts -/

/-- `S x o` says that the object `x` below `w` was made for the object `o` below `v`. -/
structure Counterparts (c : Codec) (h : Heap) (v : Value) (g : Heap) (w : Value)
    (S : ObjectId → ObjectId → Prop) : Prop where
  root : w.Paired S v
  reach : ∀ {x o}, S x o → h.Reach c.writtenSlots v o
  owner : ∀ {x o}, S x o → (g.get x).owner = (h.get o).owner
  size : ∀ {x o}, S x o → (g.get x).slots.length = (h.get o).slots.length
  slots : ∀ {x o}, S x o → ∀ i, c.writtenSlots (h.get o).owner i →
    ∀ a b : Value, (g.get x).slots[i]? = some a → (h.get o).slots[i]? = some b → a.Paired S b
  fresh : ∀ {x o}, S x o → c.FreshElsewhere FieldEntryOf.serialized (g.get x)

variable {c : Codec} {h g g' : Heap} {v w w' : Value} {S S' : ObjectId → ObjectId → Prop}
  {was : WasRead} {f : ObjectId → ObjectId} {x y o : ObjectId}

theorem Restores.counterparts (hw : c.Restores h v g was w f) :
    c.Counterparts h v was.heap w fun x o => h.Reach c.writtenSlots v o ∧ x = f o := by
  have hiso := hw.isomorphism
  constructor
  · rw [hiso.root]
    exact Value.rename_paired ((h.within_reach _ v).mono fun o ho => ⟨ho, rfl⟩)
  · exact And.left
  · rintro _ o ⟨ho, rfl⟩
    exact hiso.owner o ho
  · rintro _ o ⟨ho, rfl⟩
    exact hiso.size o ho
  · rintro _ o ⟨ho, rfl⟩ i hi a b ha hb
    rw [hiso.slots o ho i hi, hb] at ha
    cases ha
    exact Value.rename_paired
      ((h.closed_reach _ v o ho i hi b hb).mono fun o ho => ⟨ho, rfl⟩)
  · rintro _ o ⟨ho, rfl⟩
    exact hw.fresh o ho

theorem Unfolds.counterparts (hw : c.Unfolds h v g was w f) :
    c.Counterparts h v was.heap w fun x o => was.heap.Reach .all w x ∧ o = f x := by
  have htree := hw.unfolding
  constructor
  · rw [htree.root]
    exact Value.paired_rename ((was.heap.within_reach _ w).mono fun x hx => ⟨hx, rfl⟩)
  · rintro x _ ⟨hx, rfl⟩
    exact htree.onto.subset (Set.mem_image_of_mem f hx)
  · rintro x _ ⟨hx, rfl⟩
    exact htree.owner x hx
  · rintro x _ ⟨hx, rfl⟩
    exact htree.size x hx
  · rintro x _ ⟨hx, rfl⟩ i hi a b ha hb
    rw [htree.slots x hx i hi, ha] at hb
    cases hb
    exact Value.paired_rename
      ((was.heap.closed_reach _ w x hx i trivial a ha).mono fun x hx => ⟨hx, rfl⟩)
  · rintro x _ ⟨hx, rfl⟩
    exact hw.fresh x hx

section

variable (hS : c.Counterparts h v g w S)
include hS

/-- An object that was made for another one is in the heap. -/
theorem Counterparts.lt_size (hp : c.Portable h v) (hx : S x o) : x < g.size := by
  by_contra hlt
  obtain ⟨r, hr, hdecl, -⟩ := hS.fresh hx
  have howner := hS.owner hx
  have hmakes := hp.makes o (hS.reach hx) r (howner ▸ hr)
  rw [Heap.get_of_le (Nat.not_lt.mp hlt)] at hdecl
  rw [← hdecl] at hmakes
  cases hmakes

/-- What stands in a written slot was made for what stands there in the original. -/
theorem Counterparts.exists_slot (hx : S x o) {i : Nat} (hi : c.writtenSlots (h.get o).owner i)
    {a : Value} (ha : (g.get x).slots[i]? = some a) :
    ∃ b, (h.get o).slots[i]? = some b ∧ a.Paired S b := by
  have hlt : i < (h.get o).slots.length := by
    rw [← hS.size hx]
    exact (List.getElem?_eq_some_iff.mp ha).1
  have hb := List.getElem?_eq_getElem hlt
  exact ⟨_, hb, hS.slots hx i hi _ _ ha hb⟩

/-- An object is only in a slot that is written, and was made for what stands there. -/
theorem Counterparts.of_holdsAt (hx : S x o) {i : Nat} {x' : ObjectId} (hi : g.HoldsAt x i x') :
    ∃ o', (h.get o).slots[i]? = some (.object o') ∧ S x' o' := by
  have hwritten : c.writtenSlots (h.get o).owner i := by
    by_contra hno
    obtain ⟨r, -, -, hfresh⟩ := hS.fresh hx
    rw [Heap.HoldsAt, hfresh i (hS.owner hx ▸ hno)] at hi
    obtain ⟨d, -, hd⟩ := Option.map_eq_some_iff.mp hi
    exact Value.initial_ne_object _ _ hd
  obtain ⟨b, hb, hpaired⟩ := hS.exists_slot hx hwritten hi
  obtain ⟨o', rfl, ho'⟩ := hpaired.of_object
  exact ⟨o', hb, ho'⟩

variable (hS' : c.Counterparts h v g' w' S')
include hS'

/-- Objects that are side by side were made for the same one. -/
theorem Counterparts.beside (hxy : Heap.Beside g w g' w' x y) : ∃ o, S x o ∧ S' y o := by
  induction hxy with
  | root hx hy =>
      obtain ⟨o, rfl, ho⟩ := (hx ▸ hS.root).of_object
      obtain ⟨o', h', ho'⟩ := (hy ▸ hS'.root).of_object
      obtain rfl := Value.object.inj h'
      exact ⟨o, ho, ho'⟩
  | step _ hx hy ih =>
      obtain ⟨o, ho, ho'⟩ := ih
      obtain ⟨p, hp, hS₁⟩ := hS.of_holdsAt ho hx
      obtain ⟨p', hp', hS₂⟩ := hS'.of_holdsAt ho' hy
      obtain rfl := Value.object.inj (Option.some.inj (hp.symm.trans hp'))
      exact ⟨p, hS₁, hS₂⟩

theorem Counterparts.root_beside : w.Paired (Heap.Beside g w g' w') w' :=
  hS.root.join hS'.root fun _ _ _ hx hy _ _ => .root hx hy

/-- Where no object is beside two others, the objects of both sides match in a heap that has them
all. -/
theorem Counterparts.matching (hkept : ∀ {x o}, S x o → g'.get x = g.get x)
    (hleft : ∀ {x x' y}, Heap.Beside g w g' w' x y → Heap.Beside g w g' w' x' y → x' = x)
    (hright : ∀ {x y y'}, Heap.Beside g w g' w' x y → Heap.Beside g w g' w' x y' → y' = y) :
    g'.Matching (Heap.Beside g w g' w') where
  left := hleft
  right := hright
  owner hxy := by
    obtain ⟨o, ho, ho'⟩ := hS.beside hS' hxy
    rw [hkept ho, hS.owner ho, hS'.owner ho']
  size hxy := by
    obtain ⟨o, ho, ho'⟩ := hS.beside hS' hxy
    rw [hkept ho, hS.size ho, hS'.size ho']
  slots := by
    intro x y hxy i a b ha hb
    obtain ⟨o, ho, ho'⟩ := hS.beside hS' hxy
    rw [hkept ho] at ha
    have howner := (hS.owner ho).trans (hS'.owner ho').symm
    by_cases hi : c.writtenSlots (h.get o).owner i
    · -- both values were made for the one that was written
      obtain ⟨d, hd, hpa⟩ := hS.exists_slot ho hi ha
      obtain ⟨d', hd', hpb⟩ := hS'.exists_slot ho' hi hb
      obtain rfl := Option.some.inj (hd.symm.trans hd')
      refine hpa.join hpb ?_
      rintro p q - rfl rfl - -
      exact .step hxy ha hb
    · -- both values are the initial one of the field
      obtain ⟨r, hr, -, hfresh⟩ := hS.fresh ho
      obtain ⟨s, hs, -, hfresh'⟩ := hS'.fresh ho'
      have htype : (g.get x).type = (g'.get y).type := congrArg ValueType.object howner
      obtain rfl : r = s := Except.ok.inj (hr.symm.trans (htype ▸ hs))
      rw [hfresh i (hS.owner ho ▸ hi)] at ha
      rw [hfresh' i (hS'.owner ho' ▸ hi), ha] at hb
      cases hb
      obtain ⟨d, -, rfl⟩ := Option.map_eq_some_iff.mp ha
      exact .plain (Value.initial_ne_object _)

end

end Codec

end GraphCodec
