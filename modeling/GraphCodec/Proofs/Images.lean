import GraphCodec.Proofs.Instances

/-!
# Objects — images of a graph

Copying a graph, and reading one back, put an image of each object into a heap, in the order
`visits` in which the objects are met: the image of an object is `base` further than its place in
that order.  The image is there as a fresh instance before its slots are filled in, and the slots
may lead back to it.

* `Complete`: the image of an object has all the slots filled in that take part.
* `Grown`: from one state to the next, images that were there have stayed the same, and those of
  the objects met in between are complete.
* `Filling`: the same, with one more image that is being filled in.
* `Grown.isomorphism`: when everything below a value has a complete image, what is below the image
  of the value is isomorphic to it.
-/

namespace GraphCodec

variable {base : Nat} {visits visits' visits'' : List ObjectId}

theorem idxOf_mono (h : visits <+: visits') {o : ObjectId} (ho : o ∈ visits) :
    visits'.idxOf o = visits.idxOf o := by
  obtain ⟨news, rfl⟩ := h
  exact List.idxOf_append_of_mem ho

theorem idxOf_last {o : ObjectId} (h : visits ++ [o] <+: visits') (hnd : visits'.Nodup) :
    visits'.idxOf o = visits.length := by
  have ho : o ∉ visits := fun ho =>
    (List.nodup_append.mp (hnd.sublist h.sublist)).2.2 o ho o (by simp) rfl
  rw [idxOf_mono h (by simp), List.idxOf_append_of_notMem ho]
  simp

/-- `w` is `v`, with its object replaced by the image. -/
structure Value.Image (base : Nat) (visits : List ObjectId) (v w : Value) : Prop where
  within : v.Within (· ∈ visits)
  eq : w = v.rename fun o => base + visits.idxOf o

theorem Value.Image.mono (h : visits <+: visits') {v w : Value} (hw : v.Image base visits w) :
    v.Image base visits' w := by
  refine ⟨hw.within.mono fun o ho => h.subset ho,
    hw.eq.trans (Value.rename_congr fun o ho => ?_).symm⟩
  exact congrArg (base + ·) (idxOf_mono h (hw.within o ho))

/-- A value that is not an object is its own image. -/
theorem Value.image_self {v : Value} (hv : ∀ o, v ≠ .object o) : v.Image base visits v :=
  ⟨fun o ho => absurd ho (hv o), (Value.rename_eq_self hv).symm⟩

theorem Value.image_object {o : ObjectId} (ho : o ∈ visits) :
    (Value.object o).Image base visits (.object (base + visits.idxOf o)) :=
  ⟨Value.within_object ho, rfl⟩

/-- `w` is the image of what `y` holds in the slot of the entry. -/
def HoldsImage (base : Nat) (visits : List ObjectId) (y : Object) (e : FieldEntry) (w : Value) :
    Prop :=
  ∃ v, y.slots[e.slot.index]? = some v ∧ v.Image base visits w

theorem HoldsImage.mono (h : visits <+: visits') {y : Object} (e : FieldEntry) (w : Value)
    (hw : HoldsImage base visits y e w) : HoldsImage base visits' y e w := by
  obtain ⟨v, hv, hi⟩ := hw
  exact ⟨v, hv, hi.mono h⟩

/-! ### All images -/

namespace Codec

variable {c : Codec} {rs : List RecordSerializer} {part : FieldEntry → Bool} {h g g' g'' : Heap}

/-- The codec makes instances of the class. -/
def Makes (c : Codec) (owner : ClassId) : Prop :=
  ∃ r, c.record (.object owner) = .ok r ∧ r.decl.constructible = true

/-- The image of `o` has all the slots filled in that take part in the sense of `part`. -/
def Complete (c : Codec) (part : FieldEntry → Bool) (h : Heap) (base : Nat)
    (visits : List ObjectId) (g : Heap) (o : ObjectId) : Prop :=
  ∃ r, c.record (.object (h.get o).owner) = .ok r ∧ r.decl.constructible = true ∧
    Filled (HoldsImage base visits (h.get o)) (r.entries.filter part) r.decl
      (g.get (base + visits.idxOf o))

/-- The images of `visits` have stayed the same from `g` to `g'`, and the other ones of `visits'`
have become complete. -/
structure Grown (c : Codec) (part : FieldEntry → Bool) (h : Heap) (base : Nat)
    (visits : List ObjectId) (g : Heap) (visits' : List ObjectId) (g' : Heap) : Prop where
  grows : visits <+: visits'
  kept : ∀ p < base + visits.length, g'.get p = g.get p
  made : ∀ o ∈ visits', o ∉ visits → c.Complete part h base visits' g' o

theorem Complete.mono (hv : visits <+: visits')
    (hg : ∀ p < base + visits.length, g'.get p = g.get p) {o : ObjectId} (ho : o ∈ visits)
    (hc : c.Complete part h base visits g o) : c.Complete part h base visits' g' o := by
  obtain ⟨r, hr, hd, hx⟩ := hc
  refine ⟨r, hr, hd, ?_⟩
  have hlt := List.idxOf_lt_length_of_mem ho
  rw [idxOf_mono hv ho, hg _ (by omega)]
  exact hx.mono (HoldsImage.mono hv)

theorem Grown.refl (visits : List ObjectId) (g : Heap) :
    Grown c part h base visits g visits g :=
  ⟨List.prefix_rfl, fun _ _ => rfl, fun _ ho hn => absurd ho hn⟩

/-! ### While an image is filled in -/

/-- From `g` to `g'` the object `o` was met, and the slots of `done` are filled in its image; the
images of the objects met after it are complete. -/
structure Filling (c : Codec) (part : FieldEntry → Bool) (h : Heap) (base : Nat)
    (visits : List ObjectId) (g : Heap) (o : ObjectId) (d : ClassDecl) (done : FieldTable)
    (visits' : List ObjectId) (g' : Heap) : Prop where
  grows : visits ++ [o] <+: visits'
  kept : ∀ p < base + visits.length, g'.get p = g.get p
  made : ∀ p ∈ visits', p ∉ visits ++ [o] → c.Complete part h base visits' g' p
  filled : Filled (HoldsImage base visits' (h.get o)) done d (g'.get (base + visits.length))

variable {o : ObjectId} {d : ClassDecl} {done : FieldTable}

theorem Filling.start (hsize : g.size = base + visits.length) (o : ObjectId) (d : ClassDecl) :
    Filling c part h base visits g o d [] (visits ++ [o]) (g.alloc (.fresh d)).2 := by
  refine ⟨List.prefix_rfl, fun p hp => Heap.get_alloc_of_lt _ (hsize ▸ hp),
    fun p hp hn => absurd hp hn, ?_⟩
  rw [← hsize, Heap.get_alloc_self]
  exact .fresh _ d

theorem Filling.length_lt (h₁ : Filling c part h base visits g o d done visits' g') :
    visits.length < visits'.length := by
  have hlen := h₁.grows.length_le
  rwa [List.length_append, List.length_singleton] at hlen

theorem Filling.nested (h₁ : Filling c part h base visits g o d done visits' g')
    (h₂ : Grown c part h base visits' g' visits'' g'') :
    Filling c part h base visits g o d done visits'' g'' := by
  have hlen := h₁.length_lt
  refine ⟨h₁.grows.trans h₂.grows, ?_, ?_, ?_⟩
  · intro p hp
    rw [h₂.kept p (by omega), h₁.kept p hp]
  · intro p hp hn
    by_cases hm : p ∈ visits'
    · exact (h₁.made p hm hn).mono h₂.grows h₂.kept hm
    · exact h₂.made p hp hm
  · rw [h₂.kept _ (by omega)]
    exact h₁.filled.mono (HoldsImage.mono h₂.grows)

theorem Filling.store (h₁ : Filling c part h base visits g o d done visits' g')
    (hsize : base + visits.length < g'.size) (hnd : visits'.Nodup) {e : FieldEntry}
    (he : e.slot.index < d.fields.length) (hnew : ∀ e' ∈ done, e'.slot.index ≠ e.slot.index)
    {v w : Value} (hv : (h.get o).slots[e.slot.index]? = some v) (hw : v.Image base visits' w) :
    Filling c part h base visits g o d (done ++ [e]) visits'
      (g'.store (base + visits.length) e.slot.index w) := by
  refine ⟨h₁.grows, ?_, ?_, ?_⟩
  · intro p hp
    rw [Heap.get_store_of_ne _ _ (show p ≠ base + visits.length by omega), h₁.kept p hp]
  · intro p hp hn
    obtain ⟨r, hr, hd, hx⟩ := h₁.made p hp hn
    refine ⟨r, hr, hd, ?_⟩
    -- the image that is being filled in is none of the complete ones
    have hne : base + visits'.idxOf p ≠ base + visits.length := fun hidx => hn (by
      rw [← idxOf_last h₁.grows hnd, Nat.add_left_cancel_iff, List.idxOf_inj hp] at hidx
      simp [hidx])
    rw [Heap.get_store_of_ne _ _ hne]
    exact hx
  · rw [Heap.get_store_self _ _ hsize]
    exact h₁.filled.set he hnew ⟨_, hv, hw⟩

theorem Filling.finish {r : RecordSerializer} (hr : c.record (.object (h.get o).owner) = .ok r)
    (hd : r.decl.constructible = true) (hnd : visits'.Nodup)
    (h₁ : Filling c part h base visits g o r.decl (r.entries.filter part) visits' g') :
    Grown c part h base visits g visits' g' := by
  refine ⟨(List.prefix_append _ _).trans h₁.grows, h₁.kept, fun p hp hn => ?_⟩
  by_cases hpo : p = o
  · subst hpo
    refine ⟨r, hr, hd, ?_⟩
    rw [idxOf_last h₁.grows hnd]
    exact h₁.filled
  · exact h₁.made p hp (by simp [hn, hpo])

/-! ### When all images are complete -/

section

variable (hc : c.Lists rs)
include hc

theorem Complete.owner {o : ObjectId} (ho : c.Complete part h base visits g o) :
    (g.get (base + visits.idxOf o)).owner = (h.get o).owner :=
  Made.owner hc ho

theorem Complete.slots {o : ObjectId} (ho : c.Complete part h base visits g o) {i : Nat}
    (hi : c.slots part (h.get o).owner i) : ∃ v w, (h.get o).slots[i]? = some v ∧
      (g.get (base + visits.idxOf o)).slots[i]? = some w ∧ v.Image base visits w :=
  Made.slots hc ho hi

theorem Complete.freshElsewhere {o : ObjectId} (ho : c.Complete part h base visits g o) :
    c.FreshElsewhere part (g.get (base + visits.idxOf o)) :=
  Made.freshElsewhere hc ho

/-- An image holds no object but images of what the object holds. -/
theorem Complete.object {o p : ObjectId} (ho : c.Complete part h base visits g o) {i : Nat}
    (hi : (g.get (base + visits.idxOf o)).slots[i]? = some (.object p)) :
    c.slots part (h.get o).owner i ∧ ∃ q, (h.get o).slots[i]? = some (.object q) ∧
      base + visits.idxOf q = p := by
  obtain ⟨v, hv, himg⟩ := Made.stands ho hi
  obtain ⟨q, rfl, hq⟩ := Value.rename_eq_object himg.eq.symm
  exact ⟨Made.selected hc ho hi, q, hv, hq⟩

theorem Grown.isomorphism {v w : Value} (hg : Grown c part h base [] g visits g')
    (hw : v.Image base visits w) (hsub : ∀ o ∈ visits, h.Reach (c.slots part) v o)
    (hsize : ∀ o, h.Reach (c.slots part) v o → ∀ r, c.record (.object (h.get o).owner) = .ok r →
      (h.get o).slots.length = r.decl.fields.length) :
    Heap.Isomorphism (c.slots part) h v .all g' w (fun o => base + visits.idxOf o) ∧
      ∀ o, h.Reach (c.slots part) v o ↔ o ∈ visits := by
  have hcomplete : ∀ o ∈ visits, c.Complete part h base visits g' o := fun o ho =>
    hg.made o ho List.not_mem_nil
  have hclosed : h.Closed (c.slots part) (· ∈ visits) := by
    intro o ho i hi v hv
    obtain ⟨v', _, hv', -, himg⟩ := (hcomplete o ho).slots hc hi
    obtain rfl : v = v' := Option.some.inj (hv.symm.trans hv')
    exact himg.within
  have hreach : ∀ o, h.Reach (c.slots part) v o ↔ o ∈ visits := fun o =>
    ⟨Heap.reach_sub hclosed hw.within, hsub o⟩
  refine ⟨⟨hw.eq, ⟨?_, ?_, ?_⟩, ?_, ?_, ?_⟩, hreach⟩
  · intro o ho
    -- what is reached in the graph has its image reached from the image of the root
    change h.Reach (c.slots part) v o at ho
    induction ho with
    | root e =>
        refine .root ?_
        rw [hw.eq, e]
        rfl
    | step ho hi hs ih =>
        obtain ⟨v', w', hv', hw', himg⟩ := (hcomplete _ ((hreach _).mp ho)).slots hc hi
        obtain rfl : v' = _ := Option.some.inj (hv'.symm.trans hs)
        exact Heap.Reach.step ih trivial (himg.eq ▸ hw')
  · intro o ho p hp he
    exact (List.idxOf_inj ((hreach o).mp ho)).mp (Nat.add_left_cancel he)
  · intro p hp
    -- what is reached among the images is the image of something reached
    change g'.Reach .all w p at hp
    induction hp with
    | root e =>
        obtain ⟨o, ho, hp⟩ := Value.rename_eq_object (hw.eq.symm.trans e)
        exact ⟨o, .root ho, hp⟩
    | step _ _ hs ih =>
        obtain ⟨o, ho, rfl⟩ := ih
        obtain ⟨hi, q, hq, hp⟩ := (hcomplete o ((hreach o).mp ho)).object hc hs
        exact ⟨q, Heap.Reach.step ho hi hq, hp⟩
  · intro o ho
    exact (hcomplete o ((hreach o).mp ho)).owner hc
  · intro o ho
    obtain ⟨r, hr, -, hx⟩ := hcomplete o ((hreach o).mp ho)
    rw [hx.size, hsize o ho r hr]
  · intro o ho i hi
    obtain ⟨v', w', hv', hw', himg⟩ := (hcomplete o ((hreach o).mp ho)).slots hc hi
    rw [hv', hw', himg.eq]
    rfl

end

end Codec

end GraphCodec
