import GraphCodec.Proofs.Instances

/-!
# Objects — the tree below a value

Where objects do not keep their identity, a value is read back as a tree: for every way that leads
to an object there is an instance of its own.  The instances come one after another, each before
those that it holds, and `f` says which object each of them was made for.

* `Unrolled`: from one state to the next the whole tree of a value was put into the heap, behind
  the objects that were there.
* `Unrolling`: the same, with the instance at the root still being filled in.
* `Unrolled.unfolding`: the tree is the unfolding of the graph below the value (`Heap.Unfolding`).
-/

namespace GraphCodec

namespace Heap

/-- Slot `i` of object `p` holds the object `x`. -/
def HoldsAt (g : Heap) (p : ObjectId) (i : Nat) (x : ObjectId) : Prop :=
  (g.get p).slots[i]? = some (.object x)

/-- No two slots of the objects in `S` hold the same object. -/
def HeldOnce (g : Heap) (S : ObjectId → Prop) : Prop :=
  ∀ x p i p' i', S p → S p' → g.HoldsAt p i x → g.HoldsAt p' i' x → p = p' ∧ i = i'

/-- No two slots below `w` hold the same object, and none holds the object of `w`. -/
structure IsTree (g : Heap) (w : Value) : Prop where
  once : g.HeldOnce (g.Reach .all w)
  root : ∀ x, w = .object x → ∀ p i, g.Reach .all w p → ¬ g.HoldsAt p i x

/-- What is below `w` is a tree, and `f` takes it back onto the objects below `v`: it respects the
roots, the classes, the numbers of slots and the selected slots. -/
structure Unfolding (sel : Selection) (h : Heap) (v : Value) (g : Heap) (w : Value)
    (f : ObjectId → ObjectId) : Prop where
  tree : g.IsTree w
  root : v = w.rename f
  onto : f '' {p | g.Reach .all w p} = {o | h.Reach sel v o}
  owner : ∀ p, g.Reach .all w p → (g.get p).owner = (h.get (f p)).owner
  size : ∀ p, g.Reach .all w p → (g.get p).slots.length = (h.get (f p)).slots.length
  slots : ∀ p, g.Reach .all w p → ∀ i, sel (h.get (f p)).owner i →
    (h.get (f p)).slots[i]? = (g.get p).slots[i]?.map (Value.rename f)

/-! ### Objects that are held once -/

section

variable {g g' : Heap} {S S' : ObjectId → Prop}

theorem HeldOnce.congr (hg : ∀ p, S p → g'.get p = g.get p) (hS : g.HeldOnce S) :
    g'.HeldOnce S := by
  intro x p i p' i' hp hp' hx hx'
  rw [HoldsAt, hg _ hp] at hx
  rw [HoldsAt, hg _ hp'] at hx'
  exact hS x p i p' i' hp hp' hx hx'

theorem HeldOnce.mono (hS' : ∀ p, S' p → S p) (hS : g.HeldOnce S) : g.HeldOnce S' :=
  fun x p i p' i' hp hp' => hS x p i p' i' (hS' p hp) (hS' p' hp')

/-- Objects that hold nothing in common. -/
theorem HeldOnce.union (hS : g.HeldOnce S) (hS' : g.HeldOnce S')
    (hx : ∀ x p i p' i', S p → S' p' → g.HoldsAt p i x → ¬ g.HoldsAt p' i' x) :
    g.HeldOnce fun p => S p ∨ S' p := by
  rintro x p i p' i' (hp | hp) (hp' | hp') h h'
  · exact hS x p i p' i' hp hp' h h'
  · exact absurd h' (hx x p i p' i' hp hp' h)
  · exact absurd h (hx x p' i' p i hp' hp h')
  · exact hS' x p i p' i' hp hp' h h'

theorem HoldsAt.of_store {o p x : ObjectId} {i k : Nat} {w : Value}
    (hx : (g.store o k w).HoldsAt p i x) : p = o ∧ i = k ∧ w = .object x ∨ g.HoldsAt p i x := by
  by_cases ho : p = o ∧ o < g.size
  · obtain ⟨rfl, ho⟩ := ho
    rw [HoldsAt, get_store_self _ _ ho, List.getElem?_set] at hx
    split at hx
    · next hk =>
      split at hx
      · exact .inl ⟨rfl, hk.symm, Option.some.inj hx⟩
      · cases hx
    · exact .inr hx
  · refine .inr ?_
    by_cases hp : p = o
    · subst hp
      have hle : g.size ≤ p := Nat.not_lt.mp fun hlt => ho ⟨rfl, hlt⟩
      rw [HoldsAt, get_of_le (by rw [size_store]; exact hle)] at hx
      rwa [HoldsAt, get_of_le hle]
    · rwa [HoldsAt, get_store_of_ne _ _ hp] at hx

/-- An object that nothing holds yet is put into a slot. -/
theorem HeldOnce.store (hS : g.HeldOnce S) (o : ObjectId) (k : Nat) {w : Value}
    (hw : ∀ x, w = .object x → ∀ p i, S p → ¬ g.HoldsAt p i x) :
    (g.store o k w).HeldOnce S := by
  intro x p i p' i' hp hp' hx hx'
  rcases hx.of_store with ⟨hpo, hik, hwx⟩ | hold
  · rcases hx'.of_store with ⟨hpo', hik', -⟩ | hold'
    · exact ⟨hpo.trans hpo'.symm, hik.trans hik'.symm⟩
    · exact absurd hold' (hw x hwx p' i' hp')
  · rcases hx'.of_store with ⟨-, -, hwx⟩ | hold'
    · exact absurd hold (hw x hwx p i hp)
    · exact hS x p i p' i' hp hp' hold hold'

end

end Heap

variable {f f' f'' : ObjectId → ObjectId}

/-- `w` is `v`, with its object replaced by an instance that was made for it and comes after `p`. -/
structure Value.Traced (f : ObjectId → ObjectId) (p hi : ObjectId) (v w : Value) : Prop where
  within : w.Within fun x => p < x ∧ x < hi
  eq : v = w.rename f

theorem Value.Traced.mono {p hi hi' : ObjectId} (hle : hi ≤ hi') (hf : ∀ x < hi, f' x = f x)
    (v w : Value) (hw : v.Traced f p hi w) : v.Traced f' p hi' w := by
  refine ⟨hw.within.mono fun x hx => ⟨hx.1, hx.2.trans_le hle⟩, hw.eq.trans ?_⟩
  exact (Value.rename_congr fun x hx => hf x (hw.within x hx).2).symm

namespace Codec

variable {c : Codec} {rs : List RecordSerializer} {part : FieldEntry → Bool} {h g g' g'' : Heap}
  {v w : Value}

/-- From `g` to `g'` the tree `w` for `v` was put into the heap, and the instances in it have been
made as `f'` says. -/
structure Unrolled (c : Codec) (part : FieldEntry → Bool) (h : Heap) (v : Value)
    (f : ObjectId → ObjectId) (g : Heap) (w : Value) (f' : ObjectId → ObjectId) (g' : Heap) :
    Prop where
  grows : g.size ≤ g'.size
  kept : ∀ p < g.size, g'.get p = g.get p
  origin : ∀ p < g.size, f' p = f p
  made : ∀ p, g.size ≤ p → p < g'.size →
    c.Made part (Value.Traced f' p g'.size) (h.get (f' p)) (g'.get p)
  once : g'.HeldOnce fun p => g.size ≤ p ∧ p < g'.size
  root : w.Within fun x => x = g.size ∧ x < g'.size
  eq : v = w.rename f'

/-- From `g` to `g'` an instance was made for `o`, and the slots of `done` are filled in with trees
that are behind it. -/
structure Unrolling (c : Codec) (part : FieldEntry → Bool) (h : Heap) (o : ObjectId)
    (d : ClassDecl) (f : ObjectId → ObjectId) (g : Heap) (done : FieldTable)
    (f' : ObjectId → ObjectId) (g' : Heap) : Prop where
  grows : g.size < g'.size
  kept : ∀ p < g.size, g'.get p = g.get p
  origin : ∀ p < g.size, f' p = f p
  made : ∀ p, g.size < p → p < g'.size →
    c.Made part (Value.Traced f' p g'.size) (h.get (f' p)) (g'.get p)
  once : g'.HeldOnce fun p => g.size ≤ p ∧ p < g'.size
  root : f' g.size = o
  filled : Filled (StandsFor (Value.Traced f' g.size g'.size) (h.get o)) done d (g'.get g.size)

/-- A value that is not an object makes no instance. -/
theorem Unrolled.refl (hv : ∀ o, v ≠ .object o) (f : ObjectId → ObjectId) (g : Heap) :
    Unrolled c part h v f g v f g where
  grows := le_rfl
  kept _ _ := rfl
  origin _ _ := rfl
  made _ hp hp' := absurd hp' (Nat.not_lt.mpr hp)
  once _ _ _ _ _ hp := absurd hp.2 (Nat.not_lt.mpr hp.1)
  root _ ho := absurd ho (hv _)
  eq := (Value.rename_eq_self hv).symm

/-- What an instance holds comes after it. -/
theorem Unrolled.lt_of_holdsAt (hg : Unrolled c part h v f g w f' g') {p x : ObjectId} {i : Nat}
    (hp : g.size ≤ p) (hp' : p < g'.size) (hx : g'.HoldsAt p i x) : p < x ∧ x < g'.size := by
  obtain ⟨_, -, ht⟩ := (hg.made p hp hp').stands hx
  exact ht.within x rfl

section

variable {o : ObjectId} {d : ClassDecl} {done : FieldTable}

theorem Unrolling.lt_of_holdsAt (hg : Unrolling c part h o d f g done f' g') {p x : ObjectId}
    {i : Nat} (hp : g.size ≤ p) (hp' : p < g'.size) (hx : g'.HoldsAt p i x) :
    p < x ∧ x < g'.size := by
  rcases hp.eq_or_lt with rfl | hp
  · obtain ⟨_, -, -, _, -, ht⟩ := hg.filled.mem_of_object hx
    exact ht.within x rfl
  · obtain ⟨_, -, ht⟩ := (hg.made p hp hp').stands hx
    exact ht.within x rfl

theorem Unrolling.start (f : ObjectId → ObjectId) (g : Heap) (o : ObjectId) (d : ClassDecl) :
    Unrolling c part h o d f g [] (Function.update f g.size o) (g.alloc (.fresh d)).2 where
  grows := by rw [Heap.size_alloc]; omega
  kept p hp := Heap.get_alloc_of_lt _ hp
  origin p hp := Function.update_of_ne (Nat.ne_of_lt hp) _ _
  made p hp hp' := by
    rw [Heap.size_alloc] at hp'
    omega
  once := by
    rintro x p i _ _ ⟨hp, hlt⟩ - hx -
    rw [Heap.size_alloc] at hlt
    obtain rfl : p = g.size := Nat.le_antisymm (Nat.le_of_lt_succ hlt) hp
    rw [Heap.HoldsAt, Heap.get_alloc_self] at hx
    obtain ⟨_, he, -⟩ := (Filled.fresh (fun _ _ => True) d).mem_of_object hx
    cases he
  root := Function.update_self _ _ _
  filled := by
    rw [Heap.get_alloc_self]
    exact .fresh _ d

/-- One more slot is filled in with a tree that was put behind all the others. -/
theorem Unrolling.graft (hg : Unrolling c part h o d f g done f' g')
    (hw : Unrolled c part h v f' g' w f'' g'') {e : FieldEntry}
    (he : e.slot.index < d.fields.length) (hnew : ∀ e' ∈ done, e'.slot.index ≠ e.slot.index)
    (hv : (h.get o).slots[e.slot.index]? = some v) :
    Unrolling c part h o d f g (done ++ [e]) f'' (g''.store g.size e.slot.index w) := by
  have hlt := hg.grows
  have hle := hw.grows
  have hmono : ∀ p, ∀ v w : Value, v.Traced f' p g'.size w → v.Traced f'' p g''.size w := fun p =>
    Value.Traced.mono hle hw.origin
  refine ⟨?_, ?_, ?_, ?_, ?_, ?_, ?_⟩
  · rw [Heap.size_store]
    exact hlt.trans_le hle
  · intro p hp
    rw [Heap.get_store_of_ne _ _ (Nat.ne_of_lt hp), hw.kept p (hp.trans hlt), hg.kept p hp]
  · intro p hp
    rw [hw.origin p (hp.trans hlt), hg.origin p hp]
  · intro p hp hp'
    rw [Heap.size_store] at hp' ⊢
    rw [Heap.get_store_of_ne _ _ (Nat.ne_of_gt hp)]
    by_cases hin : p < g'.size
    · rw [hw.kept p hin, hw.origin p hin]
      exact (hg.made p hp hin).mono (hmono p)
    · exact hw.made p (Nat.not_lt.mp hin) hp'
  · rw [Heap.size_store]
    -- instances from before hold what comes before the new tree, and those in it what comes after
    -- its root
    have hold : g''.HeldOnce fun p => g.size ≤ p ∧ p < g'.size :=
      hg.once.congr fun p hp => hw.kept p hp.2
    have hbefore : ∀ x p i, g.size ≤ p ∧ p < g'.size → g''.HoldsAt p i x → x < g'.size := by
      rintro x p i ⟨hp, hp'⟩ hx
      rw [Heap.HoldsAt, hw.kept p hp'] at hx
      exact (hg.lt_of_holdsAt hp hp' hx).2
    have hafter : ∀ x p i, g'.size ≤ p ∧ p < g''.size → g''.HoldsAt p i x → g'.size < x :=
      fun x p i hp hx => hp.1.trans_lt (hw.lt_of_holdsAt hp.1 hp.2 hx).1
    have hboth := hold.union hw.once fun x p i p' i' hp hp' hx hx' =>
      Nat.lt_asymm (hbefore x p i hp hx) (hafter x p' i' hp' hx')
    refine Heap.HeldOnce.mono (fun p hp => ?_) (hboth.store g.size e.slot.index ?_)
    · exact (Nat.lt_or_ge p g'.size).imp (⟨hp.1, ·⟩) (⟨·, hp.2⟩)
    rintro x rfl p i (hp | hp) hx
    · exact Nat.ne_of_lt (hbefore x p i hp hx) (hw.root x rfl).1
    · exact Nat.ne_of_gt (hafter x p i hp hx) (hw.root x rfl).1
  · rw [hw.origin _ hlt, hg.root]
  · rw [Heap.size_store, Heap.get_store_self _ _ (hlt.trans_le hle), hw.kept _ hlt]
    refine (hg.filled.mono (StandsFor.mono (hmono _))).set he hnew ⟨v, hv, ?_, hw.eq⟩
    intro x hx
    obtain ⟨rfl, hx'⟩ := hw.root x hx
    exact ⟨hlt, hx'⟩

theorem Unrolling.finish {r : RecordSerializer}
    (hg : Unrolling c part h o r.decl f g (r.entries.filter part) f' g')
    (hr : c.record (.object (h.get o).owner) = .ok r) (hd : r.decl.constructible = true) :
    Unrolled c part h (.object o) f g (.object g.size) f' g' where
  grows := hg.grows.le
  kept := hg.kept
  origin := hg.origin
  made p hp hp' := by
    rcases hp.eq_or_lt with rfl | hp
    · rw [hg.root]
      exact ⟨r, hr, hd, hg.filled⟩
    · exact hg.made p hp hp'
  once := hg.once
  root := Value.within_object ⟨rfl, hg.grows⟩
  eq := by rw [Value.rename_object, hg.root]

end

/-! ### The whole tree -/

section

variable (hc : c.Lists rs) (hg : Unrolled c part h v f g w f' g')
include hg

/-- Everything below the root was put into the heap with it. -/
theorem Unrolled.between_of_reach {p : ObjectId} (hp : g'.Reach .all w p) :
    g.size ≤ p ∧ p < g'.size := by
  refine Heap.reach_sub (S := fun p => g.size ≤ p ∧ p < g'.size) ?_ ?_ hp
  · rintro p ⟨hp, hp'⟩ i - _ hx x rfl
    obtain ⟨hlt, hx⟩ := hg.lt_of_holdsAt hp hp' hx
    exact ⟨hp.trans hlt.le, hx⟩
  · intro x hx
    obtain ⟨rfl, hx⟩ := hg.root x hx
    exact ⟨le_rfl, hx⟩

theorem Unrolled.made_of_reach {p : ObjectId} (hp : g'.Reach .all w p) :
    c.Made part (Value.Traced f' p g'.size) (h.get (f' p)) (g'.get p) :=
  hg.made p (hg.between_of_reach hp).1 (hg.between_of_reach hp).2

theorem Unrolled.isTree : g'.IsTree w where
  once := hg.once.mono fun _ hp => hg.between_of_reach hp
  root := by
    intro x hx p i hp hi
    obtain ⟨rfl, -⟩ := hg.root x hx
    obtain ⟨hp, hp'⟩ := hg.between_of_reach hp
    exact Nat.not_lt.mpr hp (hg.lt_of_holdsAt hp hp' hi).1

include hc

theorem Unrolled.slots {p : ObjectId} (hp : g'.Reach .all w p) {i : Nat}
    (hi : c.slots part (h.get (f' p)).owner i) :
    (h.get (f' p)).slots[i]? = (g'.get p).slots[i]?.map (Value.rename f') := by
  obtain ⟨v, w, hv, hw, ht⟩ := Made.slots hc (hg.made_of_reach hp) hi
  rw [hv, hw, ht.eq]
  rfl

/-- What is reached in the tree was made for something that is reached in the graph. -/
theorem Unrolled.reach_origin {p : ObjectId} (hp : g'.Reach .all w p) :
    h.Reach (c.slots part) v (f' p) := by
  induction hp with
  | root e =>
      refine .root ?_
      rw [hg.eq, e]
      rfl
  | step hp _ hi ih =>
      have hmade := hg.made_of_reach hp
      obtain ⟨v, hv, ht⟩ := hmade.stands hi
      obtain rfl := ht.eq
      exact .step ih (Made.selected hc hmade hi) hv

/-- For what is reached in the graph there is something in the tree that was made for it. -/
theorem Unrolled.exists_origin {o : ObjectId} (ho : h.Reach (c.slots part) v o) :
    ∃ p, g'.Reach .all w p ∧ f' p = o := by
  induction ho with
  | root e =>
      obtain ⟨p, hp, rfl⟩ := Value.rename_eq_object (hg.eq.symm.trans e)
      exact ⟨p, .root hp, rfl⟩
  | step _ hsel hi ih =>
      obtain ⟨p, hp, rfl⟩ := ih
      obtain ⟨x, hx, hxv⟩ := Option.map_eq_some_iff.mp ((hg.slots hc hp hsel).symm.trans hi)
      obtain ⟨q, rfl, rfl⟩ := Value.rename_eq_object hxv
      exact ⟨q, Heap.Reach.step hp trivial hx, rfl⟩

theorem Unrolled.unfolding
    (hsize : ∀ o, h.Reach (c.slots part) v o → ∀ r, c.record (.object (h.get o).owner) = .ok r →
      (h.get o).slots.length = r.decl.fields.length) :
    Heap.Unfolding (c.slots part) h v g' w f' where
  tree := hg.isTree
  root := hg.eq
  onto := by
    refine Set.Subset.antisymm ?_ fun o ho => hg.exists_origin hc ho
    rintro _ ⟨p, hp, rfl⟩
    exact hg.reach_origin hc hp
  owner p hp := Made.owner hc (hg.made_of_reach hp)
  size p hp := by
    obtain ⟨r, hr, -, hx⟩ := hg.made_of_reach hp
    rw [hx.size, hsize _ (hg.reach_origin hc hp) r hr]
  slots p hp i hi := hg.slots hc hp hi

end

end Codec

end GraphCodec
