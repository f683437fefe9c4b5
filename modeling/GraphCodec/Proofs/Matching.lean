import Mathlib.Algebra.BigOperators.Group.Finset.Basic
import GraphCodec.Object.SameGraph
import GraphCodec.Proofs.Isomorphism

/-!
# Objects — equal graphs

A `Matching` pairs objects of a heap off, one with one, so that paired objects are of the same class
and hold, slot by slot, paired objects or the same plain values.  Two graphs whose roots are paired
by a matching are found to be the same (`Matching.sameGraph`).

The comparison never runs out of steps: each step takes one pair of values off the list of what is
still to do, and the slots of an object come onto it only once, when the object gets its partner.
So the pairs to do together with the slots of the objects that have no partner yet never grow.
-/

namespace GraphCodec

/-- The values are paired objects, or one plain value. -/
inductive Value.Paired (R : ObjectId → ObjectId → Prop) : Value → Value → Prop
  | object {x y : ObjectId} (h : R x y) : Paired R (.object x) (.object y)
  | plain {v : Value} (h : ∀ o, v ≠ .object o) : Paired R v v

namespace Value

variable {R S S' : ObjectId → ObjectId → Prop} {f : ObjectId → ObjectId} {u v w d : Value}

theorem Paired.of_object {x : ObjectId} (h : (Value.object x).Paired R w) :
    ∃ y, w = .object y ∧ R x y := by
  cases h with
  | object h => exact ⟨_, rfl, h⟩
  | plain h => exact absurd rfl (h x)

theorem Paired.mono (h : v.Paired R w) (hRS : ∀ x y, R x y → S x y) : v.Paired S w := by
  cases h with
  | object h => exact .object (hRS _ _ h)
  | plain h => exact .plain h

theorem Paired.symm (h : v.Paired R w) : w.Paired (fun y x => R x y) v := by
  cases h with
  | object h => exact .object h
  | plain h => exact .plain h

theorem paired_eq (v : Value) : v.Paired (· = ·) v := by
  cases v with
  | object x => exact .object rfl
  | _ => exact .plain nofun

theorem Paired.comp (h : u.Paired R v) (h' : v.Paired S w) :
    u.Paired (fun x z => ∃ y, R x y ∧ S y z) w := by
  cases h with
  | object h =>
      cases h' with
      | object h' => exact .object ⟨_, h, h'⟩
      | plain hv => exact absurd rfl (hv _)
  | plain hv =>
      cases h' with
      | object => exact absurd rfl (hv _)
      | plain => exact .plain hv

/-- A value that is paired along a function is the renamed one. -/
theorem Paired.eq_rename (h : v.Paired R w) (hf : ∀ x y, R x y → f x = y) : w = v.rename f := by
  cases h with
  | object h => rw [rename_object, hf _ _ h]
  | plain hv => exact (rename_eq_self hv).symm

/-- Two values that are paired with the same one are paired with each other. -/
theorem Paired.join (hv : v.Paired S d) (hw : w.Paired S' d)
    (hR : ∀ x y o, v = .object x → w = .object y → S x o → S' y o → R x y) : v.Paired R w := by
  cases hv with
  | @object x o h =>
      cases hw with
      | @object y _ h' => exact .object (hR x y o rfl rfl h h')
      | plain hd => exact absurd rfl (hd o)
  | plain hd =>
      cases hw with
      | @object y o h' => exact absurd rfl (hd o)
      | plain => exact .plain hd

theorem paired_rename (hv : v.Within fun x => R x (f x)) : v.Paired R (v.rename f) := by
  cases v with
  | object x => exact .object (hv x rfl)
  | _ => exact .plain nofun

theorem rename_paired (hv : v.Within fun o => R (f o) o) : (v.rename f).Paired R v := by
  cases v with
  | object o => exact .object (hv o rfl)
  | _ => exact .plain nofun

end Value

/-! ### Pairs that were met -/

namespace Pairing

variable {p : Pairing} {x y : ObjectId}

theorem forward?_eq_none : p.forward? x = none ↔ x ∉ p.pairs.map Prod.fst := by
  simp only [forward?, Option.map_eq_none_iff, List.find?_eq_none, List.mem_map, not_exists,
    not_and]
  exact forall_congr' fun q => forall_congr' fun _ => by simp

theorem mem_of_forward? (h : p.forward? x = some y) : (x, y) ∈ p.pairs := by
  obtain ⟨⟨x', y'⟩, hq, rfl⟩ := Option.map_eq_some_iff.mp h
  obtain rfl : x' = x := by simpa using List.find?_some hq
  exact List.mem_of_find?_eq_some hq

theorem mem_of_backward? (h : p.backward? y = some x) : (x, y) ∈ p.pairs := by
  obtain ⟨⟨x', y'⟩, hq, rfl⟩ := Option.map_eq_some_iff.mp h
  obtain rfl : y' = y := by simpa using List.find?_some hq
  exact List.mem_of_find?_eq_some hq

theorem forward?_ne_none (h : (x, y) ∈ p.pairs) : p.forward? x ≠ none := fun hx =>
  forward?_eq_none.mp hx (List.mem_map_of_mem (f := Prod.fst) h)

theorem backward?_ne_none (h : (x, y) ∈ p.pairs) : p.backward? y ≠ none := by
  simp only [backward?, ne_eq, Option.map_eq_none_iff, List.find?_eq_none, not_forall]
  exact ⟨_, h, by simp⟩

end Pairing

namespace Heap

/-! ### Slots of the objects without a partner -/

variable {h : Heap}

/-- The number of slots of the objects that are not in the list. -/
def slotsOutside (h : Heap) (A : List ObjectId) : Nat :=
  ∑ o ∈ h.unmarked A, (h.get o).slots.length

theorem slotCount_eq (h : Heap) : h.slotCount = h.slotsOutside [] := by
  have hfold : ∀ (l : List Object) (n : Nat), l.foldl (fun n x => n + x.slots.length) n =
      n + ∑ i ∈ Finset.range l.length, (l.getD i default).slots.length := by
    intro l
    induction l with
    | nil => exact fun n => rfl
    | cons x l ih =>
        intro n
        rw [List.foldl_cons, ih, List.length_cons, Finset.sum_range_succ']
        simp only [List.getD_cons_succ, List.getD_cons_zero]
        omega
  rw [slotCount, hfold, Nat.zero_add, slotsOutside, unmarked]
  refine Finset.sum_congr (by simp [size]) fun o _ => ?_
  simp [get, Array.getD_eq_getD_getElem?, List.getD_eq_getElem?_getD]

/-- The slots of an object count until it is in the list. -/
theorem slotsOutside_cons {A : List ObjectId} {o : ObjectId} (ho : o ∉ A) :
    h.slotsOutside (o :: A) + (h.get o).slots.length = h.slotsOutside A := by
  have herase : h.unmarked (o :: A) = (h.unmarked A).erase o := by
    ext p
    simp only [unmarked, Finset.mem_filter, Finset.mem_range, Finset.mem_erase, List.mem_cons,
      not_or]
    tauto
  rw [slotsOutside, herase]
  by_cases hlt : o < h.size
  · exact Finset.sum_erase_add _ _ (by simp [unmarked, ho, hlt])
  · rw [Finset.erase_eq_of_notMem (by simp [unmarked, hlt]), get_of_le (Nat.not_lt.mp hlt)]
    rfl

/-! ### Matchings -/

/-- `R` pairs objects off that cannot be told apart. -/
structure Matching (h : Heap) (R : ObjectId → ObjectId → Prop) : Prop where
  left : ∀ {x x' y}, R x y → R x' y → x' = x
  right : ∀ {x y y'}, R x y → R x y' → y' = y
  owner : ∀ {x y}, R x y → (h.get x).owner = (h.get y).owner
  size : ∀ {x y}, R x y → (h.get x).slots.length = (h.get y).slots.length
  slots : ∀ {x y}, R x y → ∀ (i : Nat) (v w : Value), (h.get x).slots[i]? = some v →
    (h.get y).slots[i]? = some w → v.Paired R w

variable {R : ObjectId → ObjectId → Prop} (hR : h.Matching R)
include hR

/-- All pairs in the slots of paired objects are paired. -/
theorem Matching.zip {x y : ObjectId} (hxy : R x y) :
    ∀ q ∈ (h.get x).slots.zip (h.get y).slots, q.1.Paired R q.2 := by
  intro q hq
  obtain ⟨i, hi⟩ := List.mem_iff_getElem?.mp hq
  obtain ⟨hv, hw⟩ := List.getElem?_zip_eq_some.mp hi
  exact hR.slots hxy i _ _ hv hw

theorem Matching.sameFrom {n : Nat} {p : Pairing} {todo : List (Value × Value)}
    (hp : ∀ q ∈ p.pairs, R q.1 q.2) (htodo : ∀ q ∈ todo, q.1.Paired R q.2)
    (hn : todo.length + h.slotsOutside (p.pairs.map Prod.fst) ≤ n) :
    h.sameFrom n p todo = true := by
  induction n generalizing p todo with
  | zero =>
      obtain rfl : todo = [] := List.eq_nil_of_length_eq_zero (by omega)
      rfl
  | succ n ih =>
      cases todo with
      | nil => rfl
      | cons q todo =>
          obtain ⟨v, w⟩ := q
          obtain ⟨hq, htail⟩ := List.forall_mem_cons.mp htodo
          rw [List.length_cons] at hn
          cases hq with
          | plain hv =>
              have hrest := ih hp htail (by omega)
              cases v with
              | object o => exact absurd rfl (hv o)
              | _ => simp [Heap.sameFrom, hrest]
          | @object x y hxy =>
              simp only [Heap.sameFrom]
              cases hx : p.forward? x with
              | some y' =>
                  have hy : y' = y := hR.right hxy (hp _ (Pairing.mem_of_forward? hx))
                  subst hy
                  obtain ⟨x', hx'⟩ := Option.ne_none_iff_exists'.mp
                    (Pairing.backward?_ne_none (Pairing.mem_of_forward? hx))
                  simp [hx', ih hp htail (by omega)]
              | none =>
                  have hy : p.backward? y = none := by
                    by_contra hne
                    obtain ⟨x', hx'⟩ := Option.ne_none_iff_exists'.mp hne
                    have hmem := Pairing.mem_of_backward? hx'
                    obtain rfl : x' = x := hR.left hxy (hp _ hmem)
                    exact Pairing.forward?_ne_none hmem hx
                  -- the slots of `x` are to do from now on, and count no longer as outside
                  have hout := slotsOutside_cons (h := h) (Pairing.forward?_eq_none.mp hx)
                  have hsize := hR.size hxy
                  have hrest : h.sameFrom n (p.add x y)
                      (((h.get x).slots.zip (h.get y).slots).reverse ++ todo) = true := by
                    refine ih (List.forall_mem_cons.mpr ⟨hxy, hp⟩) (fun q hq => ?_) ?_
                    · rcases List.mem_append.mp hq with hq | hq
                      · exact hR.zip hxy q (List.mem_reverse.mp hq)
                      · exact htail q hq
                    · simp only [Pairing.add, List.map_cons, List.length_append,
                        List.length_reverse, List.length_zip, hsize, Nat.min_self]
                      omega
                  simp [hy, hR.owner hxy, hsize, hrest]

/-- **Graphs whose roots are paired are the same.** -/
theorem Matching.sameGraph {v w : Value} (hvw : v.Paired R w) : h.sameGraph v w = true := by
  refine hR.sameFrom (List.forall_mem_nil _) (by simpa using hvw) ?_
  rw [slotCount_eq]
  exact Nat.le_of_eq (Nat.add_comm _ _)

end Heap

end GraphCodec
