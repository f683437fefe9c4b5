import Mathlib.Data.Finset.Card
import Mathlib.Data.Finset.Range
import Mathlib.Data.Set.Function
import GraphCodec.Object.Heap

/-!
# Objects — reachability and isomorphism

A `Selection` says which slots of a class count: those that are written, those that are copied, or
all of them.  `h.Reach sel v` holds of the objects below the value `v` when only the slots of `sel`
are followed; it is the least set that is *closed* and contains the object of `v`.

`Isomorphism` relates the objects below two values, of two heaps or of one, along a function that
is one-to-one from the first onto the second: the roots correspond, and so do the classes, the
numbers of slots and the selected slots.  What stands in the other slots does not matter.
-/

namespace GraphCodec

/-- The slots of each class that count. -/
abbrev Selection := ClassId → Nat → Prop

/-- Every slot counts. -/
def Selection.all : Selection := fun _ _ => True

namespace Value

/-- The value with the number of its object replaced. -/
def rename (f : ObjectId → ObjectId) : Value → Value
  | .object o => .object (f o)
  | v => v

/-- If the value is an object, it lies in `S`. -/
def Within (S : ObjectId → Prop) (v : Value) : Prop := ∀ o, v = .object o → S o

@[simp] theorem rename_object (f : ObjectId → ObjectId) (o : ObjectId) :
    (Value.object o).rename f = .object (f o) := rfl

@[simp] theorem rename_id (v : Value) : v.rename id = v := by
  cases v <;> rfl

@[simp] theorem isNull_rename (f : ObjectId → ObjectId) (v : Value) :
    (v.rename f).isNull = v.isNull := by
  cases v <;> rfl

theorem rename_eq_object {f : ObjectId → ObjectId} {v : Value} {p : ObjectId}
    (h : v.rename f = .object p) : ∃ o, v = .object o ∧ f o = p := by
  cases v with
  | object o =>
      cases h
      exact ⟨o, rfl, rfl⟩
  | _ => cases h

/-- A value that is not an object is not renamed. -/
theorem rename_eq_self {f : ObjectId → ObjectId} {v : Value} (h : ∀ o, v ≠ .object o) :
    v.rename f = v := by
  cases v with
  | object o => exact absurd rfl (h o)
  | _ => rfl

/-- Only the number of the object of the value matters. -/
theorem rename_congr {f f' : ObjectId → ObjectId} {v : Value} (hf : v.Within fun o => f' o = f o) :
    v.rename f' = v.rename f := by
  cases v with
  | object o => exact congrArg Value.object (hf o rfl)
  | _ => rfl

theorem within_object {S : ObjectId → Prop} {o : ObjectId} (h : S o) :
    (Value.object o).Within S := by
  rintro _ ⟨⟩
  exact h

theorem Within.mono {S S' : ObjectId → Prop} (hS : ∀ o, S o → S' o) {v : Value}
    (h : v.Within S) : v.Within S' :=
  fun o ho => hS o (h o ho)

theorem eq_null_of_isNull {v : Value} (hv : v.isNull = true) : v = .null := by
  cases v with
  | null => rfl
  | _ => cases hv

theorem initial_ne_object (t : FieldType) (o : ObjectId) : Value.initial t ≠ .object o := by
  simp only [Value.initial]
  split <;> simp

end Value

namespace Heap

/-! ### Reachability -/

/-- `o` is the object of `v`, or a selected slot of an object below `v` holds it. -/
inductive Reach (h : Heap) (sel : Selection) (v : Value) : ObjectId → Prop
  | root {o : ObjectId} : v = .object o → Reach h sel v o
  | step {o p : ObjectId} {i : Nat} : Reach h sel v o → sel (h.get o).owner i →
      (h.get o).slots[i]? = some (.object p) → Reach h sel v p

/-- The selected slots of the objects of `S` hold no object outside of `S`. -/
def Closed (h : Heap) (sel : Selection) (S : ObjectId → Prop) : Prop :=
  ∀ o, S o → ∀ i, sel (h.get o).owner i → ∀ v, (h.get o).slots[i]? = some v → v.Within S

theorem closed_reach (h : Heap) (sel : Selection) (v : Value) : h.Closed sel (h.Reach sel v) := by
  rintro o ho i hi _ hs p rfl
  exact .step ho hi hs

theorem within_reach (h : Heap) (sel : Selection) (v : Value) : v.Within (h.Reach sel v) :=
  fun _ ho => .root ho

/-- What is reachable is the least closed set. -/
theorem reach_sub {h : Heap} {sel : Selection} {S : ObjectId → Prop} {v : Value}
    (hS : h.Closed sel S) (hv : v.Within S) : ∀ {o}, h.Reach sel v o → S o := by
  intro o ho
  induction ho with
  | root e => exact hv _ e
  | step _ hi hs ih => exact hS _ ih _ hi _ hs _ rfl

/-- Nothing else is below an object whose slots hold no other object. -/
theorem reach_loop {h : Heap} {sel : Selection} {o : ObjectId}
    (ho : ∀ v ∈ (h.get o).slots, v.Within (· = o)) {p : ObjectId} :
    h.Reach sel (.object o) p ↔ p = o := by
  constructor
  · refine reach_sub (S := fun q => q = o) ?_ (Value.within_object rfl)
    rintro _ rfl i - v hv
    exact ho v (List.mem_of_getElem? hv)
  · rintro rfl
    exact .root rfl

/-! ### Isomorphism -/

/-- `f` sends the objects of `S`, a closed set, to objects of `h'` of the same classes with the
same selected slots, no two of them to one. -/
structure Renames (sel : Selection) (S : ObjectId → Prop) (f : ObjectId → ObjectId)
    (h h' : Heap) : Prop where
  closed : h.Closed sel S
  injective : Set.InjOn f {o | S o}
  owner : ∀ o, S o → (h'.get (f o)).owner = (h.get o).owner
  slots : ∀ o, S o → ∀ i, sel (h.get o).owner i →
    (h'.get (f o)).slots[i]? = (h.get o).slots[i]?.map (Value.rename f)

/-- The objects below `v` and those below `v'` correspond along `f`. -/
structure Isomorphism (sel : Selection) (h : Heap) (v : Value) (sel' : Selection) (h' : Heap)
    (v' : Value) (f : ObjectId → ObjectId) : Prop where
  root : v' = v.rename f
  bijective : Set.BijOn f {o | h.Reach sel v o} {o | h'.Reach sel' v' o}
  owner : ∀ o, h.Reach sel v o → (h'.get (f o)).owner = (h.get o).owner
  size : ∀ o, h.Reach sel v o → (h'.get (f o)).slots.length = (h.get o).slots.length
  slots : ∀ o, h.Reach sel v o → ∀ i, sel (h.get o).owner i →
    (h'.get (f o)).slots[i]? = (h.get o).slots[i]?.map (Value.rename f)

theorem renames_id (sel : Selection) (h : Heap) : Renames sel (fun _ => True) id h h :=
  ⟨fun _ _ _ _ _ _ _ _ => trivial, Function.injective_id.injOn, fun _ _ => rfl, fun _ _ _ _ => by
    rw [show Value.rename id = id from funext Value.rename_id, Option.map_id]
    rfl⟩

theorem Isomorphism.renames {sel sel' : Selection} {h h' : Heap} {v v' : Value}
    {f : ObjectId → ObjectId} (hf : Isomorphism sel h v sel' h' v' f) :
    Renames sel (h.Reach sel v) f h h' :=
  ⟨h.closed_reach sel v, hf.bijective.injOn, hf.owner, hf.slots⟩

theorem Renames.typeOf {sel : Selection} {S : ObjectId → Prop} {f : ObjectId → ObjectId}
    {h h' : Heap} (hf : Renames sel S f h h') {v : Value} (hv : v.Within S) :
    h'.typeOf (v.rename f) = h.typeOf v := by
  cases v with
  | object o => exact congrArg (fun c => some (ValueType.object c)) (hf.owner o (hv o rfl))
  | _ => rfl

/-! ### Marked objects -/

/-- The objects of the heap that are not in the list. -/
def unmarked (h : Heap) (A : List ObjectId) : Finset ObjectId :=
  (Finset.range h.size).filter fun o => o ∉ A

theorem card_unmarked_le (h : Heap) (A : List ObjectId) : (h.unmarked A).card ≤ h.size :=
  (Finset.card_filter_le _ _).trans (Finset.card_range _).le

theorem unmarked_mono {h : Heap} {A B : List ObjectId} (hAB : A ⊆ B) :
    h.unmarked B ⊆ h.unmarked A :=
  Finset.monotone_filter_right _ fun _ _ hB hA => hB (hAB hA)

/-- A longer list leaves fewer objects unmarked. -/
theorem card_unmarked_lt {h : Heap} {A B : List ObjectId} {o : ObjectId} (hAB : A ⊆ B)
    (ho : o < h.size) (hA : o ∉ A) (hB : o ∈ B) : (h.unmarked B).card < (h.unmarked A).card := by
  refine Finset.card_lt_card ((Finset.ssubset_iff_of_subset (unmarked_mono hAB)).mpr ⟨o, ?_, ?_⟩)
  · simp [unmarked, ho, hA]
  · simp [unmarked, hB]

end Heap

end GraphCodec
