import GraphCodec.Object.Value

/-!
# Objects — numbers for one pass

Where objects keep their identity, a `Marker` stands in front of every object: null, a new object
that follows, or the number of an object met before. A writer numbers objects in the order of
first sight (`Numbering`). A reader reserves the next number when a new object begins and binds it
to the instance as soon as there is one (`Reservations`), so that the object's own fields can
already refer to it.

Numbers are natural numbers here and have no bound, while a marker has 32 bits where it is written.
The markers of `n` objects are at most `n + 1` (`Numbering.code_meet_le`), so that they all fit as
long as no more than `2 ^ 32 - 2` objects are numbered in one pass.

* `Marker.ofCode_code`: a marker is known from its code.
* `Numbering.seen_meet`: a new object comes last, and no object comes twice.
* `Numbering.code_meet_le`: how great the marker of an object is.
* `Reservations.get?_reserve`, `get?_bind`, `get?_abandon`: what each step does to the instances
  that the numbers stand for.
-/

namespace GraphCodec

/-- What stands in front of an object. -/
inductive Marker
  | null
  | new
  /-- The object that has this number, which has no bound of its own. -/
  | known (number : Nat)
  deriving DecidableEq

namespace Marker

/-- The number by which a marker is written, in 32 bits. -/
def code : Marker → Nat
  | null => 0
  | new => 1
  | known number => number + 2

/-- The marker with this code. -/
def ofCode : Nat → Marker
  | 0 => null
  | 1 => new
  | number + 2 => known number

@[simp] theorem ofCode_code (m : Marker) : ofCode m.code = m := by
  cases m <;> rfl

@[simp] theorem code_ofCode (n : Nat) : (ofCode n).code = n := by
  match n with
  | 0 | 1 | _ + 2 => rfl

end Marker

/-- The objects that a writer has met, in the order of their numbers. However many there are, the
next one gets a number. -/
structure Numbering where
  seen : List ObjectId

namespace Numbering

def empty : Numbering := ⟨[]⟩

/-- The number of an object that was met before. -/
def number? (t : Numbering) (o : ObjectId) : Option Nat := t.seen.findIdx? (· = o)

/-- The marker for an object, which gets the next number if it is new. -/
def meet (t : Numbering) (o : ObjectId) : Marker × Numbering :=
  match t.number? o with
  | some n => (.known n, t)
  | none => (.new, ⟨t.seen ++ [o]⟩)

theorem number?_eq_none {t : Numbering} {o : ObjectId} : t.number? o = none ↔ o ∉ t.seen := by
  simp only [number?, List.findIdx?_eq_none_iff, decide_eq_false_iff_not]
  exact ⟨fun h ho => h o ho rfl, fun h x hx e => h (e ▸ hx)⟩

theorem seen_meet (t : Numbering) (o : ObjectId) :
    (t.meet o).2.seen = if o ∈ t.seen then t.seen else t.seen ++ [o] := by
  unfold meet
  cases h : t.number? o with
  | none => simp [number?_eq_none.mp h]
  | some n =>
    have ho : o ∈ t.seen := by
      by_cases ho : o ∈ t.seen
      · exact ho
      · rw [number?_eq_none.mpr ho] at h
        cases h
    simp [ho]

/-- The marker of an object is no greater than it takes for the objects met so far. -/
theorem code_meet_le (t : Numbering) (o : ObjectId) :
    (t.meet o).1.code ≤ (t.meet o).2.seen.length + 1 := by
  unfold meet
  cases h : t.number? o with
  | none => exact Nat.le_add_left 1 _
  | some n =>
    have hlt : n < t.seen.length := (List.findIdx?_eq_some_iff_getElem.mp h).1
    exact Nat.succ_le_succ hlt

end Numbering

/-- The numbers that a reader has given out, which are those below the number of `objects`. -/
structure Reservations where
  /-- The instance that each number stands for, once there is one. -/
  objects : List (Option ObjectId)
  /-- The numbers of the objects that are being read, innermost first. -/
  pending : List Nat
  deriving DecidableEq

namespace Reservations

def empty : Reservations := ⟨[], []⟩

/-- Gives the next number to an object about to be read. -/
def reserve (t : Reservations) : Reservations :=
  ⟨t.objects ++ [none], t.objects.length :: t.pending⟩

/-- Lets a number stand for an instance, unless it stands for one already. -/
def assign (objects : List (Option ObjectId)) (n : Nat) (o : ObjectId) : List (Option ObjectId) :=
  objects.modify n fun old => some (old.getD o)

/-- Binds the innermost number to an instance. -/
def bind (t : Reservations) (o : ObjectId) : Reservations :=
  match t.pending with
  | [] => t
  | n :: _ => { t with objects := assign t.objects n o }

/-- Closes the innermost object, which was read as `v`. A number that is still not bound now
stands for `v`, if that is an object. -/
def finish (t : Reservations) (v : Value) : Reservations :=
  match t.pending, v with
  | [], _ => t
  | n :: rest, .object o => ⟨assign t.objects n o, rest⟩
  | _ :: rest, _ => { t with pending := rest }

/-- Closes the innermost object, which could not be read. -/
def abandon (t : Reservations) : Reservations := { t with pending := t.pending.tail }

/-- The instance that a number stands for. -/
def get? (t : Reservations) (n : Nat) : Option ObjectId := (t.objects[n]?).join

theorem get?_reserve (t : Reservations) (n : Nat) : t.reserve.get? n = t.get? n := by
  unfold get? reserve
  by_cases h : n < t.objects.length
  · simp [List.getElem?_append, h]
  · rw [List.getElem?_append, if_neg h, List.getElem?_eq_none (Nat.not_lt.mp h)]
    cases n - t.objects.length <;> rfl

@[simp] theorem get?_abandon (t : Reservations) (n : Nat) : t.abandon.get? n = t.get? n := rfl

theorem join_getElem?_assign (objects : List (Option ObjectId)) (n m : Nat) (o : ObjectId) :
    ((assign objects n o)[m]?).join =
      if n = m ∧ m < objects.length then some ((objects[m]?).join.getD o)
      else (objects[m]?).join := by
  unfold assign
  rw [List.getElem?_modify]
  by_cases hm : m < objects.length
  · rw [List.getElem?_eq_getElem hm]
    by_cases h : n = m <;> simp [h, hm]
  · rw [List.getElem?_eq_none (Nat.not_lt.mp hm)]
    simp [hm]

/-- Binding gives the innermost number an instance, unless it has one. -/
theorem get?_bind (t : Reservations) (o : ObjectId) (n : Nat) :
    (t.bind o).get? n =
      if t.pending.head? = some n ∧ n < t.objects.length then some ((t.get? n).getD o)
      else t.get? n := by
  unfold bind get?
  cases h : t.pending with
  | nil => simp
  | cons m rest => simp [join_getElem?_assign]

end Reservations

end GraphCodec
