import GraphCodec.Object.Value
import GraphCodec.Schema.ClassDecl

/-!
# Objects — the heap

An object is an instance of a class table, with one slot per declared field. A `Heap` holds the
objects by number; a number beyond its end reads as an instance of a nameless class without slots.

* `get_alloc_self`, `get_alloc_of_lt`: a new object has the next number and leaves the others alone.
* `get_store_self`, `get_store_of_ne`: setting a slot changes that object only.
-/

namespace GraphCodec

/-- An instance of a class. -/
structure Object where
  decl : ClassDecl
  slots : List Value

namespace Object

instance : Inhabited Object := ⟨⟨default, []⟩⟩

/-- An instance with every slot at its initial value. -/
def fresh (d : ClassDecl) : Object := ⟨d, d.fields.map fun f => Value.initial f.type⟩

def owner (x : Object) : ClassId := x.decl.id

/-- The class of the object as a value type. -/
def type (x : Object) : ValueType := .object x.decl.id

end Object

/-- The objects by number. -/
structure Heap where
  objects : Array Object

namespace Heap

def empty : Heap := ⟨#[]⟩

def size (h : Heap) : Nat := h.objects.size

/-- The object with number `o`. -/
def get (h : Heap) (o : ObjectId) : Object := h.objects.getD o default

/-- Adds an object under the next number. -/
def alloc (h : Heap) (x : Object) : ObjectId × Heap := (h.objects.size, ⟨h.objects.push x⟩)

/-- Puts `v` into slot `i` of object `o`. -/
def store (h : Heap) (o : ObjectId) (i : Nat) (v : Value) : Heap :=
  ⟨h.objects.modify o fun x => { x with slots := x.slots.set i v }⟩

/-- The runtime type of a value, if it is not null. -/
def typeOf (h : Heap) : Value → Option ValueType
  | .null => none
  | .bool _ => some .bool
  | .int _ => some .int
  | .long _ => some .long
  | .float _ => some .float
  | .double _ => some .double
  | .str _ => some .str
  | .object o => some (h.get o).type

@[simp] theorem size_alloc (h : Heap) (x : Object) : (h.alloc x).2.size = h.size + 1 := by
  simp [alloc, size]

@[simp] theorem size_store (h : Heap) (o : ObjectId) (i : Nat) (v : Value) :
    (h.store o i v).size = h.size := by
  simp [store, size]

theorem get_of_le {h : Heap} {o : ObjectId} (ho : h.size ≤ o) : h.get o = default := by
  unfold size at ho
  simp [get, Array.getD, Nat.not_lt.mpr ho]

@[simp] theorem get_alloc_self (h : Heap) (x : Object) : (h.alloc x).2.get h.size = x := by
  simp [alloc, get, size]

theorem get_alloc_of_lt {h : Heap} (x : Object) {o : ObjectId} (ho : o < h.size) :
    (h.alloc x).2.get o = h.get o := by
  unfold size at ho
  simp [alloc, get, Array.getElem_push, ho, Nat.lt_succ_of_lt ho]

theorem get_store_of_ne {h : Heap} {o p : ObjectId} (i : Nat) (v : Value) (hp : p ≠ o) :
    (h.store o i v).get p = h.get p := by
  simp [store, get, Array.getElem?_modify, Ne.symm hp]

theorem get_store_self {h : Heap} {o : ObjectId} (i : Nat) (v : Value) (ho : o < h.size) :
    (h.store o i v).get o = { h.get o with slots := (h.get o).slots.set i v } := by
  unfold size at ho
  simp [store, get, ho, Array.getElem_modify]

end Heap

end GraphCodec
