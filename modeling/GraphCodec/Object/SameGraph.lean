import GraphCodec.Object.Heap

/-!
# Objects — equality of graphs

`Heap.sameGraph` compares what is reachable from two values. Objects are paired off as they are
met, each object of one side with exactly one of the other; plain values are compared on the spot,
floating-point numbers by their bits.
-/

namespace GraphCodec

/-- The pairs of objects met so far, looked up from either side. -/
structure Pairing where
  pairs : List (ObjectId × ObjectId)

namespace Pairing

def empty : Pairing := ⟨[]⟩

/-- The partner of `x`. -/
def forward? (p : Pairing) (x : ObjectId) : Option ObjectId :=
  (p.pairs.find? fun q => q.1 = x).map Prod.snd

/-- The object whose partner is `y`. -/
def backward? (p : Pairing) (y : ObjectId) : Option ObjectId :=
  (p.pairs.find? fun q => q.2 = y).map Prod.fst

def add (p : Pairing) (x y : ObjectId) : Pairing := ⟨(x, y) :: p.pairs⟩

end Pairing

namespace Heap

/-- The number of slots of all objects. -/
def slotCount (h : Heap) : Nat := h.objects.toList.foldl (fun n x => n + x.slots.length) 0

/-- Compares the pairs of values still to do, for at most the given number of steps. -/
def sameFrom (h : Heap) : Nat → Pairing → List (Value × Value) → Bool
  | _, _, [] => true
  | 0, _, _ :: _ => false
  | n + 1, p, (.object x, .object y) :: todo =>
    match p.forward? x, p.backward? y with
    | some y', some _ => y' = y && h.sameFrom n p todo
    | none, none =>
      let a := h.get x
      let b := h.get y
      a.owner = b.owner && a.slots.length = b.slots.length &&
        h.sameFrom n (p.add x y) ((a.slots.zip b.slots).reverse ++ todo)
    | _, _ => false
  | n + 1, p, (v, w) :: todo => v = w && h.sameFrom n p todo

/-- Whether the graphs below two values have the same shape and the same plain values. Each object
is opened once, so the steps are at most one more than the slots of the heap. -/
def sameGraph (h : Heap) (v w : Value) : Bool := h.sameFrom (h.slotCount + 1) .empty [(v, w)]

end Heap

end GraphCodec
