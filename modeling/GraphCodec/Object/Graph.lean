import GraphCodec.Decimal
import GraphCodec.Object.Heap

/-!
# Objects — values and graphs laid out

An `Outline` is a value with nothing below it. A `Graph` is what is reachable from one value,
without the numbers of the heap it came from: its objects are numbered breadth first, each
object's fields in order, from the root on.

In a text for inspection a value shows its type where the digits alone do not tell it. An object
inside a value shows only the short name of its class, since its number means nothing outside its
heap.
-/

namespace GraphCodec

/-- A value as it shows without its heap: of an object only the class is known. -/
inductive Outline
  | plain (v : Value)
  | object (owner : ClassId)
  deriving DecidableEq

namespace Heap

/-- The outline of a value. -/
def outline (h : Heap) : Value → Outline
  | .object o => .object (h.get o).owner
  | v => .plain v

/-- The objects that the slots of `o` hold, in order. -/
def successors (h : Heap) (o : ObjectId) : List ObjectId :=
  (h.get o).slots.filterMap Value.object?

/-- Adds the objects that are not in the list yet, each once. -/
def appendNew (seen : List ObjectId) (more : List ObjectId) : List ObjectId :=
  more.foldl (fun acc o => if acc.contains o then acc else acc ++ [o]) seen

/-- Opens the objects of `order` from place `i` on, adding what they hold at the end. -/
def explore (h : Heap) : Nat → Nat → List ObjectId → List ObjectId
  | 0, _, order => order
  | n + 1, i, order =>
    match order[i]? with
    | none => order
    | some o => h.explore n (i + 1) (appendNew order (h.successors o))

/-- The objects reachable from a value, breadth first. -/
def reachable (h : Heap) (v : Value) : List ObjectId :=
  match v with
  | .object o => h.explore (h.size + 1) 0 [o]
  | _ => []

end Heap

/-- An object of a graph; objects in its fields are numbers of this graph. -/
structure GraphNode where
  owner : ClassId
  fields : List Value
  deriving DecidableEq

/-- What is reachable from a value. -/
structure Graph where
  root : Value
  nodes : List GraphNode
  deriving DecidableEq

namespace Graph

/-- A value with the number of its object replaced by its place in `order`. -/
def relabel (order : List ObjectId) : Value → Value
  | .object o => .object (order.findIdx (· = o))
  | v => v

/-- The graph below a value. -/
def ofValue (h : Heap) (v : Value) : Graph :=
  let order := h.reachable v
  { root := relabel order v
    nodes := order.map fun o => ⟨(h.get o).owner, (h.get o).slots.map (relabel order)⟩ }

end Graph

/-! ## Texts for inspection -/

namespace Heap

/-- A value for inspection. -/
def inspect (h : Heap) : Value → String
  | .null => "null"
  | .bool b => Text.bool b
  | .int v => toString v.toInt
  | .long v => toString v.toInt ++ "i64"
  | .float bits => Decimal.floatText .single bits.toNat ++ "f32"
  | .double bits => Decimal.floatText .double bits.toNat
  | .str s => Text.quoted s
  | .object o => (h.get o).owner.name ++ "@0x"

/-- An object for inspection, with the names of its fields. -/
def inspectObject (h : Heap) (o : ObjectId) : String :=
  let x := h.get o
  Text.record x.owner.name
    ((x.decl.fields.zip x.slots).map fun p => (p.1.name, h.inspect p.2))

end Heap

end GraphCodec
