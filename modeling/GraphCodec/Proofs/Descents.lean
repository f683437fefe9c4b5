import GraphCodec.Codec.Setup
import GraphCodec.Object.Heap

/-!
# Errors — the way to a failure

An error that comes out of a pass has one wrapper for each field on the way to the place where it
was raised.  `Descends` follows the fields of the wrappers through a graph, from object to object,
and `Pinpoints` says that there is such a way for an error and that what was raised at its end is
the root of the error.  What a pass knows of a place in the graph goes along as a label: a pass of
copying knows nothing, a pass of writing knows how the value is to be written.

* `kind_root`, `source?_root`: the root of an error is of its kind, and is not wrapped.
* `Pinpoints.into`: one more wrapper is one more step of the way.
-/

namespace GraphCodec

namespace CodecError

/-- The fields of the wrappers with their classes, outermost first. -/
def fields : CodecError → List (ClassId × String)
  | inField owner field source => (owner, field) :: source.fields
  | _ => []

theorem kind_root (e : CodecError) : e.root.kind = e.kind := by
  induction e with
  | inField _ _ _ ih => exact ih
  | _ => rfl

theorem source?_root (e : CodecError) : e.root.source? = none := by
  induction e with
  | inField _ _ _ ih => exact ih
  | _ => rfl

/-- An error is its root with the wrappers around it. -/
theorem foldr_fields_root (e : CodecError) :
    e.fields.foldr (fun p x => inField p.1 p.2 x) e.root = e := by
  induction e with
  | inField owner field _ ih => exact congrArg (inField owner field) ih
  | _ => rfl

end CodecError

namespace Codec

variable {L : Type} {c : Codec} {h : Heap} {part : FieldEntry → Bool}
  {step : L → RecordSerializer → FieldEntry → L → Prop}

/-- The fields lead from one value to another: the first one is a field of the object that the value
is, its slot holds the next object, and so on.  Each field is in the field table of the object's
class and takes part, and `step` says what becomes of the label there. -/
inductive Descends (c : Codec) (h : Heap) (part : FieldEntry → Bool)
    (step : L → RecordSerializer → FieldEntry → L → Prop) :
    L → Value → List (ClassId × String) → List ObjectId → L → Value → Prop
  | here (l : L) (v : Value) : Descends c h part step l v [] [] l v
  | into {l m l' : L} {o : ObjectId} {r : RecordSerializer} {e : FieldEntry} {w v : Value}
      {fields : List (ClassId × String)} {objects : List ObjectId}
      (hr : c.record (.object (h.get o).owner) = .ok r) (he : e ∈ r.entries) (hp : part e = true)
      (hw : (h.get o).slots[e.slot.index]? = some w) (hl : step l r e m)
      (rest : Descends c h part step m w fields objects l' v) :
      Descends c h part step l (.object o) (((h.get o).owner, e.name) :: fields) (o :: objects) l' v

/-- The wrappers of the error lead from the value to a place where its root is raised. -/
def Pinpoints (c : Codec) (h : Heap) (part : FieldEntry → Bool)
    (step : L → RecordSerializer → FieldEntry → L → Prop)
    (raised : List ObjectId → L → Value → CodecError → Prop) (l : L) (v : Value) (x : CodecError) :
    Prop :=
  ∃ objects l' w, c.Descends h part step l v x.fields objects l' w ∧ raised objects l' w x.root

namespace Pinpoints

variable {raised raised' : List ObjectId → L → Value → CodecError → Prop} {l m : L} {v w : Value}
  {x : CodecError}

/-- What is raised at the value itself has no wrappers. -/
theorem here (hx : x.source? = none) (h' : raised [] l v x) :
    c.Pinpoints h part step raised l v x := by
  cases x with
  | inField => cases hx
  | _ => exact ⟨[], l, v, .here l v, h'⟩

/-- Out of a field comes an error with one more wrapper. -/
theorem into {o : ObjectId} {r : RecordSerializer} {e : FieldEntry}
    (hr : c.record (.object (h.get o).owner) = .ok r) (he : e ∈ r.entries) (hp : part e = true)
    (hw : (h.get o).slots[e.slot.index]? = some w) (hl : step l r e m)
    (hx : c.Pinpoints h part step (fun objects => raised (o :: objects)) m w x) :
    c.Pinpoints h part step raised l (.object o) (.inField (h.get o).owner e.name x) := by
  obtain ⟨objects, l', u, hd, hraised⟩ := hx
  exact ⟨o :: objects, l', u, .into hr he hp hw hl hd, hraised⟩

end Pinpoints

end Codec

end GraphCodec
