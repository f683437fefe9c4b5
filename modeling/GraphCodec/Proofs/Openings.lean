import Mathlib.Logic.Relation
import GraphCodec.Proofs.Totality

/-!
# Reading — objects that take no byte

Where objects do not keep their identity, an object whose place must not be null starts with no
byte of its own.  It takes bytes only through its fields, and it takes none at all if each of them
holds such an object again: then it is *weightless*.  What an object holds is determined by its
`Opening`, the serializer and the type arguments it is read with and the scopes around it.

An opening *falls* into another one where a field leads to it before a byte was taken.  Reading then
has got one level deeper and is where it was in the input.
-/

namespace GraphCodec

/-! ### Openings -/

/-- An object that is about to be read: its serializer and its type arguments, and the scopes
around it. -/
structure Opening where
  record : RecordSerializer
  args : List ConcreteType
  scopes : ScopeStack

/-- Inside these scopes, the frame is one for the object. -/
structure Frame.Opens (f : Frame) (scopes : ScopeStack) (s : Opening) : Prop where
  serializer : f.serializer = .record s.record
  args : f.args = s.args
  scopes : s.scopes = scopes

theorem Frame.Opens.record_mem {rs : List RecordSerializer} {f : Frame} {scopes : ScopeStack}
    {s : Opening} (hf : f.Opens scopes s) (hserved : Served rs f.type f.serializer) :
    s.record ∈ rs := by
  obtain ⟨t, x, args, nullable⟩ := f
  obtain ⟨rfl, -, -⟩ := hf
  cases hserved with
  | record hr => exact hr

/-- A frame is one for a value of a built-in type, or for an object. -/
theorem Frame.stock_or_opens {rs : List RecordSerializer} {f : Frame}
    (hserved : Served rs f.type f.serializer) (scopes : ScopeStack) :
    (∃ x, f.type.stock? = some x ∧ f.serializer = .stock x) ∨
      ∃ s : Opening, f.Opens scopes s ∧ s.record ∈ rs := by
  obtain ⟨t, x, args, nullable⟩ := f
  cases hserved with
  | stock hx => exact .inl ⟨_, hx, rfl⟩
  | record hr => exact .inr ⟨⟨_, args, scopes⟩, ⟨rfl, rfl, rfl⟩, hr⟩

namespace Codec

variable {c : Codec} {rs : List RecordSerializer} {s s' : Opening} {own : Option TypeScope}
  {e : FieldEntry}

/-- How a field of the object is read, under what its type arguments bind. -/
def planIn (c : Codec) (s : Opening) (own : Option TypeScope) (e : FieldEntry) :
    Except CodecError Plan :=
  e.plan c (s.record.fieldType own (s.scopes.enter own) e)

/-- The field holds the object `s'`, with no byte in front of it. -/
def HoldsBare (c : Codec) (s : Opening) (own : Option TypeScope) (e : FieldEntry) (s' : Opening) :
    Prop :=
  ∃ f, c.planIn s own e = .ok (.known f) ∧ f.nullable = false ∧ f.Opens (s.scopes.enter own) s'

/-- Reading the object ends well and takes no byte: each of its fields holds such an object. -/
inductive Weightless (c : Codec) : Opening → Prop
  | intro {s : Opening} {own : Option TypeScope} (next : FieldEntry → Opening)
      (hown : s.record.bindings s.args = .ok own) (made : s.record.decl.constructible = true)
      (holds : ∀ e ∈ s.record.entries, e.serialized = true → c.HoldsBare s own e (next e))
      (fields : ∀ e ∈ s.record.entries, e.serialized = true → Weightless c (next e)) :
      Weightless c s

/-- The field holds a weightless object. -/
def HoldsWeightless (c : Codec) (s : Opening) (own : Option TypeScope) (e : FieldEntry) : Prop :=
  ∃ s', c.HoldsBare s own e s' ∧ c.Weightless s'

/-- A field of the object `s` leads to `s'` before a byte was taken. -/
def Falls (c : Codec) (s s' : Opening) : Prop :=
  ∃ own before e after, s.record.bindings s.args = .ok own ∧
    s.record.decl.constructible = true ∧ s.record.entries = before ++ e :: after ∧
    e.serialized = true ∧ c.HoldsBare s own e s' ∧
    ∀ e' ∈ before, e'.serialized = true → c.HoldsWeightless s own e'

/-- A field of the object `s` may hold `s'`, with any bytes in front of it. -/
def Leads (c : Codec) (s s' : Opening) : Prop :=
  ∃ own e f, s.record.bindings s.args = .ok own ∧ e ∈ s.record.entries ∧
    (c.planIn s own e = .ok (.known f) ∨
      c.planIn s own e = .ok .dynamic ∧ ∃ n x, c.registrationAt? n = some x ∧ f = x.frame) ∧
    f.Opens (s.scopes.enter own) s'

/-- Reading the object never falls on and on, wherever it gets. -/
def Grounded (c : Codec) (s : Opening) : Prop :=
  ∀ s', Relation.ReflTransGen c.Leads s s' → Acc (fun a b => c.Falls b a) s'

theorem Falls.leads (h : c.Falls s s') : c.Leads s s' := by
  obtain ⟨own, before, e, after, hown, -, hentries, -, ⟨f, hplan, -, hf⟩, -⟩ := h
  exact ⟨own, e, f, hown, by simp [hentries], .inl hplan, hf⟩

theorem Grounded.leads (h : c.Grounded s) (hs : c.Leads s s') : c.Grounded s' :=
  fun t ht => h t (ht.head hs)

section

variable (hc : c.Lists rs)
include hc

/-- What stands in a planned frame has a serializer of the codec. -/
theorem served_of_planIn (hs : s.record ∈ rs) (he : e ∈ s.record.entries) {f : Frame}
    (hplan : c.planIn s own e = .ok (.known f)) :
    Served rs f.type f.serializer ∧ f.nullable = e.nullable :=
  have h := hc.served_of_plan ((hc.plain _ hs).follows.bare e he) hplan
  ⟨h.1, h.2.1⟩

theorem Leads.record_mem (hs : s.record ∈ rs) (h : c.Leads s s') : s'.record ∈ rs := by
  obtain ⟨own, e, f, -, he, hplan | ⟨-, n, x, hx, rfl⟩, hf⟩ := h
  · exact hf.record_mem (served_of_planIn hc hs he hplan).1
  · exact hf.record_mem (hc.served_of_registrationAt? hx)

/-- Nothing falls where all fields may be null. -/
theorem grounded_of_nullable (hnull : ∀ r ∈ rs, ∀ e ∈ r.entries, e.nullable = true)
    (hs : s.record ∈ rs) : c.Grounded s := by
  intro t ht
  have hmem : t.record ∈ rs := by
    induction ht with
    | refl => exact hs
    | tail _ h ih => exact h.record_mem hc ih
  refine ⟨t, fun u hu => ?_⟩
  obtain ⟨own, before, e, after, -, -, hentries, -, ⟨f, hplan, hf, -⟩, -⟩ := hu
  have he : e ∈ t.record.entries := by simp [hentries]
  rw [(served_of_planIn hc hmem he hplan).2, hnull _ hmem e he] at hf
  cases hf

end

end Codec

end GraphCodec
