import GraphCodec.Codec.Setup
import GraphCodec.Proofs.Cells

/-!
# Codecs — a codec and its records

`c.Lists rs` says what a codec `c` has that was only given classes: the built-in types come first
among its registrations, then one plain record serializer for each class of `rs`, and the cells of
`rs` are quiet.  All later modules look a codec up through this list.

* `served_of_serializer`: the serializer of a type is the one of the stock or one of the records.
* `served_of_plan`: so is the serializer in the frame of a field.
* `newInstance_eq`: a record's class has an instance exactly if it is constructible.
-/

namespace GraphCodec

/-- The serializer of the stock that every codec has for a built-in type. -/
def ValueType.stock? : ValueType → Option Stock
  | .bool => some .bool
  | .int => some .int
  | .long => some .long
  | .float => some .float
  | .double => some .double
  | .str => some .str
  | .object _ => none

theorem ValueType.isReference_of_stock? {t : ValueType} {s : Stock} (h : t.stock? = some s) :
    t.isReference = false := by
  cases t <;> cases h <;> rfl

/-- A record serializer under its class. -/
def Registration.ofRecord (r : RecordSerializer) : Registration :=
  ⟨r.decl.type, .record r, true⟩

/-- Built-in types are served by the stock, classes by the records. -/
inductive Served (rs : List RecordSerializer) : ValueType → Serializer → Prop
  | stock {t : ValueType} {s : Stock} (h : t.stock? = some s) : Served rs t (.stock s)
  | record {r : RecordSerializer} (h : r ∈ rs) : Served rs r.decl.type (.record r)

namespace Codec

/-- The codec has the built-in types and the plain record serializers `rs`, with quiet cells. -/
structure Lists (c : Codec) (rs : List RecordSerializer) : Prop where
  registrations : c.registrations = builtIns ++ rs.map .ofRecord
  ids : (rs.map fun r => r.decl.id).Nodup
  plain : ∀ r ∈ rs, r.Plain
  known : ∀ r ∈ rs, c.catalog.get? r.decl.id = some r.decl
  quiet : c.cells.Quiet rs

variable {c : Codec} {rs : List RecordSerializer}

/-! ### Looking up -/

theorem find_ofRecord (id : ClassId) (rs : List RecordSerializer) :
    (rs.map Registration.ofRecord).find? (fun x => x.type = .object id) =
      (rs.find? fun r => r.decl.id = id).map .ofRecord := by
  rw [List.find?_map]
  congr 2
  funext r
  simp [Registration.ofRecord, ClassDecl.type]

theorem Lists.registration?_stock (hc : c.Lists rs) {t : ValueType} {s : Stock}
    (h : t.stock? = some s) : c.registration? t = some ⟨t, .stock s, true⟩ := by
  simp only [registration?]
  rw [hc.registrations]
  cases t <;> cases h <;> rfl

theorem Lists.registration?_object (hc : c.Lists rs) (id : ClassId) :
    c.registration? (.object id) = (rs.find? fun r => r.decl.id = id).map .ofRecord := by
  simp only [registration?]
  rw [hc.registrations, ← find_ofRecord, List.find?_append]
  rfl

theorem Lists.find_id (hc : c.Lists rs) {r : RecordSerializer} (hr : r ∈ rs) :
    (rs.find? fun r' => r'.decl.id = r.decl.id) = some r := by
  obtain ⟨r', h⟩ := Option.isSome_iff_exists.mp
    (List.find?_isSome (p := fun r' => decide (r'.decl.id = r.decl.id)) |>.mpr ⟨r, hr, by simp⟩)
  have hid : r'.decl.id = r.decl.id := by simpa using List.find?_some h
  rw [h, List.inj_on_of_nodup_map hc.ids (List.mem_of_find?_eq_some h) hr hid]

theorem Lists.registration?_record (hc : c.Lists rs) {r : RecordSerializer} (hr : r ∈ rs) :
    c.registration? r.decl.type = some (.ofRecord r) := by
  rw [ClassDecl.type, hc.registration?_object, hc.find_id hr]
  rfl

/-- What a codec has for a type: the stock for a built-in one, a record for a class. -/
theorem Lists.served_of_registration? (hc : c.Lists rs) {t : ValueType} {x : Registration}
    (h : c.registration? t = some x) : x.type = t ∧ Served rs t x.serializer := by
  cases t with
  | object id =>
      rw [hc.registration?_object, Option.map_eq_some_iff] at h
      obtain ⟨r, hr, rfl⟩ := h
      obtain rfl : r.decl.id = id := by simpa using List.find?_some hr
      exact ⟨rfl, .record (List.mem_of_find?_eq_some hr)⟩
  | _ =>
      rw [hc.registration?_stock rfl] at h
      cases h
      exact ⟨rfl, .stock rfl⟩

/-- Only a type without a registration has no serializer. -/
theorem of_serializer_error {t : ValueType} {x : ConfigError} (h : c.serializer t = .error x) :
    c.registration? t = none ∧ x = .unregisteredType t := by
  simp only [serializer] at h
  split at h <;> cases h
  exact ⟨by assumption, rfl⟩

theorem Lists.served_of_serializer (hc : c.Lists rs) {t : ValueType} {s : Serializer}
    (h : c.serializer t = .ok s) : Served rs t s := by
  simp only [serializer] at h
  split at h
  · next x hx =>
    cases h
    exact (hc.served_of_registration? hx).2
  · cases h

theorem Lists.record_of_serializer (hc : c.Lists rs) {id : ClassId} {s : Serializer}
    (h : c.serializer (.object id) = .ok s) : ∃ r ∈ rs, r.decl.id = id ∧ s = .record r := by
  simp only [serializer] at h
  rw [hc.registration?_object] at h
  cases hf : rs.find? fun r => r.decl.id = id with
  | none =>
      rw [hf] at h
      cases h
  | some r =>
      rw [hf] at h
      cases h
      exact ⟨r, List.mem_of_find?_eq_some hf, by simpa using List.find?_some hf, rfl⟩

theorem Lists.served_of_registrationAt? (hc : c.Lists rs) {n : Nat} {x : Registration}
    (h : c.registrationAt? n = some x) : Served rs x.type x.serializer := by
  have hx := List.mem_of_getElem? h
  rw [hc.registrations, List.mem_append] at hx
  rcases hx with hx | hx
  · simp only [builtIns, List.mem_cons, List.not_mem_nil, or_false] at hx
    rcases hx with rfl | rfl | rfl | rfl | rfl | rfl <;> exact .stock rfl
  · obtain ⟨r, hr, rfl⟩ := List.mem_map.mp hx
    exact .record hr

theorem Lists.record_eq (hc : c.Lists rs) {r : RecordSerializer} (hr : r ∈ rs) :
    c.record (.object r.decl.id) = .ok r := by
  simp only [record]
  rw [← ClassDecl.type, hc.registration?_record hr]
  rfl

theorem Lists.mem_of_record (hc : c.Lists rs) {id : ClassId} {r : RecordSerializer}
    (h : c.record (.object id) = .ok r) : r ∈ rs ∧ r.decl.id = id := by
  simp only [record] at h
  rw [hc.registration?_object] at h
  cases hf : rs.find? fun r => r.decl.id = id with
  | none =>
      rw [hf] at h
      cases h
  | some r' =>
      rw [hf] at h
      cases h
      exact ⟨List.mem_of_find?_eq_some hf, by simpa using List.find?_some hf⟩

/-- The frame of a field without a serializer of its own. -/
theorem Lists.served_of_plan (hc : c.Lists rs) {e : FieldEntry} (he : e.serializer = none)
    {resolved : Option ConcreteType} {f : Frame} (h : e.plan c resolved = .ok (.known f)) :
    Served rs f.type f.serializer ∧ f.nullable = e.nullable ∧
      e.knownType resolved = some ⟨f.type, f.args⟩ := by
  simp only [FieldEntryOf.plan] at h
  rw [he] at h
  split at h
  · next h' _ => cases h'
  · next h' _ => cases h'
  · cases h
  · cases h
  · next t args _ _ _ hk =>
    cases hs : c.serializer t with
    | error e =>
        rw [hs] at h
        cases h
    | ok s =>
        rw [hs] at h
        cases h
        exact ⟨hc.served_of_serializer hs, rfl, hk⟩
  · cases h

theorem Lists.newInstance_eq (hc : c.Lists rs) {r : RecordSerializer} (hr : r ∈ rs) :
    c.newInstance r.decl.id =
      if r.decl.constructible then .ok (.fresh r.decl)
      else .error (.construction r.decl.id "class has no zero-argument construction") := by
  simp only [newInstance, classDecl]
  rw [hc.known r hr]
  rfl

end Codec

end GraphCodec
