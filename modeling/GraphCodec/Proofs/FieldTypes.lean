import GraphCodec.Codec.Pass
import GraphCodec.Proofs.Cells

/-!
# Codecs — fields of a known type

The declaration of a field, or a setting, can fix the type of its values whatever type parameters
are bound to (`rawType`).  Wherever such a field is met, its plan is one for this type
(`type?_of_rawType`).
-/

namespace GraphCodec

/-- The type of every value of the field, where it was set or is fixed by the declaration. -/
def FieldEntryOf.rawType {σ : Type} (e : FieldEntryOf σ) : Option ValueType :=
  e.valueType.or e.type.rawType

/-- The type that every value of a plan has, if there is one. -/
def Plan.type? : Plan → Option ValueType
  | .int => some .int
  | .long => some .long
  | .known f => some f.type
  | .dynamic => none

/-- The plan for a field whose type is known and that is bound to no serializer. -/
def Plan.ofType (c : Codec) (nullable : Bool) : ConcreteType → Except CodecError Plan
  | ⟨.int, _⟩ => .ok .int
  | ⟨.long, _⟩ => .ok .long
  | ⟨t, args⟩ => do
    let s ← (c.serializer t).mapError .config
    return .known ⟨t, s, args, nullable⟩

/-- Any other type has values inside frames of their own. -/
theorem Plan.ofType_of_serializer {c : Codec} {t : ValueType} {s : Serializer} (hint : t ≠ .int)
    (hlong : t ≠ .long) (hs : c.serializer t = .ok s) (nullable : Bool)
    (args : List ConcreteType) :
    Plan.ofType c nullable ⟨t, args⟩ = .ok (.known ⟨t, s, args, nullable⟩) := by
  cases t with
  | int => exact absurd rfl hint
  | long => exact absurd rfl hlong
  | _ =>
      rw [Plan.ofType, hs]
      · rfl
      · exact nofun
      · exact nofun

theorem FieldType.resolve_of_rawType {t : FieldType} {u : ValueType} (h : t.rawType = some u)
    (lookup : String → Option ConcreteType) : ∃ args, t.resolve lookup = some ⟨u, args⟩ := by
  cases t <;> cases h <;> exact ⟨_, rfl⟩

/-- What a field comes to is what its declaration comes to under some bindings, if anything. -/
theorem RecordSerializerOf.resolved_eq {r : RecordSerializer} {args : List ConcreteType}
    {own : Option Resolution} (hown : r.own args = .ok own) (scopes : ScopeStack) {index : Nat}
    {e : FieldEntry} (he : r.entries[index]? = some e) :
    r.resolved own scopes index e = none ∨
      ∃ lookup, r.resolved own scopes index e = e.type.resolve lookup := by
  simp only [resolved]
  split
  · exact .inl rfl
  · next hgeneric =>
    have hgen : e.isGeneric = true := by
      cases hg : e.isGeneric
      · simp [hg] at hgeneric
      · rfl
    cases own with
    | none =>
        -- the bindings are those of the innermost scope, if there is one
        simp only
        split
        · exact .inl rfl
        · exact .inr ⟨_, rfl⟩
    | some s =>
        -- the bindings are those of the arguments that were left
        simp only [RecordSerializerOf.own] at hown
        split at hown
        · cases hown
        · cases hs : Resolution.of r args with
          | error x =>
              rw [hs] at hown
              cases hown
          | ok s =>
              rw [hs] at hown
              cases hown
              obtain ⟨scope, rfl⟩ := Resolution.eq_of_ok hs
              refine .inr ⟨scope.get?, ?_⟩
              simp [Resolution.field?, he, hgen]

namespace FieldEntryOf

theorem knownType_of_rawType {e : FieldEntry} {t : ValueType} (ht : e.rawType = some t)
    {resolved : Option ConcreteType}
    (hres : resolved = none ∨ ∃ lookup, resolved = e.type.resolve lookup) :
    ∃ args, e.knownType resolved = some ⟨t, args⟩ := by
  simp only [rawType] at ht
  simp only [knownType]
  cases hv : e.valueType with
  | some u =>
      rw [hv] at ht
      cases ht
      exact ⟨_, rfl⟩
  | none =>
      rw [hv] at ht
      rcases hres with rfl | ⟨lookup, rfl⟩
      · exact FieldType.resolve_of_rawType ht _
      · obtain ⟨args, h⟩ := FieldType.resolve_of_rawType ht lookup
        exact ⟨args, by rw [h]; rfl⟩

/-- Nothing is known of a field where nothing is fixed and nothing bound. -/
theorem knownType_of_rawType_none {e : FieldEntry} (ht : e.rawType = none) :
    e.knownType none = none := by
  obtain ⟨hv, ht⟩ := Option.or_eq_none_iff.mp ht
  simp only [knownType, hv]
  cases hty : e.type <;> rw [hty] at ht <;> cases ht <;> rfl

/-- What is known of a field without bindings is what its declaration alone tells. -/
theorem plan_none {c : Codec} (e : FieldEntry) : e.plan c none = e.plan c e.type.unbound := by
  have hk : e.knownType none = e.knownType e.type.unbound := by
    simp only [knownType]
    cases e.type.unbound <;> rfl
  simp only [plan, hk]

theorem plan_of_knownType {c : Codec} {e : FieldEntry} (he : e.serializer = none)
    {resolved : Option ConcreteType} {t : ConcreteType} (hk : e.knownType resolved = some t) :
    e.plan c resolved = Plan.ofType c e.nullable t := by
  obtain ⟨t, args⟩ := t
  simp only [plan, he, hk]
  cases t <;> rfl

theorem type?_of_plan {c : Codec} {e : FieldEntry} (he : e.serializer = none)
    {resolved : Option ConcreteType} {p : Plan} (hp : e.plan c resolved = .ok p) :
    p.type? = (e.knownType resolved).map ConcreteType.base := by
  simp only [plan] at hp
  rw [he] at hp
  split at hp
  · next h _ => cases h
  · next h _ => cases h
  · next hk =>
    cases hp
    rw [hk]
    rfl
  · next hk =>
    cases hp
    rw [hk]
    rfl
  · next t args _ _ _ hk =>
    cases hs : c.serializer t with
    | error e =>
        rw [hs] at hp
        cases hp
    | ok s =>
        rw [hs] at hp
        cases hp
        rw [hk]
        rfl
  · next hk =>
    cases hp
    rw [hk]
    rfl

/-- **A field of a known type is planned for it**, whatever type parameters are bound to. -/
theorem type?_of_rawType {c : Codec} {e : FieldEntry} (he : e.serializer = none) {t : ValueType}
    (ht : e.rawType = some t) {resolved : Option ConcreteType}
    (hres : resolved = none ∨ ∃ lookup, resolved = e.type.resolve lookup) {p : Plan}
    (hp : e.plan c resolved = .ok p) : p.type? = some t := by
  obtain ⟨args, hk⟩ := knownType_of_rawType ht hres
  rw [type?_of_plan he hp, hk]
  rfl

end FieldEntryOf

end GraphCodec
