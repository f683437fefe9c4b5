import GraphCodec.Proofs.Direct
import GraphCodec.Proofs.FieldTypes

/-!
# Codecs — with and without optimised generics

Two codecs are *twins* if they differ in one option only: the first one hands type arguments on from
each object to its fields, and the second one does not.  The second one knows the type of a field
only where the declaration or a setting fixes it, and puts a type tag in front of the value
elsewhere.

What the first one can write, the second one can write as well (`allows_writeDirect`).  Where both
know the type of a value it is the same one, and where only the first one does, a value that it
takes is null or of a registered type, so that there is a tag for it.  Both meet the same objects in
the same order, whatever they write of them.
-/

namespace GraphCodec

/-! ### Twins -/

/-- The serializers treat the same fields in the same way, the first one with optimised generics and
the second one without. -/
structure RecordSerializerOf.Twin (r s : RecordSerializer) : Prop where
  decl : s.decl = r.decl
  entries : s.entries = r.entries
  optimized : r.options.optimizedGenerics = true
  options : s.options = { r.options with optimizedGenerics := false }

/-- The same serializer of the stock, or two record serializers of which only the first one has
optimised generics. -/
inductive Serializer.Twin : Serializer → Serializer → Prop
  | stock (x : Stock) : Twin (.stock x) (.stock x)
  | record {r s : RecordSerializer} (h : r.Twin s) : Twin (.record r) (.record s)

/-- Registrations of one type with such serializers. -/
structure Registration.Twin (x y : Registration) : Prop where
  type : y.type = x.type
  exposed : y.exposed = x.exposed
  serializer : x.serializer.Twin y.serializer

/-- The codecs differ only in that the record serializers of the first one have optimised generics,
and those of the second one have not. -/
structure Codec.Twins (c k : Codec) : Prop where
  registrations : List.Forall₂ Registration.Twin c.registrations k.registrations
  references : k.references = c.references

/-- How the same field is planned by the first and by the second of two twins. -/
inductive Plan.Twin (rs rs' : List RecordSerializer) : Plan → Plan → Prop
  | int : Twin rs rs' .int .int
  | long : Twin rs rs' .long .long
  | known {f g : Frame} (first : Served rs f.type f.serializer)
      (second : Served rs' g.type g.serializer) (type : g.type = f.type)
      (nullable : g.nullable = f.nullable) : Twin rs rs' (.known f) (.known g)
  | untyped {p : Plan} (served : ∀ f, p = .known f → Served rs f.type f.serializer) :
      Twin rs rs' p .dynamic

/-- Both writers have met the same objects. -/
structure WriteState.Apace (st st' : WriteState) : Prop where
  numbering : st'.numbering = st.numbering
  path : st'.path = st.path

namespace Codec

open Pass

variable {c k : Codec} {rs rs' : List RecordSerializer} {h : Heap} {v : Value} {e : FieldEntry}

section

variable (ht : c.Twins k) (hc : c.Lists rs) (hk : k.Lists rs')
include ht hc hk

theorem Twins.records : List.Forall₂ RecordSerializerOf.Twin rs rs' := by
  have hall : List.Forall₂ Registration.Twin (rs.map .ofRecord) (rs'.map .ofRecord) := by
    have h := List.forall₂_drop 6 ht.registrations
    rwa [hc.registrations, hk.registrations] at h
  refine (List.forall₂_map_left_iff.mp (List.forall₂_map_right_iff.mp hall)).imp ?_
  rintro r s ⟨-, -, hser⟩
  cases hser with
  | record h => exact h

/-- What the first codec has for a type, the second one has too. -/
theorem Twins.registration? {t : ValueType} {s : Serializer} (hs : Served rs t s) :
    ∃ y, k.registration? t = some y ∧ y.type = t ∧ Served rs' t y.serializer := by
  cases hs with
  | stock hx => exact ⟨_, hk.registration?_stock hx, rfl, .stock hx⟩
  | record hr =>
      obtain ⟨s, hs, hrs⟩ := exists_mem_of_forall₂ (ht.records hc hk) hr
      rw [← show s.decl.type = _ from congrArg ClassDecl.type hrs.decl]
      exact ⟨_, hk.registration?_record hs, rfl, .record hs⟩

theorem Twins.serializer {t : ValueType} {s : Serializer} (hs : Served rs t s) :
    ∃ s', k.serializer t = .ok s' ∧ Served rs' t s' := by
  obtain ⟨y, hy, -, hserved⟩ := ht.registration? hc hk hs
  exact ⟨y.serializer, by rw [Codec.serializer, hy], hserved⟩

/-- Both serve a type with twins. -/
theorem Twins.served {t : ValueType} {s s' : Serializer} (hs : Served rs t s)
    (hs' : Served rs' t s') : s.Twin s' := by
  cases hs with
  | stock hx =>
      cases hs' with
      | stock hx' =>
          rw [hx] at hx'
          cases hx'
          exact .stock _
      | record => cases hx
  | @record r hr =>
      obtain ⟨s, hs, hrs⟩ := exists_mem_of_forall₂ (ht.records hc hk) hr
      generalize htype : r.decl.type = t at hs'
      cases hs' with
      | stock hx =>
          rw [← htype] at hx
          cases hx
      | @record s' hs' =>
          have hid : s'.decl.id = s.decl.id := by
            rw [hrs.decl]
            exact (ValueType.object.inj htype).symm
          rw [List.inj_on_of_nodup_map hk.ids hs' hs hid]
          exact .record hrs

/-- Where the first codec has a plan for a field, the second one has one for the type that is fixed,
if there is one. -/
theorem Twins.plan (he : e.serializer = none) {resolved : Option ConcreteType}
    (hres : resolved = none ∨ ∃ lookup, resolved = e.type.resolve lookup) {p : Plan}
    (hp : e.plan c resolved = .ok p) :
    ∃ p', e.plan k none = .ok p' ∧ Plan.Twin rs rs' p p' := by
  cases hraw : e.rawType with
  | none =>
      have hk₂ : e.knownType none = none := e.knownType_of_rawType_none hraw
      refine ⟨.dynamic, by simp [FieldEntryOf.plan, he, hk₂], .untyped fun f hf => ?_⟩
      exact (hc.served_of_plan he (hf ▸ hp)).1
  | some t =>
      obtain ⟨args, hk₁⟩ := FieldEntryOf.knownType_of_rawType hraw hres
      obtain ⟨args', hk₂⟩ := FieldEntryOf.knownType_of_rawType hraw (.inl rfl)
      rw [FieldEntryOf.plan_of_knownType he hk₁] at hp
      simp only [FieldEntryOf.plan_of_knownType he hk₂]
      cases t with
      | int =>
          cases hp
          exact ⟨_, rfl, .int⟩
      | long =>
          cases hp
          exact ⟨_, rfl, .long⟩
      | _ =>
          obtain ⟨s, hs, ⟨⟩⟩ := except_bind_eq_ok.mp hp
          have hserved := hc.served_of_serializer (except_mapError_eq_ok.mp hs)
          obtain ⟨s', hs', hserved'⟩ := ht.serializer hc hk hserved
          exact ⟨.known ⟨_, s', args', e.nullable⟩, by simp only [Plan.ofType, hs']; rfl,
            .known hserved hserved' rfl rfl⟩

end

/-! ### Parts of a pass -/

theorem allows_item (i i' : Item) :
    Allows WriteState.Apace (WriteM.item i) (WriteM.item i') :=
  allows_modify fun _ _ hst => { hst with }

theorem allows_varint (n n' : Nat) :
    Allows WriteState.Apace (WriteM.varint n) (WriteM.varint n') :=
  allows_modify fun _ _ hst => { hst with }

theorem keeps_apace_item (i : Item) (st' : WriteState) :
    Keeps (fun st => WriteState.Apace st st') (WriteM.item i) :=
  keeps_modify fun _ hst => { hst with }

theorem keeps_apace_varint (n : Nat) (st' : WriteState) :
    Keeps (fun st => WriteState.Apace st st') (WriteM.varint n) :=
  keeps_modify fun _ hst => { hst with }

theorem allows_inScope (scope scope' : Option TypeScope) {m m' : WriteM Unit}
    (hm : Allows WriteState.Apace m m') :
    Allows WriteState.Apace (WriteM.inScope scope m) (WriteM.inScope scope' m') := by
  intro st st' hst a t hr
  have hin : WriteState.Apace { st with typing := st.typing.enter scope }
      { st' with typing := st'.typing.enter scope' } := { hst with }
  simp only [WriteM.inScope] at hr ⊢
  rcases hrun : m { st with typing := st.typing.enter scope } with ⟨x, t₁⟩
  rw [hrun] at hr
  cases hr
  rcases hm _ _ hin a t₁ hrun with hdeep | ⟨t', hrun', ht⟩
  · exact .inl hdeep
  · rw [hrun']
    exact .inr ⟨_, rfl, { ht with }⟩

theorem allows_onPath (o : ObjectId) (owner : ClassId) {m m' : WriteM Unit}
    (hm : Allows WriteState.Apace m m') :
    Allows WriteState.Apace (WriteM.onPath o owner m) (WriteM.onPath o owner m') := by
  intro st st' hst a t hr
  by_cases ho : o ∈ st.path
  · rw [WriteM.onPath_of_mem ho] at hr
    cases hr
  · have hin : WriteState.Apace { st with path := o :: st.path }
        { st' with path := o :: st'.path } := { hst with path := by rw [hst.path] }
    rw [WriteM.onPath_of_not_mem ho] at hr
    rw [WriteM.onPath_of_not_mem (hst.path ▸ ho)]
    rcases hrun : m { st with path := o :: st.path } with ⟨x, t₁⟩
    rw [hrun] at hr
    cases hr
    rcases hm _ _ hin a t₁ hrun with hdeep | ⟨t', hrun', ht⟩
    · exact .inl hdeep
    · rw [hrun']
      exact .inr ⟨_, rfl, { ht with path := congrArg (List.erase · o) ht.path }⟩

theorem allows_meet (o : ObjectId) :
    Allows WriteState.Apace (WriteM.meet o) (WriteM.meet o) := by
  have hmeet : ∀ st, WriteM.meet o st =
      (.ok (st.numbering.meet o).1, { st with numbering := (st.numbering.meet o).2 }) :=
    fun _ => rfl
  intro st st' hst a t hr
  rw [hmeet] at hr ⊢
  cases hr
  rw [hst.numbering]
  exact .inr ⟨_, rfl, { hst with numbering := rfl }⟩

/-! ### Values of a type -/

/-- Once the type was required, it is that of the value, unless the value is null. -/
theorem allows_requireType_bind {α : Type} {t : ValueType} {m m' : WriteM α}
    (hm : (∀ u, h.typeOf v = some u → u = t) → Allows WriteState.Apace m m') :
    Allows WriteState.Apace (requireType h t v >>= fun _ => m) m' := by
  by_cases hv : ∀ u, h.typeOf v = some u → u = t
  · rw [requireType_of_typeOf hv]
    exact hm hv
  · obtain ⟨u, hu, hne⟩ : ∃ u, h.typeOf v = some u ∧ u ≠ t := by
      simpa only [not_forall, exists_prop] using hv
    simp only [requireType, hu, if_neg hne, fail_bind]
    exact allows_fail _ _

theorem keeps_writePresence (e : FieldEntry) (v : Value) (st' : WriteState) :
    Keeps (fun st => WriteState.Apace st st') (writePresence e v) := by
  simp only [writePresence]
  split
  · exact keeps_apace_item _ _
  · exact keeps_pure _

theorem allows_writePresence (e : FieldEntry) (v : Value) :
    Allows WriteState.Apace (writePresence e v) (writePresence e v) := by
  simp only [writePresence]
  split
  · exact allows_item _ _
  · exact allows_pure _

section

variable (ht : c.Twins k) (hc : c.Lists rs) (hk : k.Lists rs')
  {nested nested' : Frame → Value → WriteM Unit}

/-! ### Fields -/

section

include ht hc hk

/-- A value of a type that the first codec knows is written behind its tag. -/
theorem allows_tag_bind {m : WriteM Unit} {t : ValueType} {s : Serializer}
    (hv : h.typeOf v = some t) (hs : Served rs t s)
    (hm : ∀ y : Registration, y.type = t → Served rs' t y.serializer →
      Allows WriteState.Apace m (nested' y.frame v)) :
    Allows WriteState.Apace m (k.writeTagged h nested' v) := by
  obtain ⟨y, hy, htype, hserved⟩ := ht.registration? hc hk hs
  obtain ⟨n, hn⟩ := writeTag_of_registration? hv hy
  simp only [writeTagged, hn, bind_assoc, pure_bind]
  exact allows_bind_of_ok (fun st st' hst => ⟨_, rfl, { hst with }⟩) (hm y htype hserved)

end

variable
  (hn : ∀ f g v, Served rs f.type f.serializer → Served rs' g.type g.serializer →
    g.type = f.type → (v.isNull = true → g.nullable = f.nullable) →
      Allows WriteState.Apace (nested f v) (nested' g v))
  (hnull : ∀ f st', Keeps (fun st => WriteState.Apace st st') (nested f .null))
  (hplain : ∀ g v, Served rs' g.type g.serializer → h.typeOf v = some g.type →
    (∀ o, v ≠ .object o) → Allows WriteState.Apace (pure ()) (nested' g v))

include hplain hk in
/-- What is not an object is written with a type tag, whatever it is. -/
theorem allows_writeTagged_plain (hv : ∀ o, v ≠ .object o) :
    Allows WriteState.Apace (pure ()) (k.writeTagged h nested' v) := by
  cases htype : h.typeOf v with
  | none =>
      simp only [writeTagged, writeTag, htype, bind_assoc, pure_bind]
      exact allows_bind_of_ok (fun st st' hst => ⟨_, rfl, { hst with }⟩) (allows_pure ())
  | some t =>
      obtain ⟨x, hx⟩ : ∃ x, t.stock? = some x := by
        cases v with
        | object o => exact absurd rfl (hv o)
        | _ => cases htype <;> exact ⟨_, rfl⟩
      have hy := hk.registration?_stock hx
      obtain ⟨n, hn⟩ := writeTag_of_registration? htype hy
      simp only [writeTagged, hn, bind_assoc, pure_bind]
      exact allows_bind_of_ok (fun st st' hst => ⟨_, rfl, { hst with }⟩)
        (hplain _ _ (.stock hx) htype hv)

include hplain hk in
/-- What is written where a plain type is required is not an object. -/
theorem allows_number {t : ValueType} (htype : t.isReference = false) {m : WriteM Unit}
    (hm : ∀ st', Keeps (fun st => WriteState.Apace st st') m) :
    Allows WriteState.Apace (requireType h t v >>= fun _ => m) (k.writeTagged h nested' v) := by
  refine allows_requireType_bind fun hv => ?_
  refine allows_of_keeps hm (allows_writeTagged_plain hk hplain fun o ho => ?_)
  rw [ho] at hv
  rw [← hv _ rfl] at htype
  cases htype

include ht hc hk hn in
theorem allows_writeTagged (v : Value) :
    Allows WriteState.Apace (c.writeTagged h nested v) (k.writeTagged h nested' v) := by
  have htag : ∀ st', Keeps (fun st => WriteState.Apace st st') (c.writeTag h v) := by
    intro st'
    simp only [writeTag]
    split
    · exact keeps_bind (keeps_apace_varint _ _) fun _ _ => keeps_pure _
    · split
      · exact keeps_bind (keeps_apace_varint _ _) fun _ _ => keeps_pure _
      · exact keeps_fail _
  refine allows_keeps_bind htag fun x hx => ?_
  rcases writeTag_returns hx with ⟨rfl, rfl⟩ | ⟨t, x, rfl, htype, hx⟩
  · exact allows_bind_of_ok (fun st st' hst => ⟨_, rfl, { hst with }⟩) (allows_pure ())
  · obtain ⟨rfl, hserved⟩ := hc.served_of_registration? hx
    refine allows_tag_bind ht hc hk htype hserved fun y hy hserved' => ?_
    have hframe : Served rs' y.frame.type y.frame.serializer := by
      rw [show y.frame.type = x.type from hy]
      exact hserved'
    exact hn x.frame y.frame v hserved hframe hy fun _ => rfl

include ht hc hk hn in
theorem allows_writeFlat (v : Value) (args : List ConcreteType) :
    Allows WriteState.Apace (c.writeFlat h nested v args) (k.writeFlat h nested' v args) := by
  simp only [writeFlat]
  split
  · exact allows_fail _ _
  · next t _ =>
    cases hs : c.serializer t with
    | error e => exact allows_fail _ _
    | ok s =>
        have hserved := hc.served_of_serializer hs
        obtain ⟨s', hs', hserved'⟩ := ht.serializer hc hk hserved
        rw [hs']
        exact hn ⟨t, s, args, false⟩ ⟨t, s', args, false⟩ v hserved hserved' rfl fun _ => rfl

include ht hc hk hn hnull hplain

theorem allows_writePlanned {e : FieldEntry} {p p' : Plan} (hp : Plan.Twin rs rs' p p')
    (v : Value) :
    Allows WriteState.Apace (c.writePlanned h nested e v p) (k.writePlanned h nested' e v p') := by
  cases hp with
  | int =>
      refine allows_requireType_bind fun hv => ?_
      simp only [writePlanned, requireType_of_typeOf hv, pure_bind]
      refine allows_bind (allows_writePresence e v) fun _ _ => ?_
      cases v with
      | int n => exact allows_item _ _
      | _ => exact allows_pure _
  | long =>
      refine allows_requireType_bind fun hv => ?_
      simp only [writePlanned, requireType_of_typeOf hv, pure_bind]
      refine allows_bind (allows_writePresence e v) fun _ _ => ?_
      cases v with
      | long n => exact allows_item _ _
      | _ => exact allows_pure _
  | @known f g hf hg htype hnullable =>
      refine allows_requireType_bind fun hv => ?_
      simp only [writePlanned, htype, requireType_of_typeOf hv, pure_bind]
      exact hn f g v hf hg htype fun _ => hnullable
  | untyped hserved =>
      simp only [writePlanned]
      cases p with
      | dynamic => exact allows_writeTagged ht hc hk hn v
      | int =>
          refine allows_number hk hplain rfl fun st' => ?_
          refine keeps_bind (keeps_writePresence e v st') fun _ _ => ?_
          cases v with
          | int n => exact keeps_apace_item _ _
          | _ => exact keeps_pure _
      | long =>
          refine allows_number hk hplain rfl fun st' => ?_
          refine keeps_bind (keeps_writePresence e v st') fun _ _ => ?_
          cases v with
          | long n => exact keeps_apace_item _ _
          | _ => exact keeps_pure _
      | known f =>
          refine allows_requireType_bind fun hv => ?_
          cases htype : h.typeOf v with
          | none =>
              obtain rfl : v = .null := by cases v <;> first | rfl | cases htype
              exact allows_of_keeps (hnull f) (allows_writeTagged_plain hk hplain (by simp))
          | some t =>
              obtain rfl := hv t htype
              refine allows_tag_bind ht hc hk htype (hserved f rfl) fun y hy hserved' => ?_
              have hframe : Served rs' y.frame.type y.frame.serializer := by
                rw [show y.frame.type = f.type from hy]
                exact hserved'
              refine hn f y.frame v (hserved f rfl) hframe hy fun hv => ?_
              rw [Value.eq_null_of_isNull hv] at htype
              cases htype

theorem allows_writeField {r s : RecordSerializer} (hr : r ∈ rs) (hrs : r.Twin s) {e : FieldEntry}
    (he : e ∈ r.entries) (own own' : Option TypeScope) (scopes scopes' : ScopeStack)
    (o : ObjectId) :
    Allows WriteState.Apace (c.writeField h nested e o (r.fieldType own scopes e))
      (k.writeField h nested' e o (s.fieldType own' scopes' e)) := by
  have hbare := (hc.plain r hr).follows.bare e he
  have hnone : s.fieldType own' scopes' e = none := by
    simp [RecordSerializerOf.fieldType, hrs.options]
  rw [hnone]
  cases hg : e.slot.get h o with
  | error x =>
      rw [writeField_of_error _ _ _ hg]
      exact allows_fail _ _
  | ok v =>
      rw [writeField_of_get _ _ _ hg, writeField_of_get _ _ _ hg]
      split
      · exact allows_fail _ _
      · cases hp : e.plan c (r.fieldType own scopes e) with
        | error x => exact allows_fail _ _
        | ok p =>
            obtain ⟨p', hp', htwin⟩ := ht.plan hc hk hbare (r.fieldType_eq own scopes e) hp
            rw [hp']
            exact allows_writePlanned ht hc hk hn hnull hplain htwin v

theorem allows_writeFieldsDirect {r s : RecordSerializer} (hr : r ∈ rs) (hrs : r.Twin s)
    (own own' : Option TypeScope) (o : ObjectId) {t : FieldTable} (hsub : ∀ e ∈ t, e ∈ r.entries) :
    Allows WriteState.Apace (c.writeFieldsDirect h nested r own o t)
      (k.writeFieldsDirect h nested' s own' o t) := by
  induction t with
  | nil => exact allows_pure _
  | cons e t ih =>
      obtain ⟨he, hsub⟩ := List.forall_mem_cons.mp hsub
      simp only [writeFieldsDirect, hrs.decl]
      split
      · refine allows_get_bind fun st st' hst => ?_
        refine allows_bind (allows_inField ?_) fun _ _ => ih hsub
        exact allows_writeField ht hc hk hn hnull hplain hr hrs he _ _ _ _ o
      · exact ih hsub

theorem allows_writeWithDirect {t : ValueType} {s s' : Serializer} (hs : Served rs t s)
    (hs' : Served rs' t s') (args args' : List ConcreteType) (v : Value) :
    Allows WriteState.Apace (c.writeWithDirect h nested args s v)
      (k.writeWithDirect h nested' args' s' v) := by
  have htwin := ht.served hc hk hs hs'
  cases hs with
  | stock hx =>
      cases htwin
      cases t <;> cases hx <;> cases v <;> first | exact allows_item _ _ | exact allows_fail _ _
  | @record r hr =>
      cases htwin with
      | @record _ s hrs =>
          simp only [writeWithDirect, writeRecordDirect, hrs.decl, hrs.entries]
          have hunbound : s.bindings args' = .ok none := by
            simp [RecordSerializerOf.bindings, hrs.options]
          rw [hunbound]
          cases r.bindings args with
          | error x => exact allows_fail _ _
          | ok own =>
              simp only [Except.mapError, Pass.ofExcept, pure_bind]
              refine allows_bind (allows_ofExcept _) fun o _ => allows_inScope _ _ ?_
              exact allows_writeFieldsDirect ht hc hk hn hnull hplain hr hrs _ _ o fun _ he => he

end

/-! ### Frames -/

/-- A frame for null opens nothing. -/
theorem keeps_writeDirect_null (n : Nat) (f : Frame) (st' : WriteState) :
    Keeps (fun st => WriteState.Apace st st') (c.writeDirect h n f .null) := by
  cases n with
  | zero => exact fun _ hst => hst
  | succ n =>
      simp only [writeDirect, writeAround, Value.isNull, Bool.true_and, if_true]
      split <;> split <;>
        first | exact keeps_apace_varint _ _ | exact keeps_apace_item _ _ | exact keeps_fail _

/-- A plain value can be written inside a frame of its type. -/
theorem allows_writeDirect_plain (n : Nat) {g : Frame} (hg : Served rs' g.type g.serializer)
    (htype : h.typeOf v = some g.type) (hv : ∀ o, v ≠ .object o) :
    Allows WriteState.Apace (pure ()) (k.writeDirect h n g v) := by
  cases n with
  | zero => exact allows_tooDeep _
  | succ n =>
      obtain ⟨t, s, args, nullable⟩ := g
      have hitem : ∃ i, k.writeDirect h (n + 1) ⟨t, s, args, nullable⟩ v =
          (if nullable then WriteM.item (.bool true) else pure ()) >>= fun _ => WriteM.item i := by
        cases hg with
        | stock hx => cases t <;> cases hx <;> cases v <;> cases htype <;> exact ⟨_, rfl⟩
        | record =>
            cases v with
            | object o => exact absurd rfl (hv o)
            | _ => cases htype
      obtain ⟨i, hi⟩ := hitem
      rw [hi]
      refine allows_bind_of_ok (a := ()) (fun st st' hst => ?_) ?_
      · cases nullable
        · exact ⟨_, rfl, hst⟩
        · exact ⟨_, rfl, { hst with }⟩
      · rintro st st' hst _ _ ⟨⟩
        exact .inr ⟨_, rfl, { hst with }⟩

/-- A frame of the same type, in which null may stand too, is written around what is written. -/
theorem allows_writeAround (href : k.references = c.references) {f g : Frame}
    (htype : g.type = f.type) (hnull : v.isNull = true → g.nullable = f.nullable)
    {m m' : WriteM Unit} (hm : Allows WriteState.Apace m m') :
    Allows WriteState.Apace (c.writeAround h f v m) (k.writeAround h g v m') := by
  simp only [writeAround, htype, href]
  split
  · cases v with
    | object o =>
        refine allows_bind (allows_meet o) fun x _ => allows_bind (allows_varint _ _) fun _ _ => ?_
        split
        · exact hm
        · exact allows_pure _
    | null =>
        simp only [Value.isNull, Bool.true_and, hnull rfl]
        split
        · exact allows_varint _ _
        · exact allows_fail _ _
    | _ => exact allows_fail _ _
  · split
    · next hv =>
      rw [hnull hv]
      split
      · exact allows_item _ _
      · exact allows_fail _ _
    · refine allows_keeps_bind (fun st' => ?_) fun _ _ =>
        allows_bind_of_ok (a := ()) (fun st st' hst => ?_) ?_
      · split
        · exact keeps_apace_item _ _
        · exact keeps_pure _
      · split
        · exact ⟨_, rfl, { hst with }⟩
        · exact ⟨_, rfl, hst⟩
      · split
        · split
          · exact hm
          · exact allows_onPath _ _ hm
        · exact hm

/-- **What the first codec writes, the second one writes too**, unless the pass may not go deep
enough. -/
theorem allows_writeDirect (ht : c.Twins k) (hc : c.Lists rs) (hk : k.Lists rs') (n n' : Nat)
    (f g : Frame) (v : Value) (hf : Served rs f.type f.serializer)
    (hg : Served rs' g.type g.serializer) (htype : g.type = f.type)
    (hnull : v.isNull = true → g.nullable = f.nullable) :
    Allows WriteState.Apace (c.writeDirect h n f v) (k.writeDirect h n' g v) := by
  induction n generalizing n' f g v with
  | zero => exact nofun
  | succ n ih =>
      cases n' with
      | zero => exact allows_tooDeep _
      | succ n' =>
          refine allows_writeAround ht.references htype hnull ?_
          exact allows_writeWithDirect ht hc hk (fun f g v => ih n' f g v)
            (fun f st' => keeps_writeDirect_null n f st')
            (fun g v hg htype hv => allows_writeDirect_plain n' hg htype hv) hf (htype ▸ hg) _ _ v

end Codec

end GraphCodec
