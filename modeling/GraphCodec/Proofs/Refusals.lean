import GraphCodec.Proofs.Acceptance
import GraphCodec.Proofs.Copying
import GraphCodec.Proofs.Trails

/-!
# Errors — where passes fail

When writing or copying fails, the wrappers of the error lead to the place where its root was
raised (`errors_pinpoint`).  For copying the walk over the graph says so (`meets_copy_at`); for
writing it is shown here.  A `Site` is what the writer knows of a place before it looks at the
value: the objects that are open around it, whether null may stand there, and the plan.  `Refuses`
lists the reasons why a value is refused at a site, each with its error.

The proof follows the direct pass.  `Reports` says of a part of writing that it fails in a given
way only, as long as the path and the scopes are those of the open objects.
-/

namespace GraphCodec

/-- A place for a value, as the writer knows it before it looks at the value. -/
structure Site where
  /-- The objects that are open, innermost first. -/
  around : Trail
  nullable : Bool
  plan : Except CodecError Plan

namespace Site

/-- The type arguments that are handed to an object at the site. -/
def args (s : Site) : List ConcreteType :=
  match s.plan with
  | .ok (.known f) => f.args
  | _ => []

/-- The open objects with the one at the site in front, which has the serializer `r`. -/
def enter (s : Site) (r : RecordSerializer) : Trail := ⟨r, s.args⟩ :: s.around

/-- A value with a type tag in front of it. -/
def tagged : Site := ⟨[], true, .ok .dynamic⟩

/-- A value without a type tag, with type arguments. -/
def untagged (c : Codec) (h : Heap) (v : Value) (args : List ConcreteType) : Site where
  around := []
  nullable := false
  plan := match h.typeOf v with
    | some t => ((c.serializer t).mapError .config).map fun s => .known ⟨t, s, args, false⟩
    | none => .ok .dynamic

/-- A field of the object at the site. -/
def field (c : Codec) (s : Site) (r : RecordSerializer) (e : FieldEntry) : Site :=
  ⟨s.enter r, e.nullable, e.plan c ((s.enter r).fieldType r e)⟩

/-- From the object at the site, whose type arguments are in order, to one of its fields. -/
def Next (c : Codec) (s : Site) (r : RecordSerializer) (e : FieldEntry) (s' : Site) : Prop :=
  (∃ own, r.bindings s.args = .ok own) ∧ s' = s.field c r e

end Site

namespace Codec

open Pass

/-- Why a value is refused at a site, and with which error. -/
inductive Refuses (c : Codec) (h : Heap) (objects : List ObjectId) (s : Site) :
    Value → CodecError → Prop
  | null (hs : s.nullable = false) : Refuses c h objects s .null (.encode .nullValue)
  /-- The type of the site is not registered. -/
  | plan {v : Value} {t : ValueType} (hs : s.plan = .error (.config (.unregisteredType t))) :
      Refuses c h objects s v (.config (.unregisteredType t))
  | mismatch {v : Value} {p : Plan} {expected found : ValueType} (hs : s.plan = .ok p)
      (hp : p.type? = some expected) (hv : h.typeOf v = some found) (hne : found ≠ expected) :
      Refuses c h objects s v (.encode (.typeMismatch expected found))
  /-- The type of the value is not registered. -/
  | unregistered {v : Value} {t : ValueType} (hs : s.plan = .ok .dynamic)
      (hv : h.typeOf v = some t) (ht : c.registration? t = none) :
      Refuses c h objects s v (.config (.unregisteredType t))
  /-- The class has not as many type parameters as the site has arguments. -/
  | arity {o : ObjectId} {r : RecordSerializer}
      (hr : c.record (.object (h.get o).owner) = .ok r)
      (hargs : r.bindings s.args =
        .error (.genericArity (h.get o).owner r.decl.params.size s.args.length)) :
      Refuses c h objects s (.object o)
        (.config (.genericArity (h.get o).owner r.decl.params.size s.args.length))
  /-- The object is inside itself. -/
  | cycle {o : ObjectId} (hr : c.references = false) (ho : o ∈ objects) :
      Refuses c h objects s (.object o) (.encode (.cycle (h.get o).owner))

variable {α β : Type} {c : Codec} {rs : List RecordSerializer} {h : Heap} {S : ObjectId → Prop}
  {outer : List ObjectId} {t : Trail} {s : Site} {F G : CodecError → Prop}

/-- How writing a value at a site fails, inside of `outer`. -/
def WriteFails (c : Codec) (h : Heap) (outer : List ObjectId) (s : Site) (v : Value)
    (x : CodecError) : Prop :=
  c.Pinpoints h FieldEntryOf.serialized (Site.Next c)
    (fun objects => c.Refuses h (outer ++ objects)) s v x

theorem WriteFails.here {v : Value} {x : CodecError} (hx : x.source? = none)
    (hr : c.Refuses h outer s v x) : c.WriteFails h outer s v x :=
  Pinpoints.here hx (by rwa [List.append_nil])

/-- A failure in a field of the object at the site. -/
theorem WriteFails.into {o : ObjectId} {r : RecordSerializer} {e : FieldEntry} {w : Value}
    {x : CodecError} (hr : c.record (.object (h.get o).owner) = .ok r) (he : e ∈ r.entries)
    (hp : e.serialized = true) (hw : (h.get o).slots[e.slot.index]? = some w)
    {own : Option TypeScope} (hown : r.bindings s.args = .ok own)
    (hx : c.WriteFails h (outer ++ [o]) (s.field c r e) w x) :
    c.WriteFails h outer s (.object o) (.inField (h.get o).owner e.name x) :=
  Pinpoints.into hr he hp hw ⟨⟨own, hown⟩, rfl⟩ (by simpa [WriteFails] using hx)

/-! ### Parts of writing -/

/-- The path and the scopes are those of the open objects. -/
structure Inside (c : Codec) (outer : List ObjectId) (t : Trail) (st : WriteState) : Prop where
  path : c.references = false → st.path = outer.reverse
  scopes : st.typing.scopes = t.stack

/-- With these objects open, the part leaves them open, or fails as `F` says. -/
def Reports (c : Codec) (outer : List ObjectId) (t : Trail) (F : CodecError → Prop)
    (m : WriteM α) : Prop :=
  ∀ st, c.Inside outer t st →
    Meets m st (fun _ st' => c.Inside outer t st') (fun x _ => ∀ e, x = .error e → F e)

theorem Reports.mono {m : WriteM α} (hm : c.Reports outer t F m) (hFG : ∀ e, F e → G e) :
    c.Reports outer t G m :=
  fun st hst => meets_mono_error (hm st hst) fun _ _ hF e he => hFG e (hF e he)

theorem reports_pure (a : α) : c.Reports outer t F (pure a) := fun _ hst => hst

theorem reports_fail {e : CodecError} (he : F e) : c.Reports outer t F (fail e : WriteM α) := by
  rintro st - _ ⟨⟩
  exact he

theorem reports_ofExcept {x : Except CodecError α} (hx : ∀ e, x = .error e → F e) :
    c.Reports outer t F (ofExcept x : WriteM α) := by
  cases x with
  | ok a => exact reports_pure a
  | error e => exact reports_fail (hx e rfl)

theorem reports_modify {f : WriteState → WriteState} (hpath : ∀ st, (f st).path = st.path)
    (htyping : ∀ st, (f st).typing = st.typing) :
    c.Reports outer t F (modify f : WriteM PUnit) :=
  fun st hst => ⟨fun hr => (hpath st).trans (hst.path hr), by rw [htyping]; exact hst.scopes⟩

theorem reports_bind {m : WriteM β} {k : β → WriteM α} (hm : c.Reports outer t F m)
    (hk : ∀ b, CanReturn m b → c.Reports outer t F (k b)) : c.Reports outer t F (m >>= k) := by
  intro st hst
  have hm := hm st hst
  simp only [Meets] at hm ⊢
  rw [bind_run]
  rcases hr : m st with ⟨e | b, st₁⟩ <;> rw [hr] at hm
  · exact hm
  · exact hk b ⟨st, st₁, hr⟩ st₁ hm

theorem reports_get_bind {k : WriteState → WriteM α}
    (hk : ∀ st, c.Inside outer t st → c.Reports outer t F (k st)) :
    c.Reports outer t F (get >>= k) :=
  fun st hst => hk st hst st hst

theorem reports_inField {owner : ClassId} {field : String} {m : WriteM α}
    (hm : c.Reports outer t (fun e => F (.inField owner field e)) m) :
    c.Reports outer t F (inField owner field m) := by
  intro st hst
  refine meets_inField (hm st hst) fun x _ hx e he => ?_
  cases x with
  | tooDeep => cases he
  | error x =>
      cases he
      exact hx x rfl

/-- Scopes are left in the end. -/
theorem reports_inScope {x : Visit} {m : WriteM α} (hm : c.Reports outer (x :: t) F m) :
    c.Reports outer t F (WriteM.inScope x.scope? m) := by
  intro st hst
  have hm := hm { st with typing := st.typing.enter x.scope? }
    ⟨hst.path, by rw [Trail.stack_cons, ← hst.scopes]; rfl⟩
  simp only [Meets, WriteM.inScope] at hm ⊢
  rcases hr : m { st with typing := st.typing.enter x.scope? } with ⟨e | a, st₁⟩ <;> rw [hr] at hm
  · exact hm
  · refine ⟨hm.path, ?_⟩
    show st₁.typing.scopes.leave x.scope? = _
    rw [hm.scopes, Trail.stack_cons, ScopeStack.leave_enter]

theorem reports_item (i : Item) : c.Reports outer t F (WriteM.item i) :=
  reports_modify (fun _ => rfl) fun _ => rfl

theorem reports_varint (n : Nat) : c.Reports outer t F (WriteM.varint n) :=
  reports_modify (fun _ => rfl) fun _ => rfl

/-! ### Objects -/

section

variable {o : ObjectId} {m : WriteM Unit} (hm : c.Reports (outer ++ [o]) t F m)
include hm

/-- Where there are references, an object that was met is a number. -/
theorem reports_meet (hr : c.references = true) : c.Reports outer t F
    (do let x ← WriteM.meet o; WriteM.varint x.code; if x = Marker.new then m) := by
  have hiff : ∀ st, c.Inside (outer ++ [o]) t st ↔ c.Inside outer t st := by
    intro st
    constructor <;> exact fun hst => ⟨by simp [hr], hst.scopes⟩
  have hm : c.Reports outer t F m := by
    intro st hst
    simpa only [hiff] using hm st ((hiff st).mpr hst)
  intro st hst
  by_cases ho : o ∈ st.numbering.seen
  · exact meets_of_ok (WriteM.meet_of_known (Numbering.number?_of_mem ho) m) ⟨hst.path, hst.scopes⟩
  · have hrest := reports_bind (reports_varint 1) (fun _ _ => hm)
      { st with numbering := ⟨st.numbering.seen ++ [o]⟩ } ⟨hst.path, hst.scopes⟩
    simp only [Meets] at hrest ⊢
    rw [WriteM.meet_of_new ho]
    exact hrest

/-- Without references, an object that is met inside itself is an error. -/
theorem reports_onPath (hr : c.references = false)
    (hcycle : o ∈ outer → F (.encode (.cycle (h.get o).owner))) :
    c.Reports outer t F (WriteM.onPath o (h.get o).owner m) := by
  intro st hst
  have hpath := hst.path hr
  by_cases ho : o ∈ outer
  · have hmem : o ∈ st.path := by simpa [hpath] using ho
    simp only [Meets]
    rw [WriteM.onPath_of_mem hmem]
    rintro _ ⟨⟩
    exact hcycle ho
  · have hmem : o ∉ st.path := by simpa [hpath] using ho
    have hm := hm { st with path := o :: st.path } ⟨fun _ => by simp [hpath], hst.scopes⟩
    simp only [Meets] at hm ⊢
    rw [WriteM.onPath_of_not_mem hmem]
    rcases hrun : m { st with path := o :: st.path } with ⟨e | a, st₁⟩ <;> rw [hrun] at hm
    · exact hm
    · exact ⟨fun _ => by simp [hm.path hr], hm.scopes⟩

end

/-! ### Fields -/

theorem eq_of_bindings_error {r : RecordSerializer} {args : List ConcreteType} {x : ConfigError}
    (hx : r.bindings args = .error x) :
    x = .genericArity r.decl.id r.decl.params.size args.length := by
  simp only [RecordSerializerOf.bindings] at hx
  split at hx
  · cases hx
  · simp only [TypeScope.bind] at hx
    split at hx <;> cases hx
    rfl

/-- The plan of a field that is bound to no serializer fails if its type is not registered. -/
theorem unregistered_of_plan {e : FieldEntry} (he : e.serializer = none)
    {resolved : Option ConcreteType} {x : CodecError} (hx : e.plan c resolved = .error x) :
    ∃ u, x = .config (.unregisteredType u) := by
  simp only [FieldEntryOf.plan] at hx
  rw [he] at hx
  split at hx
  · next h' _ => cases h'
  · next h' _ => cases h'
  · cases hx
  · cases hx
  · next u _ _ _ _ _ =>
    cases hs : c.serializer u with
    | ok s =>
        rw [hs] at hx
        cases hx
    | error y =>
        rw [hs] at hx
        cases hx
        exact ⟨u, congrArg CodecError.config (of_serializer_error hs).2⟩
  · cases hx

/-- A value that is neither null nor of the type is refused. -/
theorem reports_requireType {p : Plan} (hs : s.plan = .ok p) {u : ValueType}
    (hp : p.type? = some u) (v : Value) :
    c.Reports outer t (c.WriteFails h outer s v) (requireType h u v) := by
  simp only [requireType]
  split
  · next found hv =>
    split
    · exact reports_pure _
    · next hne =>
      have hmismatch : h.mismatch u v = .encode (.typeMismatch u found) := by
        rw [Heap.mismatch, hv]
      rw [hmismatch]
      exact reports_fail (.here rfl (.mismatch hs hp hv hne))
  · exact reports_pure _

theorem reports_writePresence (e : FieldEntry) (v : Value) :
    c.Reports outer t F (writePresence e v) := by
  simp only [writePresence]
  split
  · exact reports_item _
  · exact reports_pure _

section

variable (hc : c.Lists rs) {nested : Frame → Value → WriteM Unit}
  (hn : ∀ outer s f v, s.around.Within rs → f.args = s.args → Served rs f.type f.serializer →
    f.Takes h v → v.Within S → c.Reports outer s.around (c.WriteFails h outer s v) (nested f v))
  (hs : s.around.Within rs) {v : Value} (hv : v.Within S)
include hc hn hs hv

theorem reports_writeTagged (hplan : s.plan = .ok .dynamic) :
    c.Reports outer s.around (c.WriteFails h outer s v) (c.writeTagged h nested v) := by
  have hargs : s.args = [] := by simp [Site.args, hplan]
  cases ht : h.typeOf v with
  | none =>
      simp only [writeTagged, writeTag, ht, bind_assoc, pure_bind]
      exact reports_bind (reports_varint 0) fun _ _ => reports_pure _
  | some u =>
      cases hx : c.registration? u with
      | none =>
          have htag : c.writeTag h v = fail (.config (.unregisteredType u)) := by
            simp only [writeTag, ht, hx]
            cases c.number? u <;> rfl
          simp only [writeTagged, htag, fail_bind]
          exact reports_fail (.here rfl (.unregistered hplan ht hx))
      | some x =>
          obtain ⟨n, htag⟩ := writeTag_of_registration? ht hx
          obtain ⟨rfl, hserved⟩ := hc.served_of_registration? hx
          simp only [writeTagged, htag, bind_assoc, pure_bind]
          exact reports_bind (reports_varint n) fun _ _ =>
            hn outer s x.frame v hs hargs.symm hserved (.inr ht) hv

/-- What is not refused at a site is written as planned. -/
theorem reports_writePlanned {e : FieldEntry} {p : Plan} (hplan : s.plan = .ok p)
    (hp : ∀ f, p = .known f → Served rs f.type f.serializer ∧ (v = .null → f.nullable = true)) :
    c.Reports outer s.around (c.WriteFails h outer s v) (c.writePlanned h nested e v p) := by
  cases p with
  | dynamic => exact reports_writeTagged hc hn hs hv hplan
  | known f =>
      obtain ⟨hserved, hnull⟩ := hp f rfl
      have hargs : f.args = s.args := by simp [Site.args, hplan]
      by_cases htakes : v = .null ∨ h.typeOf v = some f.type
      · refine reports_bind (reports_requireType hplan rfl v) fun _ _ => ?_
        exact hn outer s f v hs hargs hserved (htakes.imp_left fun hv => ⟨hv, hnull hv⟩) hv
      · -- the value is refused before it gets into the frame
        have hrefuse : c.writePlanned h nested e v (.known f) = requireType h f.type v := by
          simp only [writePlanned, requireType_of_not htakes, fail_bind]
        rw [hrefuse]
        exact reports_requireType hplan rfl v
  | int =>
      refine reports_bind (reports_requireType hplan rfl v) fun _ _ =>
        reports_bind (reports_writePresence e v) fun _ _ => ?_
      cases v with
      | int n => exact reports_item _
      | _ => exact reports_pure _
  | long =>
      refine reports_bind (reports_requireType hplan rfl v) fun _ _ =>
        reports_bind (reports_writePresence e v) fun _ _ => ?_
      cases v with
      | long n => exact reports_item _
      | _ => exact reports_pure _

/-- A field whose site is `s`. -/
theorem reports_writeField {e : FieldEntry} (he : e.serializer = none) {o : ObjectId}
    (hget : e.slot.get h o = .ok v) {resolved : Option ConcreteType}
    (hplan : e.plan c resolved = s.plan) (hnull : s.nullable = e.nullable) :
    c.Reports outer s.around (c.WriteFails h outer s v) (c.writeField h nested e o resolved) := by
  rw [writeField_of_get _ _ _ hget]
  split
  · next hbad =>
    simp only [Bool.and_eq_true, Bool.not_eq_true'] at hbad
    obtain rfl := Value.eq_null_of_isNull hbad.1
    exact reports_fail (.here rfl (.null (hnull.trans hbad.2)))
  · next hok =>
    refine reports_bind (reports_ofExcept fun x hx => ?_) fun p hp => ?_
    · obtain ⟨u, rfl⟩ := unregistered_of_plan he hx
      exact .here rfl (.plan (hplan ▸ hx))
    · refine reports_writePlanned hc hn hs hv (hplan ▸ hp.ofExcept) ?_
      rintro f rfl
      obtain ⟨hserved, hnullable, -⟩ := hc.served_of_plan he hp.ofExcept
      refine ⟨hserved, ?_⟩
      rintro rfl
      rw [hnullable]
      simpa [Value.isNull] using hok

end

/-! ### Objects -/

section

variable (hc : c.Lists rs) (hclosed : h.Closed c.writtenSlots S)
  (hsize : ∀ o, S o → ∀ r, c.record (.object (h.get o).owner) = .ok r →
    (h.get o).slots.length = r.decl.fields.length)

section

variable {nested : Frame → Value → WriteM Unit}
  (hn : ∀ outer s f v, s.around.Within rs → f.args = s.args → Served rs f.type f.serializer →
    f.Takes h v → v.Within S → c.Reports outer s.around (c.WriteFails h outer s v) (nested f v))
include hc hclosed hsize hn

/-- The fields of the object at the site. -/
theorem reports_writeFieldsDirect (hs : s.around.Within rs) {r : RecordSerializer} (hr : r ∈ rs)
    {own : Option TypeScope} (hown : r.bindings s.args = .ok own) {o : ObjectId} (hS : S o)
    (hid : (h.get o).owner = r.decl.id) {t : FieldTable} (ht : ∀ e ∈ t, e ∈ r.entries) :
    c.Reports (outer ++ [o]) (s.enter r) (c.WriteFails h outer s (.object o))
      (c.writeFieldsDirect h nested r own o t) := by
  have hrec : c.record (.object (h.get o).owner) = .ok r := hid ▸ hc.record_eq hr
  induction t with
  | nil => exact reports_pure _
  | cons e t ih =>
      obtain ⟨he, ht⟩ := List.forall_mem_cons.mp ht
      simp only [writeFieldsDirect]
      split
      · next hserialized =>
        obtain ⟨v, hget, hslot⟩ := hc.get_of_entry hr he hserialized hid (hsize o hS r hrec)
        have hv := Slot.getElem?_of_get hget
        have henter : (s.enter r).Within rs := hs.cons hr (Visit.scope?_of_bindings hown).2
        refine reports_get_bind fun st hst => reports_bind (reports_inField ?_) fun _ _ => ih ht
        -- the scopes are those of the open objects, so that the plan is that of the site
        rw [hst.scopes]
        have hfield : c.Reports (outer ++ [o]) (s.field c r e).around
            (c.WriteFails h (outer ++ [o]) (s.field c r e) v) (c.writeField h nested e o _) :=
          reports_writeField hc hn henter (hclosed o hS _ hslot v hv)
            ((hc.plain r hr).follows.bare e he) hget (plan_fieldType hc hs hr hown e) rfl
        exact hfield.mono fun x hx => hid ▸ hx.into hrec he hserialized hv hown
      · exact ih ht

/-- What stands in a frame at the site. -/
theorem reports_writeWithDirect (hs : s.around.Within rs) {f : Frame} (hargs : f.args = s.args)
    (hf : Served rs f.type f.serializer) {v : Value} (hv : h.typeOf v = some f.type)
    (hS : v.Within S) : c.Reports (outer ++ v.object?.toList) s.around (c.WriteFails h outer s v)
      (c.writeWithDirect h nested f.args f.serializer v) := by
  obtain ⟨t, x, args, nullable⟩ := f
  cases hf with
  | stock hx => cases t <;> cases hx <;> cases v <;> cases hv <;> exact reports_item _
  | @record r hr =>
      obtain ⟨o, rfl⟩ : ∃ o, v = .object o := by
        cases v with
        | object o => exact ⟨o, rfl⟩
        | _ => cases hv
      obtain rfl : args = s.args := hargs
      have hid : (h.get o).owner = r.decl.id := ValueType.object.inj (Option.some.inj hv)
      have hinst : h.instanceOf r.decl.id (.object o) = .ok o :=
        Heap.instanceOf_eq_ok.mpr ⟨rfl, hid⟩
      simp only [writeWithDirect, writeRecordDirect, hinst]
      refine reports_bind (reports_ofExcept fun x hx => ?_) fun own hown => ?_
      · cases hb : r.bindings s.args with
        | ok own =>
            rw [hb] at hx
            cases hx
        | error y =>
            rw [hb] at hx
            cases hx
            obtain rfl := eq_of_bindings_error hb
            rw [← hid] at hb ⊢
            exact .here rfl (.arity (hid ▸ hc.record_eq hr) hb)
      · have hown : r.bindings s.args = .ok own := except_mapError_eq_ok.mp hown.ofExcept
        obtain ⟨rfl, -⟩ := Visit.scope?_of_bindings hown
        exact reports_inScope (reports_writeFieldsDirect hc hclosed hsize hn hs hr hown
          (hS o rfl) hid fun _ he => he)

end

/-- Around what stands in a frame there is nothing that fails but an object inside itself. -/
theorem reports_writeAround {f : Frame} {v : Value} (hv : f.Takes h v) {body : WriteM Unit}
    (hbody : h.typeOf v = some f.type →
      c.Reports (outer ++ v.object?.toList) t (c.WriteFails h outer s v) body) :
    c.Reports outer t (c.WriteFails h outer s v) (c.writeAround h f v body) := by
  have hpresence : ∀ b, c.Reports outer t (c.WriteFails h outer s v)
      (if b = true then WriteM.item (.bool true) else pure ()) := by
    intro b
    split
    · exact reports_item _
    · exact reports_pure _
  rcases hv with ⟨rfl, hnull⟩ | hv
  · -- null is a marker or a presence byte
    simp only [writeAround, hnull, Value.isNull, Bool.and_self, if_true]
    split
    · exact reports_varint _
    · exact reports_item _
  · have hbody := hbody hv
    cases v with
    | null => cases hv
    | object o =>
        have href : f.type.isReference = true := isReference_of_typeOf hv
        simp only [writeAround, href, Bool.true_and]
        split
        · next hr => exact reports_meet hbody hr
        · next hr =>
          have hr : c.references = false := by simpa using hr
          simp only [Value.isNull, Value.object?, Bool.false_eq_true, if_false]
          exact reports_bind (hpresence _) fun _ _ => reports_onPath hbody hr fun ho =>
            .here rfl (.cycle hr ho)
    | _ =>
        have href : f.type.isReference = false := isReference_of_typeOf hv
        simp only [writeAround, href, Bool.false_and, Value.isNull, Value.object?,
          Bool.false_eq_true, if_false]
        exact reports_bind (hpresence _) fun _ _ => by simpa [Value.object?] using hbody

include hc hclosed hsize

/-- **Writing a value fails only below it, and as the wrappers of the error say.** -/
theorem reports_writeDirect (n : Nat) (outer : List ObjectId) (s : Site) (f : Frame) (v : Value)
    (hs : s.around.Within rs) (hargs : f.args = s.args) (hf : Served rs f.type f.serializer)
    (hv : f.Takes h v) (hS : v.Within S) :
    c.Reports outer s.around (c.WriteFails h outer s v) (c.writeDirect h n f v) := by
  induction n generalizing outer s f v with
  | zero => exact fun _ _ _ he => by cases he
  | succ n ih =>
      rw [writeDirect]
      exact reports_writeAround hv fun ht =>
        reports_writeWithDirect hc hclosed hsize ih hs hargs hf ht hS

theorem reports_writeFlat (n : Nat) {v : Value} (hS : v.Within S) (args : List ConcreteType) :
    c.Reports [] [] (c.WriteFails h [] (.untagged c h v args) v)
      (c.writeFlat h (c.writeDirect h n) v args) := by
  simp only [writeFlat]
  split
  · next hv =>
    obtain rfl : v = .null := by
      cases v with
      | null => rfl
      | _ => cases hv
    exact reports_fail (.here rfl (.null rfl))
  · next u hu =>
    cases hx : c.serializer u with
    | error x =>
        obtain ⟨-, rfl⟩ := of_serializer_error hx
        refine reports_fail (.here rfl (.plan ?_))
        simp [Site.untagged, hu, hx, Except.mapError, Except.map]
    | ok x =>
        have hargs : (Site.untagged c h v args).args = args := by
          simp [Site.args, Site.untagged, hu, hx, Except.mapError, Except.map]
        exact reports_writeDirect hc hclosed hsize n [] (.untagged c h v args) ⟨u, x, args, false⟩ v
          (List.forall_mem_nil _) hargs.symm (hc.served_of_serializer hx) (.inr hu) hS

end

/-! ### Whole passes -/

/-- The failure is an error, of the kind of its root, which is not wrapped, and `P` holds of it. -/
def Explains (P : CodecError → Prop) (x : Failure) : Prop :=
  ∃ e, x = .error e ∧ e.fields.foldr (fun p x => .inField p.1 p.2 x) e.root = e ∧
    e.root.source? = none ∧ e.kind = e.root.kind ∧ P e

theorem explains_of {P : CodecError → Prop} {x : Failure} (hdepth : x ≠ .tooDeep)
    (hP : ∀ e, x = .error e → P e) : Explains P x := by
  cases x with
  | tooDeep => exact absurd rfl hdepth
  | error e =>
      exact ⟨e, rfl, e.foldr_fields_root, e.source?_root, e.kind_root.symm, hP e rfl⟩

/-- Where a pass of writing starts, nothing is open. -/
theorem explains_run {P : CodecError → Prop} {out : Output} {body : WriteM Unit}
    {result : Except Failure Unit} (hdepth : result ≠ .error .tooDeep)
    (hresult : result = (body ⟨out, .empty, [], ⟨.empty, c.cells⟩⟩).1)
    (hbody : c.Reports [] [] P body) {x : Failure} (hx : result = .error x) : Explains P x := by
  have hrun := hbody ⟨out, .empty, [], ⟨.empty, c.cells⟩⟩ ⟨fun _ => rfl, rfl⟩
  simp only [Meets] at hrun
  rcases hr : body ⟨out, .empty, [], ⟨.empty, c.cells⟩⟩ with ⟨y | a, st⟩ <;>
    rw [hr] at hrun hresult
  · cases hx.symm.trans hresult
    exact explains_of (fun he => hdepth (he ▸ hx)) hrun
  · cases hx.symm.trans hresult

/-- **The wrappers of an error are a true path to the failure.**  The objects below the value have
the number of slots that their class was registered with. -/
theorem errors_pinpoint (hc : c.Standard) (h : Heap) (v : Value) :
    ((∀ o, h.Reach c.writtenSlots v o → ∀ r, c.record (.object (h.get o).owner) = .ok r →
        (h.get o).slots.length = r.decl.fields.length) → ∀ out,
      (∀ x, (c.writeValue h out v).result = .error x →
        Explains (c.Pinpoints h FieldEntryOf.serialized (Site.Next c) (c.Refuses h)
          .tagged v) x) ∧
      ∀ args x, (c.writeUntagged h out v args).result = .error x →
        Explains (c.Pinpoints h FieldEntryOf.serialized (Site.Next c) (c.Refuses h)
          (.untagged c h v args) v) x) ∧
    ((∀ o, h.Reach c.copiedSlots v o → o < h.size ∧
        ∀ r, c.record (.object (h.get o).owner) = .ok r →
          (h.get o).slots.length = r.decl.fields.length) →
      ∀ x, (c.copy h v).result = .error x → Explains (c.FindsUnmade h v) x) := by
  obtain ⟨rs, hc⟩ := hc.lists
  refine ⟨fun hsize out => ⟨fun x hx => ?_, fun args x hx => ?_⟩, fun hsize x hx => ?_⟩
  · have hdirect := reports_writeDirect hc (h.closed_reach c.writtenSlots v) hsize (writeDepth h)
    exact explains_run (hc.writeValue_ends h out v) (hc.writeValue_direct h out v).1
      (reports_writeTagged (s := .tagged) hc hdirect (List.forall_mem_nil _) (h.within_reach _ v)
        rfl) hx
  · exact explains_run (hc.writeUntagged_ends h out v args)
      (hc.writeUntagged_direct h out v args).1
      (reports_writeFlat hc (h.closed_reach c.writtenSlots v) hsize (writeDepth h)
        (h.within_reach _ v) args) hx
  · have hrun := meets_copy_at hc (fun o ho => (hsize o ho).1) (h.closed_reach c.copiedSlots v)
      (fun o ho => (hsize o ho).2) (h.within_reach _ v)
    have hcopy : (c.copy h v).result =
      ((c.copyValue (c.copyObject (copyDepth h)) v) ⟨h, .empty⟩).1 := rfl
    simp only [Meets] at hrun
    rcases hr : c.copyValue (c.copyObject (copyDepth h)) v ⟨h, .empty⟩ with ⟨y | w, st⟩ <;>
      rw [hr] at hrun hcopy <;> cases hx.symm.trans hcopy
    exact explains_of hrun.1.1 hrun.2

/-- A class of which no instances are made. -/
def pin : ClassDecl := ⟨⟨"demo::Pin"⟩, ⟨[]⟩, [], false⟩

/-- A codec with links and pins. -/
def pins : Codec := (links.registerClass pin .standard).2

/-- Two links, of which the second one leads to a pin: written, it is of the wrong type; copied, it
is not made. -/
theorem errors_pinpoint_pins :
    let h : Heap := ⟨#[⟨link, [.object 1, .int 5]⟩, ⟨link, [.object 2, .int 5]⟩, ⟨pin, []⟩]⟩
    let within (x : CodecError) : CodecError := .inField link.id "next" (.inField link.id "next" x)
    let mismatch := within (.encode (.typeMismatch link.type pin.type))
    let unmade := within (.construction pin.id "class has no zero-argument construction")
    (pins.writeValue h .empty (.object 0)).result = .error (.error mismatch) ∧
      pins.Pinpoints h FieldEntryOf.serialized (Site.Next pins) (pins.Refuses h) .tagged (.object 0)
        mismatch ∧
      (pins.copy h (.object 0)).result = .error (.error unmade) ∧
      pins.FindsUnmade h (.object 0) unmade := by
  intro h within mismatch unmade
  have hpins : pins.Standard :=
    .registerClass standard_links (by unfold ClassDecl.Unbound; decide) (.inr (.inl rfl))
  have hwrite : (pins.writeValue h .empty (.object 0)).result = .error (.error mismatch) := by
    decide +kernel
  have hcopy : (pins.copy h (.object 0)).result = .error (.error unmade) := by decide +kernel
  have hsize : ∀ o < 3, ∀ r, pins.record (.object (h.get o).owner) = .ok r →
      (h.get o).slots.length = r.decl.fields.length := by
    intro o ho r hr
    match o, ho with
    | 0, _ | 1, _ | 2, _ =>
      cases hr
      rfl
  have hin : ∀ sel o, h.Reach sel (.object 0) o → o < 3 := by
    intro sel o
    refine Heap.reach_sub (S := (· < 3)) (fun o ho i _ v hv => ?_) (Value.within_object (by decide))
    have hslots : ∀ v ∈ (h.get o).slots, v.Within (· < 3) := by
      match o, ho with
      | 0, _ | 1, _ | 2, _ => simp [h, Heap.get, Value.Within]
    exact hslots v (List.mem_of_getElem? hv)
  obtain ⟨hwritten, hcopied⟩ := errors_pinpoint hpins h (.object 0)
  obtain ⟨e, he, -, -, -, hmismatch⟩ :=
    (hwritten (fun o ho => hsize o (hin _ o ho)) .empty).1 _ hwrite
  obtain ⟨e', he', -, -, -, hunmade⟩ :=
    hcopied (fun o ho => ⟨hin _ o ho, hsize o (hin _ o ho)⟩) _ hcopy
  cases he
  cases he'
  exact ⟨hwrite, hmismatch, hcopy, hunmade⟩

end Codec

end GraphCodec
