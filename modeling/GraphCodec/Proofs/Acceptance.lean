import GraphCodec.Proofs.Cycles
import GraphCodec.Proofs.Direct
import GraphCodec.Proofs.FieldTypes

/-!
# Writing — which graphs are accepted

Where no class has type parameters, a value can be written exactly if it is well-formed: each value
of a written field fits its field, for every object below the value, and without references there
is no cycle (`writeValue_accepts`).

`Explored` says which objects a part of writing has gone through: each of them fits, and what its
written slots hold was gone through too, or had been met before.  At the end nothing had been met
before, so that all that is below the value was gone through.  A part that fails does so at an
object that does not fit (`Excused` lists the other reasons, which are dealt with elsewhere).
-/

namespace GraphCodec

/-- The value may stand in the frame. -/
def Frame.Takes (h : Heap) (f : Frame) (v : Value) : Prop :=
  v = .null ∧ f.nullable = true ∨ h.typeOf v = some f.type

namespace Codec

open Pass

variable {c : Codec} {rs : List RecordSerializer} {h : Heap} {S : ObjectId → Prop}

/-! ### Well-formed graphs -/

/-- The value is null or of a registered type. -/
def Registers (c : Codec) (h : Heap) (v : Value) : Prop :=
  v = .null ∨ ∃ t, h.typeOf v = some t ∧ c.registration? t ≠ none

theorem registration?_ne_none {t : ValueType} :
    c.registration? t ≠ none ↔ ∃ s, c.serializer t = .ok s := by
  simp only [serializer]
  cases c.registration? t <;> simp

/-- The value may be written as the value of the field. -/
structure Accepts (c : Codec) (h : Heap) (e : FieldEntry) (v : Value) : Prop where
  nullable : v = .null → e.nullable = true
  known : ∀ t, e.rawType = some t → c.registration? t ≠ none ∧ (v = .null ∨ h.typeOf v = some t)
  dynamic : e.type = .dynamic → e.valueType = none → c.Registers h v

/-- What the written slots of the object hold may be written as the values of its fields. -/
def Proper (c : Codec) (h : Heap) (o : ObjectId) : Prop :=
  ∀ r, c.record (.object (h.get o).owner) = .ok r → ∀ e ∈ r.entries, e.serialized = true →
    ∀ v, (h.get o).slots[e.slot.index]? = some v → c.Accepts h e v

/-- The value can be written, and so can all that is below it. -/
structure WellFormed (c : Codec) (h : Heap) (v : Value) : Prop where
  registered : c.Registers h v
  proper : ∀ o, h.Reach c.writtenSlots v o → c.Proper h o
  acyclic : c.references = false → ∀ o, h.Reach c.writtenSlots v o → ¬ h.OnCycle c.writtenSlots o

/-! ### Classes without type parameters -/

/-- A field of a class without type parameters is declared with none. -/
theorem type_ne_param {r : RecordSerializer} (hr : r.Plain)
    (hdeclared : r.decl.undeclaredParam? = none) (hparams : r.decl.params.names = [])
    {e : FieldEntry} (he : e ∈ r.entries) (p : String) : e.type ≠ .param p := by
  intro hp
  have := mem_params_of_type hr hdeclared he hp
  rw [hparams] at this
  cases this

/-! ### What was gone through -/

/-- The objects of `T` fit, and what their written slots hold is in `T` too or was met; what was
met since then is in `T`. -/
structure Explored (c : Codec) (h : Heap) (seen seen' : List ObjectId) (T : ObjectId → Prop) :
    Prop where
  grows : seen ⊆ seen'
  new : ∀ o ∈ seen', o ∈ seen ∨ T o
  proper : ∀ o, T o → c.Proper h o
  closed : ∀ o p, T o → h.Leads c.writtenSlots o p → T p ∨ p ∈ seen'

/-- Reasons to fail that do not lie with an object that does not fit. -/
def Excused (c : Codec) (e : Failure) : Prop :=
  e = .tooDeep ∨ c.references = false ∧ ∃ x owner, e = .error x ∧ x.root = .encode (.cycle owner)

theorem Excused.inField {e : Failure} (he : c.Excused e) (owner : ClassId) (field : String) :
    c.Excused (e.inField owner field) := by
  rcases he with rfl | ⟨hr, x, C, rfl, hx⟩
  · exact .inl rfl
  · exact .inr ⟨hr, _, C, rfl, hx⟩

/-- If the part ends well, then `P` holds, and all objects of `R` have been gone through.  It ends
well if `P` holds and all objects of `S` fit. -/
def Explores (c : Codec) (h : Heap) (S : ObjectId → Prop) (P : Prop) (R : ObjectId → Prop)
    {α : Type} (m : WriteM α) : Prop :=
  ∀ st, Meets m st
    (fun _ st' => P ∧ ∃ T, c.Explored h st.numbering.seen st'.numbering.seen T ∧
      ∀ o, R o → T o ∨ o ∈ st'.numbering.seen)
    (fun e _ => P → (∀ o, S o → c.Proper h o) → c.Excused e)

namespace Explored

variable {seen seen' seen'' : List ObjectId} {T T' : ObjectId → Prop}

theorem refl (seen : List ObjectId) : c.Explored h seen seen fun _ => False :=
  ⟨List.Subset.refl _, fun _ => .inl, nofun, nofun⟩

theorem trans (h₁ : c.Explored h seen seen' T) (h₂ : c.Explored h seen' seen'' T') :
    c.Explored h seen seen'' fun o => T o ∨ T' o := by
  refine ⟨List.Subset.trans h₁.grows h₂.grows, fun o ho => ?_, fun o => ?_, fun o p => ?_⟩
  · rcases h₂.new o ho with ho | ho
    · exact (h₁.new o ho).imp_right .inl
    · exact .inr (.inr ho)
  · rintro (ho | ho)
    · exact h₁.proper o ho
    · exact h₂.proper o ho
  · rintro (ho | ho) hp
    · exact (h₁.closed o p ho hp).imp .inl fun hp => h₂.grows hp
    · exact (h₂.closed o p ho hp).imp_left .inr

/-- An object was gone through when what it leads to was. -/
theorem opened {o : ObjectId} (hgrows : seen ⊆ seen') (hnew : ∀ p ∈ seen', p ∈ seen ∨ p = o)
    (hT : c.Explored h seen' seen'' T) (hproper : c.Proper h o)
    (hleads : ∀ p, h.Leads c.writtenSlots o p → T p ∨ p ∈ seen'') :
    c.Explored h seen seen'' fun p => p = o ∨ T p := by
  refine ⟨List.Subset.trans hgrows hT.grows, fun p hp => ?_, fun p => ?_, fun p q => ?_⟩
  · rcases hT.new p hp with hp | hp
    · exact (hnew p hp).imp_right .inl
    · exact .inr (.inr hp)
  · rintro (rfl | hp)
    · exact hproper
    · exact hT.proper p hp
  · rintro (rfl | hp) hq
    · exact (hleads q hq).imp_left .inr
    · exact (hT.closed p q hp hq).imp_left .inr

/-- At the end of a pass, all that is below the value was gone through. -/
theorem proper_of_reach {v : Value} (hT : c.Explored h [] seen T)
    (hv : ∀ o, v = .object o → T o ∨ o ∈ seen) {o : ObjectId}
    (ho : h.Reach c.writtenSlots v o) : c.Proper h o := by
  -- what was met is in `T`, as nothing had been met before
  have hin : ∀ p, T p ∨ p ∈ seen → T p := fun p hp =>
    hp.elim id fun hp => (hT.new p hp).resolve_left List.not_mem_nil
  refine hT.proper o (Heap.reach_sub (fun o ho i hi w hw p hp => ?_)
    (fun p hp => hin p (hv p hp)) ho)
  exact hin p (hT.closed o p ho ⟨i, hi, hp ▸ hw⟩)

end Explored

section

variable {α β : Type} {P P' : Prop} {R R' : ObjectId → Prop}

theorem Explores.congr {m : WriteM α} (hm : c.Explores h S P R m) (hP : P' ↔ P)
    (hR : P → ∀ o, R' o → R o) : c.Explores h S P' R' m := by
  intro st
  have hm := hm st
  simp only [Meets] at hm ⊢
  rcases hr : m st with ⟨e | a, st'⟩ <;> rw [hr] at hm
  · exact fun hP' => hm (hP.mp hP')
  · obtain ⟨h₁, T, hT, hin⟩ := hm
    exact ⟨hP.mpr h₁, T, hT, fun o ho => hin o (hR h₁ o ho)⟩

/-- What meets no object and cannot fail. -/
theorem explores_modify {f : WriteState → WriteState} (hf : ∀ st, (f st).numbering = st.numbering) :
    c.Explores h S True (fun _ => False) (modify f : WriteM PUnit) := by
  intro st
  refine ⟨trivial, fun _ => False, ?_, nofun⟩
  rw [hf]
  exact .refl _

theorem explores_pure (a : α) : c.Explores h S True (fun _ => False) (pure a) :=
  fun _ => ⟨trivial, fun _ => False, .refl _, nofun⟩

theorem explores_fail (hP : ¬ P) (e : CodecError) : c.Explores h S P R (fail e : WriteM α) :=
  fun _ h => absurd h hP

theorem explores_bind {m : WriteM β} {k : β → WriteM α} (hm : c.Explores h S P R m)
    (hk : P → ∀ b, c.Explores h S P' R' (k b)) :
    c.Explores h S (P ∧ P') (fun o => R o ∨ R' o) (m >>= k) := by
  intro st
  have hm := hm st
  simp only [Meets] at hm ⊢
  rw [bind_run]
  rcases hr : m st with ⟨e | b, st₁⟩ <;> rw [hr] at hm
  · exact fun hP => hm hP.1
  · obtain ⟨h₁, T₁, hT₁, hin₁⟩ := hm
    have hk := hk h₁ b st₁
    simp only [Meets] at hk ⊢
    rcases hr' : k b st₁ with ⟨e | a, st₂⟩ <;> rw [hr'] at hk
    · exact fun hP => hk hP.2
    · obtain ⟨h₂, T₂, hT₂, hin₂⟩ := hk
      refine ⟨⟨h₁, h₂⟩, _, hT₁.trans hT₂, fun o => ?_⟩
      rintro (ho | ho)
      · exact (hin₁ o ho).imp .inl fun ho => hT₂.grows ho
      · exact (hin₂ o ho).imp_left .inr

/-- A part that meets nothing may come first. -/
theorem explores_then {m : WriteM β} {k : β → WriteM α}
    (hm : c.Explores h S True (fun _ => False) m)
    (hk : ∀ b, c.Explores h S P R (k b)) : c.Explores h S P R (m >>= k) :=
  (explores_bind hm fun _ => hk).congr (true_and P).symm.to_iff fun _ _ => .inr

theorem explores_get_bind {k : WriteState → WriteM α} (hk : ∀ st, c.Explores h S P R (k st)) :
    c.Explores h S P R (get >>= k) :=
  fun st => hk st st

theorem explores_inField {owner : ClassId} {field : String} {m : WriteM α}
    (hm : c.Explores h S P R m) : c.Explores h S P R (inField owner field m) :=
  fun st => meets_inField (hm st) fun _ _ he hP hS => (he hP hS).inField owner field

theorem explores_inScope (scope : Option TypeScope) {m : WriteM α} (hm : c.Explores h S P R m) :
    c.Explores h S P R (WriteM.inScope scope m) := by
  intro st
  have hm := hm { st with typing := st.typing.enter scope }
  simp only [Meets, WriteM.inScope] at hm ⊢
  rcases hr : m { st with typing := st.typing.enter scope } with ⟨e | a, st₁⟩ <;>
    rw [hr] at hm <;> exact hm

/-! ### Objects -/

variable {o : ObjectId} {m : WriteM Unit}

/-- An object that was met is a number; a new one is gone through. -/
theorem explores_meet (hS : S o)
    (hm : c.Explores h S (c.Proper h o) (h.Leads c.writtenSlots o) m) :
    c.Explores h S True (fun p => p = o)
      (do let x ← WriteM.meet o; WriteM.varint x.code; if x = Marker.new then m) := by
  intro st
  by_cases ho : o ∈ st.numbering.seen
  · refine meets_of_ok (WriteM.meet_of_known (Numbering.number?_of_mem ho) m)
      ⟨trivial, fun _ => False, .refl _, ?_⟩
    rintro p rfl
    exact .inr ho
  · have hm := hm { st with
      output := st.output.writeVarint 1, numbering := ⟨st.numbering.seen ++ [o]⟩ }
    have hrun : (do WriteM.varint 1; m : WriteM Unit)
        { st with numbering := ⟨st.numbering.seen ++ [o]⟩ } = m { st with
          output := st.output.writeVarint 1, numbering := ⟨st.numbering.seen ++ [o]⟩ } := rfl
    simp only [Meets] at hm ⊢
    rw [WriteM.meet_of_new ho, hrun]
    rcases hr : m { st with
      output := st.output.writeVarint 1, numbering := ⟨st.numbering.seen ++ [o]⟩ } with
      ⟨e | a, st₁⟩ <;> rw [hr] at hm
    · exact fun _ hall => hm (hall o hS) hall
    · obtain ⟨hproper, T, hT, hleads⟩ := hm
      refine ⟨trivial, _, hT.opened (List.subset_append_left _ _) (fun p hp => ?_) hproper hleads,
        fun p hp => .inl (.inl hp)⟩
      simpa using hp

/-- Without references, an object is gone through unless it is met inside itself. -/
theorem explores_onPath (hr : c.references = false) (hS : S o)
    (hm : c.Explores h S (c.Proper h o) (h.Leads c.writtenSlots o) m) (owner : ClassId) :
    c.Explores h S True (fun p => p = o) (WriteM.onPath o owner m) := by
  intro st
  simp only [Meets]
  by_cases ho : o ∈ st.path
  · rw [WriteM.onPath_of_mem ho]
    exact fun _ _ => .inr ⟨hr, _, owner, rfl, rfl⟩
  · have hm := hm { st with path := o :: st.path }
    rw [WriteM.onPath_of_not_mem ho]
    simp only [Meets] at hm
    rcases hrun : m { st with path := o :: st.path } with ⟨e | a, st₁⟩ <;> rw [hrun] at hm
    · exact fun _ hall => hm (hall o hS) hall
    · obtain ⟨hproper, T, hT, hleads⟩ := hm
      exact ⟨trivial, _, hT.opened (List.Subset.refl _) (fun _ => .inl) hproper hleads,
        fun p hp => .inl (.inl hp)⟩

end

/-! ### Fields -/

theorem explores_item (i : Item) : c.Explores h S True (fun _ => False) (WriteM.item i) :=
  explores_modify fun _ => rfl

theorem explores_requireType (t : ValueType) (v : Value) :
    c.Explores h S (v = .null ∨ h.typeOf v = some t) (fun _ => False) (requireType h t v) := by
  by_cases hv : v = .null ∨ h.typeOf v = some t
  · rw [requireType_of_fits hv]
    exact (explores_pure _).congr (iff_true_intro hv) fun _ _ => id
  · rw [requireType_of_not hv]
    exact explores_fail hv _

theorem explores_writePresence (e : FieldEntry) (v : Value) :
    c.Explores h S True (fun _ => False) (writePresence e v) := by
  simp only [writePresence]
  split
  · exact explores_item _
  · exact explores_pure _

/-- A number needs no serializer, and no object stands in its place. -/
theorem explores_number (hc : c.Lists rs) {t : ValueType} {s : Stock} (hs : t.stock? = some s)
    (e : FieldEntry) (v : Value) {m : WriteM Unit}
    (hm : c.Explores h S True (fun _ => False) m) :
    c.Explores h S (c.registration? t ≠ none ∧ (v = .null ∨ h.typeOf v = some t))
      (fun o => v = .object o) (do requireType h t v; writePresence e v; m) := by
  refine (explores_bind (explores_requireType t v) fun _ _ =>
    explores_then (explores_writePresence e v) fun _ => hm).congr ?_ fun hP o ho => ?_
  · have hreg : c.registration? t ≠ none := by simp [hc.registration?_stock hs]
    rw [and_iff_right hreg, and_true]
  · subst ho
    rcases hP.1 with h' | h' <;> cases h'
    cases hs

section

variable (hc : c.Lists rs) {nested : Frame → Value → WriteM Unit}
  (hn : ∀ f v, Served rs f.type f.serializer → f.Takes h v → v.Within S →
    c.Explores h S True (fun o => v = .object o) (nested f v))
include hc hn

theorem explores_writeTagged {v : Value} (hv : v.Within S) :
    c.Explores h S (c.Registers h v) (fun o => v = .object o) (c.writeTagged h nested v) := by
  by_cases hreg : c.Registers h v
  · refine Explores.congr (P := True) (R := fun o => v = .object o) ?_ (iff_true_intro hreg)
      fun _ _ => id
    rcases hreg with rfl | ⟨t, ht, hx⟩
    · have htag : c.writeTagged h nested .null =
          modify fun st => { st with output := st.output.writeVarint 0 } := rfl
      rw [htag]
      exact Explores.congr (R := fun _ => False) (explores_modify fun _ => rfl) .rfl
        fun _ _ => nofun
    · obtain ⟨x, hx⟩ := Option.ne_none_iff_exists'.mp hx
      obtain ⟨n, htag⟩ := writeTag_of_registration? ht hx
      obtain ⟨rfl, hs⟩ := hc.served_of_registration? hx
      simp only [writeTagged, htag, bind_assoc, pure_bind]
      exact explores_then (explores_modify fun _ => rfl) fun _ => hn x.frame v hs (.inr ht) hv
  · cases ht : h.typeOf v with
    | none =>
        refine absurd (.inl ?_) hreg
        cases v with
        | null => rfl
        | _ => cases ht
    | some t =>
        have hnone : c.registration? t = none := by
          by_contra hx
          exact hreg (.inr ⟨t, ht, hx⟩)
        simp only [writeTagged, writeTag, ht, hnone]
        cases c.number? t <;> exact explores_fail hreg _

/-- A field of a known type. -/
theorem explores_ofType (e : FieldEntry) {v : Value} (hv : v.Within S)
    (hnull : v = .null → e.nullable = true) (t : ConcreteType) :
    c.Explores h S (c.registration? t.base ≠ none ∧ (v = .null ∨ h.typeOf v = some t.base))
      (fun o => v = .object o)
      (Pass.ofExcept (Plan.ofType c e.nullable t) >>= c.writePlanned h nested e v) := by
  obtain ⟨t, args⟩ := t
  cases t with
  | int =>
      refine explores_number hc (t := .int) rfl e v ?_
      cases v with
      | int n => exact explores_item _
      | _ => exact explores_pure _
  | long =>
      refine explores_number hc (t := .long) rfl e v ?_
      cases v with
      | long n => exact explores_item _
      | _ => exact explores_pure _
  | _ =>
      simp only [Plan.ofType]
      cases hs : c.serializer _ with
      | error x =>
          refine explores_fail (fun hP => ?_) _
          obtain ⟨s, hs'⟩ := registration?_ne_none.mp hP.1
          cases hs.symm.trans hs'
      | ok s =>
          refine (explores_bind (explores_requireType _ v) fun hP => fun _ =>
            hn ⟨_, s, args, e.nullable⟩ v (hc.served_of_serializer hs)
              (hP.imp_left fun h => ⟨h, hnull h⟩) hv).congr ?_ fun _ _ => .inr
          rw [and_iff_right (registration?_ne_none.mpr ⟨s, hs⟩), and_true]

/-- **The value of a field fits, or the failure is there.** -/
theorem explores_writeField {e : FieldEntry} (he : e.serializer = none)
    (hparam : ∀ p, e.type ≠ .param p) {o : ObjectId} {v : Value} (hget : e.slot.get h o = .ok v)
    (hv : v.Within S) {resolved : Option ConcreteType}
    (hres : resolved = none ∨ ∃ lookup, resolved = e.type.resolve lookup) :
    c.Explores h S (c.Accepts h e v) (fun p => v = .object p)
      (c.writeField h nested e o resolved) := by
  rw [writeField_of_get _ _ _ hget]
  split
  · next hbad =>
    simp only [Bool.and_eq_true, Bool.not_eq_true'] at hbad
    refine explores_fail (fun hP => ?_) _
    have := hP.nullable (Value.eq_null_of_isNull hbad.1)
    simp [hbad.2] at this
  · next hok =>
    have hnull : v = .null → e.nullable = true := by
      rintro rfl
      simpa [Value.isNull] using hok
    cases hraw : e.rawType with
    | some t =>
        obtain ⟨args, hk⟩ := e.knownType_of_rawType hraw hres
        rw [FieldEntryOf.plan_of_knownType he hk]
        refine (explores_ofType hc hn e hv hnull ⟨t, args⟩).congr ⟨fun hP => hP.known t hraw,
          fun hP => ⟨hnull, fun u hu => ?_, fun hdyn hnone => ?_⟩⟩ fun _ _ => id
        · cases hraw.symm.trans hu
          exact hP
        · simp [FieldEntryOf.rawType, hdyn, hnone, FieldType.rawType] at hraw
    | none =>
        -- what is not known is dynamic, as there are no type parameters
        obtain ⟨hvalue, htype⟩ := Option.or_eq_none_iff.mp hraw
        have hdyn : e.type = .dynamic := by
          cases hty : e.type <;> rw [hty] at htype <;> first | cases htype; done | rfl | skip
          exact absurd hty (hparam _)
        have hplan : e.plan c resolved = .ok .dynamic := by
          have hresolved : resolved = none := by
            rcases hres with h | ⟨lookup, h⟩
            · exact h
            · rw [h, hdyn]
              rfl
          have hk := e.knownType_of_rawType_none hraw
          simp only [FieldEntryOf.plan, he, hresolved, hk]
        rw [hplan]
        refine (explores_writeTagged hc hn hv).congr ⟨fun hP => hP.dynamic hdyn hvalue,
          fun hP => ⟨hnull, fun u hu => ?_, fun _ _ => hP⟩⟩ fun _ _ => id
        cases hraw.symm.trans hu

end

/-! ### The walk -/

section

variable (hc : c.Lists rs) (hparams : ∀ r ∈ rs, r.decl.params.isEmpty = true)
  (hfixed : ∀ r ∈ rs, ∀ e ∈ r.entries, ∀ p, e.type ≠ .param p)
  (hclosed : h.Closed c.writtenSlots S)
  (hsize : ∀ o, S o → ∀ r, c.record (.object (h.get o).owner) = .ok r →
    (h.get o).slots.length = r.decl.fields.length)

section

variable {nested : Frame → Value → WriteM Unit}
  (hn : ∀ f v, Served rs f.type f.serializer → f.Takes h v → v.Within S →
    c.Explores h S True (fun o => v = .object o) (nested f v))
include hc hfixed hclosed hsize hn

theorem explores_writeFieldsDirect {r : RecordSerializer} (hr : r ∈ rs) (own : Option TypeScope)
    {o : ObjectId} (hS : S o) (hid : (h.get o).owner = r.decl.id) {t : FieldTable}
    (ht : ∀ e ∈ t, e ∈ r.entries) :
    c.Explores h S
      (∀ e ∈ t, e.serialized = true → ∀ v, (h.get o).slots[e.slot.index]? = some v →
        c.Accepts h e v)
      (fun p => ∃ e ∈ t, e.serialized = true ∧ (h.get o).slots[e.slot.index]? = some (.object p))
      (c.writeFieldsDirect h nested r own o t) := by
  induction t with
  | nil => exact (explores_pure _).congr (by simp) (by simp)
  | cons e t ih =>
      obtain ⟨he, ht⟩ := List.forall_mem_cons.mp ht
      have hrest := ih ht
      simp only [writeFieldsDirect]
      split
      · next hs =>
        obtain ⟨v, hget, hslot⟩ := hc.get_of_entry hr he hs hid
          (hsize o hS r (hid ▸ hc.record_eq hr))
        have hv := Slot.getElem?_of_get hget
        refine explores_get_bind fun st => (explores_bind (explores_inField
          (explores_writeField hc hn ((hc.plain r hr).follows.bare e he) (hfixed r hr e he) hget
            (hclosed o hS _ hslot v hv) (r.fieldType_eq own _ e))) fun _ _ => hrest).congr ?_ ?_
        · simp [hs, hv]
        · simp [hs, hv]
      · next hs => exact hrest.congr (by simp [hs]) (by simp [hs])

include hparams

/-- What stands in a frame: an object fits, and what it leads to is gone through. -/
theorem explores_writeWithDirect {f : Frame} (hf : Served rs f.type f.serializer) {v : Value}
    (hv : h.typeOf v = some f.type) (hS : v.Within S) :
    c.Explores h S (∀ o, v = .object o → c.Proper h o)
      (fun p => ∃ o, v = .object o ∧ h.Leads c.writtenSlots o p)
      (c.writeWithDirect h nested f.args f.serializer v) := by
  obtain ⟨t, s, args, nullable⟩ := f
  cases hf with
  | stock hs =>
      cases t <;> cases hs <;> cases v <;> cases hv <;>
        exact (explores_item _).congr (by simp) (by simp)
  | @record r hr =>
      obtain ⟨o, rfl⟩ : ∃ o, v = .object o := by
        cases v with
        | object o => exact ⟨o, rfl⟩
        | _ => cases hv
      have hid : (h.get o).owner = r.decl.id := ValueType.object.inj (Option.some.inj hv)
      -- the class has no parameters, so that the arguments bind nothing
      have hown : r.bindings args = .ok none := by
        simp [RecordSerializerOf.bindings, hparams r hr]
      have hinst : h.instanceOf r.decl.id (.object o) = .ok o :=
        Heap.instanceOf_eq_ok.mpr ⟨rfl, hid⟩
      simp only [writeWithDirect, writeRecordDirect, hown, hinst, Except.mapError, Pass.ofExcept,
        pure_bind]
      refine explores_inScope _ ((explores_writeFieldsDirect hc hfixed hclosed hsize hn hr none
        (hS o rfl) hid fun _ he => he).congr ?_ ?_)
      · simp only [Value.object.injEq, forall_eq', Proper, hid, hc.record_eq hr, Except.ok.injEq]
      · rintro - p ⟨_, ⟨⟩, i, hi, hp⟩
        obtain ⟨e, he, hs, rfl⟩ := (hc.slots_iff hr).mp (hid ▸ hi)
        exact ⟨e, he, hs, hp⟩

end

/-- A value that may stand in the frame is written, and what is below it is gone through. -/
theorem explores_writeAround {f : Frame} {v : Value} (hv : f.Takes h v) (hS : v.Within S)
    {body : WriteM Unit}
    (hbody : h.typeOf v = some f.type → c.Explores h S (∀ o, v = .object o → c.Proper h o)
      (fun p => ∃ o, v = .object o ∧ h.Leads c.writtenSlots o p) body) :
    c.Explores h S True (fun o => v = .object o) (c.writeAround h f v body) := by
  have hpresence : ∀ b, c.Explores h S True (fun _ => False)
      (if b = true then WriteM.item (.bool true) else pure ()) := by
    intro b
    split
    · exact explores_item _
    · exact explores_pure _
  rcases hv with ⟨rfl, hnull⟩ | hv
  · -- null is a marker or a presence byte
    simp only [writeAround, hnull, Value.isNull, Bool.and_self, if_true]
    split
    · exact Explores.congr (R := fun _ => False) (explores_modify fun _ => rfl) .rfl (by simp)
    · exact Explores.congr (R := fun _ => False) (explores_modify fun _ => rfl) .rfl (by simp)
  · have hbody := hbody hv
    cases v with
    | null => cases hv
    | object o =>
        have hbody : c.Explores h S (c.Proper h o) (h.Leads c.writtenSlots o) body :=
          hbody.congr (by simp) (by simp)
        have href : f.type.isReference = true := isReference_of_typeOf hv
        simp only [writeAround, href, Bool.true_and]
        split
        · exact (explores_meet (hS o rfl) hbody).congr .rfl (by simp)
        · next hr =>
          have hr : c.references = false := by simpa using hr
          simp only [Value.isNull, Value.object?, Bool.false_eq_true, if_false]
          refine explores_then (hpresence _) fun _ => ?_
          exact (explores_onPath hr (hS o rfl) hbody _).congr .rfl (by simp)
    | _ =>
        have href : f.type.isReference = false := isReference_of_typeOf hv
        simp only [writeAround, href, Bool.false_and, Value.isNull, Value.object?,
          Bool.false_eq_true, if_false]
        exact explores_then (hpresence _) fun _ => hbody.congr (by simp) (by simp)

include hc hparams hfixed hclosed hsize

theorem explores_writeDirect (n : Nat) (f : Frame) (v : Value)
    (hf : Served rs f.type f.serializer) (hv : f.Takes h v) (hS : v.Within S) :
    c.Explores h S True (fun o => v = .object o) (c.writeDirect h n f v) := by
  induction n generalizing f v with
  | zero => exact fun _ _ _ => .inl rfl
  | succ n ih =>
      rw [writeDirect]
      exact explores_writeAround hv hS fun ht =>
        explores_writeWithDirect hc hparams hfixed hclosed hsize ih hf ht hS

end

/-! ### Whole passes -/

/-- **Writing accepts exactly the well-formed graphs.**  No registered class has type parameters,
and the objects below the value have the number of slots that their class was registered with. -/
theorem writeValue_accepts (hc : c.Standard) (out : Output) {v : Value}
    (hparams : ∀ owner r, c.record (.object owner) = .ok r → r.decl.params.isEmpty = true)
    (hsize : ∀ o, h.Reach c.writtenSlots v o → ∀ r, c.record (.object (h.get o).owner) = .ok r →
      (h.get o).slots.length = r.decl.fields.length) :
    (c.writeValue h out v).result = .ok () ↔ c.WellFormed h v := by
  have hdeclared := @Standard.declared c hc
  obtain ⟨rs, hc⟩ := hc.lists
  have hparams : ∀ r ∈ rs, r.decl.params.isEmpty = true := fun r hr =>
    hparams _ r (hc.record_eq hr)
  have hfixed : ∀ r ∈ rs, ∀ e ∈ r.entries, ∀ p, e.type ≠ .param p := fun r hr e he =>
    type_ne_param (hc.plain r hr) (hdeclared (hc.known r hr))
      (List.isEmpty_iff.mp (hparams r hr)) he
  have hdepth := hc.writeValue_ends h out v
  have hcycles : c.references = false → c.TellsCycles h v (c.writeValue h out v) := fun hr =>
    tellsCycles_runWrite hdepth
      (traces_writeTagged hc (fun f w hf => traces_writeFramed hc hr _ hf w) v)
  have hrun := explores_writeTagged hc (explores_writeDirect hc hparams hfixed
    (h.closed_reach c.writtenSlots v) hsize (writeDepth h)) (h.within_reach _ v)
    ⟨out, .empty, [], ⟨.empty, c.cells⟩⟩
  have hresult := (hc.writeValue_direct h out v).1
  simp only [Meets] at hrun
  rcases hr : c.writeTagged h (c.writeDirect h (writeDepth h)) v
    ⟨out, .empty, [], ⟨.empty, c.cells⟩⟩ with ⟨e | ⟨⟩, st⟩ <;> rw [hr] at hrun hresult
  · refine ⟨fun hok => (by cases hok.symm.trans hresult), fun hv => ?_⟩
    rcases hrun hv.registered hv.proper with rfl | ⟨hrefs, x, owner, rfl, hx⟩
    · exact absurd hresult hdepth
    · obtain ⟨o, ho, -, hcycle⟩ := (hcycles hrefs).found x owner hresult hx
      exact absurd hcycle (hv.acyclic hrefs o ho)
  · obtain ⟨hregistered, T, hT, hroot⟩ := hrun
    exact iff_of_true hresult ⟨hregistered, fun o => hT.proper_of_reach hroot,
      fun hrefs => (hcycles hrefs).clear hresult⟩

/-- A link to itself is well-formed, and a link to a number is not. -/
theorem writeValue_accepts_links :
    links.WellFormed ⟨#[⟨link, [.object 0, .int 5]⟩]⟩ (.object 0) ∧
      ¬ links.WellFormed ⟨#[⟨link, [.int 5, .int 5]⟩]⟩ (.object 0) := by
  have hparams : ∀ owner r, links.record (.object owner) = .ok r →
      r.decl.params.isEmpty = true := fun owner r hr => by
    rw [eq_of_registrations (.make link .standard .empty none 0) rfl hr]
    rfl
  have hsize : ∀ x : Value, x.Within (· = 0) →
      ∀ o, Heap.Reach ⟨#[⟨link, [x, .int 5]⟩]⟩ links.writtenSlots (.object 0) o →
        ∀ r, links.record (.object (Heap.get ⟨#[⟨link, [x, .int 5]⟩]⟩ o).owner) = .ok r →
          (Heap.get ⟨#[⟨link, [x, .int 5]⟩]⟩ o).slots.length = r.decl.fields.length := by
    intro x hx o ho r hr
    obtain rfl : o = 0 := (Heap.reach_loop (by simpa [Heap.get, Value.Within] using hx)).mp ho
    rw [eq_of_registrations (.make link .standard .empty none 0) rfl hr]
    rfl
  refine ⟨(writeValue_accepts standard_links .empty hparams
    (hsize (.object 0) (by simp [Value.Within]))).mp (by decide +kernel), fun hv => ?_⟩
  have hok := (writeValue_accepts standard_links .empty hparams
    (hsize (.int 5) (by simp [Value.Within]))).mpr hv
  exact absurd hok (by decide +kernel)

end Codec

end GraphCodec
