import Mathlib.Logic.Function.Basic
import GraphCodec.Proofs.Marks
import GraphCodec.Proofs.Setup

/-!
# Codecs — tables follow the configuration

A codec is *configured* by registering record serializers without hooks and by changing options,
fields and the ambient context, in any order.  `c.Configured removed` says that such changes led to
`c`, where `removed` gives for each type the places of the fields that were taken out since its
field table was last built.

* `Fits`: a table is a new one for the present context, up to settings, without the fields that
  were taken out.  There is one lemma for each change of a serializer.
* `AllFit`: every serializer fits its codec.  Each change of the codec keeps this
  (`Configured.allFit`).
* `tables_follow`: what that means for a configured codec.
-/

namespace GraphCodec

/-! ### One serializer -/

/-- The serializer is for a known class and the present context, and its table is a new one up to
settings, without the fields that were taken out. -/
structure RecordSerializerOf.Fits (r : RecordSerializer) (catalog : Catalog)
    (context : Table String String) (gone : List Nat) : Prop where
  hooks : r.hooks = none
  known : catalog.get? r.decl.id = some r.decl
  captured : ∀ key, r.context.get? key = context.get? key
  located : FieldTable.Located r.decl r.entries
  marks : FieldTable.marks r.entries =
    FieldTable.marks (FieldTable.without (FieldTable.build r.decl r.options context) gone)

namespace RecordSerializerOf

variable {r : RecordSerializer} {catalog : Catalog} {context : Table String String}
  {gone : List Nat}

theorem fits_make {d : ClassDecl} (hd : catalog.get? d.id = some d) (options : FieldOptions)
    (context : Table String String) (cell : Nat) :
    (make d options context none cell).Fits catalog context [] where
  hooks := rfl
  known := hd
  captured _ := rfl
  located := FieldTable.located_build d options context
  marks := by
    rw [FieldTable.without_nil]
    rfl

namespace Fits

/-- Options give a new table, for the present context. -/
theorem withOptions (h : r.Fits catalog context gone) (options : FieldOptions) :
    (r.withOptions options).entries = FieldTable.build r.decl options context ∧
      (r.withOptions options).Fits catalog context [] := by
  have hentries : (r.withOptions options).entries = FieldTable.build r.decl options context := by
    rw [RecordSerializerOf.withOptions, h.hooks]
    exact FieldTable.build_congr h.captured _ _
  refine ⟨hentries, h.hooks, h.known, h.captured, ?_, ?_⟩
  · rw [hentries]
    exact FieldTable.located_build _ _ _
  · rw [hentries, FieldTable.without_nil]
    rfl

/-- Another context gives a new table. -/
theorem withContext (h : r.Fits catalog context gone) (context' : Table String String) :
    (r.withContext context').entries = FieldTable.build r.decl r.options context' ∧
      (r.withContext context').Fits catalog context' [] := by
  rw [RecordSerializerOf.withContext, h.hooks]
  exact ⟨rfl, fits_make h.known r.options context' r.cell⟩

theorem modify (h : r.Fits catalog context gone) (name : String)
    (settings : FieldSettings Serializer) :
    (r.mapEntries (FieldTable.modify name settings.apply)).Fits catalog context gone where
  hooks := h.hooks
  known := h.known
  captured := h.captured
  located := h.located.modify name settings
  marks := (FieldTable.marks_modify name settings r.entries).trans h.marks

/-- What is taken out of the table counts as gone. -/
theorem without (h : r.Fits catalog context gone) (places : List Nat) :
    (r.mapEntries fun t => FieldTable.without t places).Fits catalog context (places ++ gone) where
  hooks := h.hooks
  known := h.known
  captured := h.captured
  located := h.located.sublist List.filter_sublist
  marks := FieldTable.marks_without_of_eq h.marks places

theorem remove (h : r.Fits catalog context gone) {name : String} {e : FieldEntry}
    (he : r.entry name = .ok e) :
    (r.mapEntries fun t => FieldTable.remove t name).Fits catalog context
      (e.slot.index :: gone) := by
  have he : FieldTable.get? r.entries name = some e := by
    simp only [entry] at he
    split at he <;> cases he
    assumption
  have heq : (r.mapEntries fun t => FieldTable.remove t name) =
      r.mapEntries fun t => FieldTable.without t [e.slot.index] := by
    simp only [mapEntries, h.located.remove_eq he]
  rw [heq]
  exact h.without [e.slot.index]

theorem removeAll (h : r.Fits catalog context gone) (condition : FieldEntry → Bool) :
    (r.mapEntries (List.filter fun e => !condition e)).Fits catalog context
      ((r.entries.filter condition).map (fun e => e.slot.index) ++ gone) := by
  have heq : (r.mapEntries (List.filter fun e => !condition e)) = r.mapEntries fun t =>
      FieldTable.without t ((r.entries.filter condition).map fun e => e.slot.index) := by
    simp only [mapEntries, h.located.filter_eq condition]
  rw [heq]
  exact h.without _

/-- Only the entries of a context matter. -/
theorem of_context (h : r.Fits catalog context gone) {context' : Table String String}
    (hc : ∀ key, context.get? key = context'.get? key) : r.Fits catalog context' gone :=
  { h with
    captured := fun key => (h.captured key).trans (hc key)
    marks := h.marks.trans (by rw [FieldTable.build_congr hc]) }

/-- New classes leave known ones alone. -/
theorem add (h : r.Fits catalog context gone) {d : ClassDecl} (hd : catalog.get? d.id = none) :
    r.Fits (catalog.add d) context gone :=
  { h with
    known := by
      rw [Codec.get?_add, if_neg, h.known]
      intro he
      rw [he, h.known] at hd
      cases hd }

end Fits

end RecordSerializerOf

/-! ### All serializers -/

namespace Codec

variable {c k : Codec} {removed : ValueType → List Nat}

/-- Classes are under their identities, each type has one registration, and each record serializer
fits the codec. -/
structure AllFit (c : Codec) (removed : ValueType → List Nat) : Prop where
  ids : ∀ id d, c.catalog.get? id = some d → d.id = id
  types : (c.registrations.map Registration.type).Nodup
  fits : ∀ x ∈ c.registrations, ∀ r, x.serializer = .record r →
    x.exposed = true ∧ r.Fits c.catalog c.context (removed x.type)

theorem mem_place {x y : Registration} {l : List Registration}
    (hl : (l.map Registration.type).Nodup) (hy : y ∈ place x l) :
    y = x ∨ y ∈ l ∧ y.type ≠ x.type := by
  induction l with
  | nil => exact .inl (List.mem_singleton.mp hy)
  | cons z l ih =>
      obtain ⟨hz, hl⟩ := List.nodup_cons.mp hl
      simp only [place] at hy
      split at hy
      · next hzx =>
        rcases List.mem_cons.mp hy with rfl | hy
        · exact .inl rfl
        · refine .inr ⟨List.mem_cons_of_mem _ hy, fun he => hz ?_⟩
          exact List.mem_map.mpr ⟨y, hy, he.trans hzx.symm⟩
      · next hzx =>
        rcases List.mem_cons.mp hy with rfl | hy
        · exact .inr ⟨List.mem_cons_self, hzx⟩
        · rcases ih hl hy with h | ⟨h, hne⟩
          · exact .inl h
          · exact .inr ⟨List.mem_cons_of_mem _ h, hne⟩

theorem mem_of_record {owner : ValueType} {r : RecordSerializer} (h : c.record owner = .ok r) :
    (⟨owner, .record r, true⟩ : Registration) ∈ c.registrations := by
  simp only [record] at h
  split at h
  · cases h
  · next t _ hx =>
    cases h
    obtain rfl : t = owner := by simpa using List.find?_some hx
    exact List.mem_of_find?_eq_some hx
  · cases h

namespace AllFit

theorem of_record (h : c.AllFit removed) {owner : ValueType} {r : RecordSerializer}
    (hr : c.record owner = .ok r) : r.Fits c.catalog c.context (removed owner) :=
  (h.fits _ (mem_of_record hr) r rfl).2

/-- A registration takes the place of the one for its type. -/
theorem register (h : c.AllFit removed) {x : Registration} {gone : List Nat}
    (hx : ∀ r, x.serializer = .record r → x.exposed = true ∧ r.Fits c.catalog c.context gone) :
    (c.register x).AllFit (Function.update removed x.type gone) where
  ids := h.ids
  types := by
    show ((place x c.registrations).map Registration.type).Nodup
    rw [types_place]
    split
    · exact h.types
    · next hnew =>
      exact List.nodup_append.mpr ⟨h.types, List.nodup_singleton _, fun t ht t' ht' he =>
        hnew (List.mem_singleton.mp ht' ▸ he ▸ ht)⟩
  fits := by
    intro y hy r hr
    rcases mem_place h.types hy with rfl | ⟨hy, hne⟩
    · rw [Function.update_self]
      exact hx r hr
    · rw [Function.update_of_ne hne]
      exact h.fits y hy r hr

/-- Cells hold nothing that the tables are about. -/
theorem withCells (h : c.AllFit removed) (cells : ArgumentCells) :
    (c.withCells cells).AllFit removed :=
  { h with }

theorem putRecord (h : c.AllFit removed) {owner : ValueType} {r : RecordSerializer}
    {gone : List Nat} (hr : r.Fits c.catalog c.context gone) :
    (c.putRecord owner r).AllFit (Function.update removed owner gone) :=
  h.register fun _ he => Serializer.record.inj he ▸ ⟨rfl, hr⟩

theorem reshape (h : c.AllFit removed) {owner : ValueType} {r : RecordSerializer}
    {gone : List Nat} (hr : r.Fits c.catalog c.context gone) :
    (c.reshape owner r).AllFit (Function.update removed owner gone) :=
  (h.putRecord hr).withCells _

theorem add (h : c.AllFit removed) {d : ClassDecl} (hd : c.catalog.get? d.id = none) :
    AllFit { c with catalog := c.catalog.add d } removed where
  ids := by
    intro id d' hid
    rw [get?_add] at hid
    split at hid
    · next he =>
      cases hid
      exact he
    · exact h.ids id d' hid
  types := h.types
  fits x hx r hr := ⟨(h.fits x hx r hr).1, (h.fits x hx r hr).2.add hd⟩

/-- In a context with the same entries nothing is built. -/
theorem setContext_eq (h : c.AllFit removed) {context : Table String String}
    (hsame : ∀ key, c.context.get? key = context.get? key) :
    (c.setContext context).registrations = c.registrations ∧
      (c.setContext context).cells = c.cells := by
  have haffected : ∀ x ∈ c.registrations, affected? context x = none := by
    intro x hx
    simp only [affected?]
    split
    · next r =>
      have hr := (h.fits _ hx r rfl).2
      exact if_pos (Table.sameEntries_iff.mpr fun key => (hr.captured key).trans (hsame key))
    · rfl
  constructor
  · refine (List.map_congr_left fun x hx => ?_).trans (List.map_id _)
    rw [follow, haffected x hx]
    rfl
  · simp only [Codec.setContext, List.filterMap_eq_nil_iff.mpr haffected, List.foldl_nil]

/-- In a context with other entries each record serializer is built anew. -/
theorem exists_of_mem_setContext (h : c.AllFit removed) {context : Table String String}
    (hother : ∃ key, c.context.get? key ≠ context.get? key) {x : Registration}
    (hx : x ∈ (c.setContext context).registrations) {r : RecordSerializer}
    (hr : x.serializer = .record r) :
    ∃ x₀ ∈ c.registrations, ∃ r₀, x₀.serializer = .record r₀ ∧ x₀.exposed = x.exposed ∧
      x₀.type = x.type ∧ r = r₀.withContext context := by
  obtain ⟨x₀, hx₀, rfl⟩ := List.mem_map.mp hx
  cases hs : x₀.serializer with
  | record r₀ =>
      obtain ⟨hexposed, hfits⟩ := h.fits x₀ hx₀ r₀ hs
      obtain ⟨t, _, _⟩ := x₀
      obtain rfl : _ = true := hexposed
      obtain rfl : _ = Serializer.record r₀ := hs
      have hdiffer : r₀.context.sameEntries context = false := by
        refine Bool.eq_false_iff.mpr fun hsame => ?_
        obtain ⟨key, hkey⟩ := hother
        exact hkey ((hfits.captured key).symm.trans (Table.sameEntries_iff.mp hsame key))
      simp only [follow, affected?, hdiffer] at hr ⊢
      exact ⟨_, hx₀, r₀, rfl, rfl, rfl, (Serializer.record.inj hr).symm⟩
  | _ =>
      -- no other serializer becomes a record serializer
      have hnone : affected? context x₀ = none := by
        simp only [affected?]
        split
        · cases hs
        · rfl
      rw [follow, hnone, hs] at hr
      cases hr

theorem setContext (h : c.AllFit removed) {context : Table String String}
    (hother : ∃ key, c.context.get? key ≠ context.get? key) :
    (c.setContext context).AllFit fun _ => [] where
  ids := h.ids
  types := by
    have htype : ∀ x, (follow context x).type = x.type := by
      intro x
      simp only [follow]
      split <;> rfl
    simpa [Codec.setContext, Function.comp_def, htype] using h.types
  fits := by
    intro x hx r hr
    obtain ⟨x₀, hx₀, r₀, hr₀, hexposed, -, rfl⟩ := h.exists_of_mem_setContext hother hx hr
    obtain ⟨he, hfits⟩ := h.fits x₀ hx₀ r₀ hr₀
    exact ⟨hexposed ▸ he, (hfits.withContext context).2⟩

theorem keepContext (h : c.AllFit removed) {context : Table String String}
    (hsame : ∀ key, c.context.get? key = context.get? key) :
    (c.setContext context).AllFit removed := by
  obtain ⟨hregs, -⟩ := h.setContext_eq hsame
  refine ⟨h.ids, hregs ▸ h.types, fun x hx r hr => ?_⟩
  rw [hregs] at hx
  exact ⟨(h.fits x hx r hr).1, (h.fits x hx r hr).2.of_context hsame⟩

end AllFit

theorem buildRecord_eq_ok {owner : ClassId} {options : FieldOptions} {hooks : Option (Hooks Value)}
    {r : RecordSerializer} (h : c.buildRecord owner options hooks = .ok (r, k)) :
    ∃ d, c.catalog.get? owner = some d ∧ r = .make d options c.context hooks c.cells.alloc.1 ∧
      k = c.withCells c.cells.alloc.2 := by
  obtain ⟨d, hd, h⟩ := except_bind_eq_ok.mp h
  cases h
  refine ⟨d, ?_, rfl, rfl⟩
  rw [except_mapError_eq_ok, classDecl] at hd
  split at hd <;> cases hd
  assumption

/-- A type can be given a serializer of the stock, or one for the fields of a known class. -/
theorem AllFit.registerSpec (h : c.AllFit removed) {t : ValueType} {spec : SerializerSpec Value}
    (hspec : spec.isExposed = true) {n : Nat} (hk : c.registerSpec t spec = .ok (n, k)) :
    k.AllFit (Function.update removed t []) := by
  obtain ⟨⟨s, c'⟩, hbuild, hk⟩ := except_bind_eq_ok.mp hk
  cases hk
  rw [hspec]
  cases spec with
  | stock =>
      cases hbuild
      refine h.register fun r hr => ?_
      cases hr
  | record owner options hooks =>
      obtain rfl : hooks = none := by simpa [SerializerSpec.isExposed] using hspec
      obtain ⟨⟨r, c''⟩, hbuild, hs⟩ := except_bind_eq_ok.mp hbuild
      cases hs
      obtain ⟨d, hd, rfl, rfl⟩ := buildRecord_eq_ok hbuild
      have hd' : c.catalog.get? d.id = some d := (h.ids owner d hd).symm ▸ hd
      refine (h.withCells _).register fun r hr => ⟨rfl, ?_⟩
      exact Serializer.record.inj hr ▸ RecordSerializerOf.fits_make hd' _ _ _
  | catching => cases hspec
  | orNew => cases hspec

/-- Reached from a new codec by setting up with record serializers without hooks, and by passes.
With the codec goes, for each type, at which places fields were taken out of the table of its
serializer since that was last built. -/
inductive Configured : Codec → (ValueType → List Nat) → Prop
  | new : Configured .new fun _ => []
  | registerClass {c k : Codec} {removed : ValueType → List Nat} {d : ClassDecl}
      {plan : ClassPlan Value} {n : Nat} (hc : Configured c removed)
      (hplan : plan = .refuse ∨ plan = .standard ∨ ∃ options, plan = .configured options)
      (h : c.registerClass d plan = (.ok n, k)) : Configured k (Function.update removed d.type [])
  /-- The class is not registered, but may be known from now on. -/
  | refuseClass {c k : Codec} {removed : ValueType → List Nat} {d : ClassDecl}
      {plan : ClassPlan Value} {e : CodecError} (hc : Configured c removed)
      (hplan : plan = .refuse ∨ plan = .standard ∨ ∃ options, plan = .configured options)
      (h : c.registerClass d plan = (.error e, k)) : Configured k removed
  | registerSpec {c k : Codec} {removed : ValueType → List Nat} {t : ValueType}
      {spec : SerializerSpec Value} {n : Nat} (hc : Configured c removed)
      (hspec : spec.isExposed = true) (h : c.registerSpec t spec = .ok (n, k)) :
      Configured k (Function.update removed t [])
  | setDefaults {c : Codec} {removed : ValueType → List Nat} (hc : Configured c removed)
      (options : FieldOptions) : Configured (c.setDefaults options) removed
  | setReferences {c : Codec} {removed : ValueType → List Nat} (hc : Configured c removed)
      (on : Bool) : Configured (c.setReferences on) removed
  | setContext {c : Codec} {removed : ValueType → List Nat} (hc : Configured c removed)
      {context : Table String String} (h : ∃ key, c.context.get? key ≠ context.get? key) :
      Configured (c.setContext context) fun _ => []
  | keepContext {c : Codec} {removed : ValueType → List Nat} (hc : Configured c removed)
      {context : Table String String} (h : ∀ key, c.context.get? key = context.get? key) :
      Configured (c.setContext context) removed
  | setOptions {c k : Codec} {removed : ValueType → List Nat} {owner : ClassId}
      {options : FieldOptions} {r : RecordSerializer} (hc : Configured c removed)
      (h : c.setOptions owner options = .ok (r, k)) :
      Configured k (Function.update removed (.object owner) [])
  | removeField {c k : Codec} {removed : ValueType → List Nat} {owner : ClassId} {name : String}
      {e : FieldEntry} {r : RecordSerializer} (hc : Configured c removed)
      (h : c.removeField owner name = .ok (e, r, k)) :
      Configured k (Function.update removed (.object owner)
        (e.slot.index :: removed (.object owner)))
  | removeFields {c k : Codec} {removed : ValueType → List Nat} {owner : ClassId}
      {condition : FieldEntry → Bool} {r₀ r : RecordSerializer} (hc : Configured c removed)
      (h₀ : c.record (.object owner) = .ok r₀)
      (h : c.removeFields owner condition = .ok (r, k)) :
      Configured k (Function.update removed (.object owner)
        ((r₀.entries.filter condition).map (fun e => e.slot.index) ++ removed (.object owner)))
  | configureField {c k : Codec} {removed : ValueType → List Nat} {owner : ClassId} {name : String}
      {settings : FieldSettings Serializer} {e : FieldEntry} (hc : Configured c removed)
      (h : c.configureField owner name settings = .ok (e, k)) : Configured k removed
  /-- Passes change cells only. -/
  | pass {c k : Codec} {removed : ValueType → List Nat} (hc : Configured c removed)
      (h : c.Alike k) : Configured k removed

/-- **Each change keeps tables that fit.** -/
theorem Configured.allFit (hc : c.Configured removed) : c.AllFit removed := by
  induction hc with
  | new =>
      refine ⟨nofun, by decide, fun x hx r hr => ?_⟩
      simp only [Codec.new, builtIns, List.mem_cons, List.not_mem_nil, or_false] at hx
      rcases hx with rfl | rfl | rfl | rfl | rfl | rfl <;> cases hr
  | @registerClass c k removed d plan n _ hplan h ih =>
      rcases c.registerClass_cases d hplan with ⟨e, he⟩ | ⟨hfault, ⟨e, he⟩ | ⟨_, options, he⟩⟩
      · cases h.symm.trans he
      · cases h.symm.trans he
      · cases h.symm.trans he
        have hknown : (c.catalog.add d).get? d.id = some d := by
          rw [get?_add, if_pos rfl]
        refine ((ih.add (of_fault?_eq_none hfault).1).withCells _).register fun r hr => ⟨rfl, ?_⟩
        exact Serializer.record.inj hr ▸ RecordSerializerOf.fits_make hknown _ _ _
  | @refuseClass c k removed d plan e _ hplan h ih =>
      rcases c.registerClass_cases d hplan with ⟨e, he⟩ | ⟨hfault, ⟨e, he⟩ | ⟨_, options, he⟩⟩
      · cases h.symm.trans he
        exact ih
      · cases h.symm.trans he
        exact ih.add (of_fault?_eq_none hfault).1
      · cases h.symm.trans he
  | registerSpec _ hspec h ih => exact ih.registerSpec hspec h
  | setDefaults _ _ ih => exact { ih with }
  | setReferences _ _ ih => exact { ih with }
  | setContext _ h ih => exact ih.setContext h
  | keepContext _ h ih => exact ih.keepContext h
  | setOptions _ h ih =>
      obtain ⟨r, hr, h⟩ := except_bind_eq_ok.mp h
      cases h
      exact ih.reshape ((ih.of_record hr).withOptions _).2
  | removeField _ h ih =>
      obtain ⟨r, hr, h⟩ := except_bind_eq_ok.mp h
      obtain ⟨e, he, h⟩ := except_bind_eq_ok.mp h
      cases h
      exact ih.reshape ((ih.of_record hr).remove he)
  | removeFields _ h₀ h ih =>
      obtain ⟨r, hr, h⟩ := except_bind_eq_ok.mp h
      cases h
      obtain rfl := Except.ok.inj (hr.symm.trans h₀)
      exact ih.reshape ((ih.of_record hr).removeAll _)
  | @configureField c _ removed owner name settings _ _ h ih =>
      obtain ⟨r, hr, h⟩ := except_bind_eq_ok.mp h
      obtain ⟨e, -, h⟩ := except_bind_eq_ok.mp h
      cases h
      rw [← Function.update_eq_self (.object owner) removed]
      exact ih.putRecord ((ih.of_record hr).modify name settings)
  | pass _ h ih =>
      obtain ⟨cells, rfl⟩ := h
      exact ih.withCells cells

/-- The serializer is in step with the codec: it is for a known class and the present context,
each entry is for the field at its place, and of the fields that the context and the options let
take part all are on the lists but those at some places. -/
structure InStep (c : Codec) (r : RecordSerializer) (gone : List Nat) : Prop where
  known : c.catalog.get? r.decl.id = some r.decl
  captured : ∀ key, r.context.get? key = c.context.get? key
  located : FieldTable.Located r.decl r.entries
  written : ∀ i f, r.decl.fields[i]? = some f →
    ((∃ e ∈ FieldTable.serialized r.entries, e.slot.index = i) ↔ f.Offered c.context ∧
      (f.Transient → r.options.serializeTransient = true) ∧ i ∉ gone)
  copied : ∀ i f, r.decl.fields[i]? = some f →
    ((∃ e ∈ FieldTable.copied r.entries, e.slot.index = i) ↔ f.Offered c.context ∧
      (f.Transient → r.options.copyTransient = true) ∧ i ∉ gone)

theorem inStep_of_fits {r : RecordSerializer} {gone : List Nat}
    (h : r.Fits c.catalog c.context gone) : c.InStep r gone where
  known := h.known
  captured := h.captured
  located := h.located
  written i f hf := by
    rw [FieldTable.exists_serialized_iff, h.marks]
    simp only [FieldTable.mem_marks_without, FieldTable.mem_marks_build hf]
    constructor
    · rintro ⟨_, ⟨hoffered, hs, -, -⟩, hgone⟩
      exact ⟨hoffered, hs.mp trivial, hgone⟩
    · rintro ⟨hoffered, hs, hgone⟩
      exact ⟨decide (f.Transient → r.options.copyTransient = true),
        ⟨hoffered, iff_of_true trivial hs, decide_eq_true_iff, .inl trivial⟩, hgone⟩
  copied i f hf := by
    rw [FieldTable.exists_copied_iff, h.marks]
    simp only [FieldTable.mem_marks_without, FieldTable.mem_marks_build hf]
    constructor
    · rintro ⟨_, ⟨hoffered, -, hs, -⟩, hgone⟩
      exact ⟨hoffered, hs.mp trivial, hgone⟩
    · rintro ⟨hoffered, hs, hgone⟩
      exact ⟨decide (f.Transient → r.options.serializeTransient = true),
        ⟨hoffered, decide_eq_true_iff, iff_of_true trivial hs, .inr trivial⟩, hgone⟩

/-- **Field tables follow the declaration and the ambient context.**  Each record serializer of a
configured codec is in step with it; options give its table anew; another context gives every
table anew; and a context with the same entries changes no serializer. -/
theorem tables_follow (hc : c.Configured removed) :
    (∀ x ∈ c.registrations, ∀ r, x.serializer = .record r → c.InStep r (removed x.type)) ∧
    (∀ owner options r k, c.setOptions owner options = .ok (r, k) →
      k.record (.object owner) = .ok r ∧ r.options = options ∧
        r.entries = FieldTable.build r.decl options c.context) ∧
    (∀ context, (∃ key, c.context.get? key ≠ context.get? key) →
      ∀ x ∈ (c.setContext context).registrations, ∀ r, x.serializer = .record r →
        r.entries = FieldTable.build r.decl r.options context) ∧
    (∀ context, (∀ key, c.context.get? key = context.get? key) →
      (c.setContext context).registrations = c.registrations ∧
        (c.setContext context).cells = c.cells) := by
  have hfit := hc.allFit
  refine ⟨fun x hx r hr => inStep_of_fits (hfit.fits x hx r hr).2, ?_, ?_,
    fun context hsame => hfit.setContext_eq hsame⟩
  · intro owner options r k h
    obtain ⟨r₀, hr₀, h⟩ := except_bind_eq_ok.mp h
    cases h
    refine ⟨?_, rfl, ((hfit.of_record hr₀).withOptions options).1⟩
    show (c.putRecord _ _).record _ = _
    simp only [record, putRecord, registration?_register, if_true]
  · intro context hother x hx r hr
    obtain ⟨x₀, hx₀, r₀, hr₀, -, -, rfl⟩ := hfit.exists_of_mem_setContext hother hx hr
    exact ((hfit.fits x₀ hx₀ r₀ hr₀).2.withContext context).1

/-- A class with a plain field, one that depends on the context, and a transient one. -/
def diary : ClassDecl where
  id := ⟨"demo::Diary"⟩
  params := ⟨[]⟩
  fields :=
    [⟨"id", .fixed .int, .empty⟩, ⟨"audit", .fixed .str, .ofList [.optional "audit"]⟩,
      ⟨"cache", .fixed .int, .ofList [.transient]⟩]
  constructible := true

/-- A codec with this class, in a context that has the key. -/
def diaries : Codec :=
  (new.registerClass diary .standard).2.setContext (Table.empty.insert "audit" "on")

/-- In a diary without its first field, the audit is written and the cache is copied. -/
theorem tables_follow_diary : ∃ e r k, diaries.removeField diary.id "id" = .ok (e, r, k) ∧
    k.record diary.type = .ok r ∧
    (∀ i < 3, (∃ e ∈ FieldTable.serialized r.entries, e.slot.index = i) ↔ i = 1) ∧
    (∀ i < 3, (∃ e ∈ FieldTable.copied r.entries, e.slot.index = i) ↔ i = 1 ∨ i = 2) ∧
    (k.setContext (Table.empty.insert "audit" "on")).registrations = k.registrations ∧
    ∀ x ∈ (k.setContext .empty).registrations, ∀ r, x.serializer = .record r →
      r.entries = FieldTable.build r.decl r.options .empty := by
  have hregister : new.registerClass diary .standard =
      (.ok 6, (new.registerClass diary .standard).2) := rfl
  have hdiaries : diaries.Configured fun _ => [] :=
    .setContext (.registerClass .new (.inr (.inl rfl)) hregister) ⟨"audit", by decide⟩
  obtain ⟨e, r, k, hremove, he, hk, hdecl, hoptions, hcontext⟩ :
      ∃ e r k, diaries.removeField diary.id "id" = .ok (e, r, k) ∧ e.slot.index = 0 ∧
        k.record diary.type = .ok r ∧ r.decl = diary ∧ r.options = .standard ∧
          k.context = Table.empty.insert "audit" "on" :=
    ⟨_, _, _, rfl, rfl, rfl, rfl, rfl, rfl⟩
  obtain ⟨hstep, -, hother, hsame⟩ := tables_follow (.removeField hdiaries hremove)
  have hr := hstep _ (mem_of_record hk) r rfl
  have hgone : ∀ i, i ∉ Function.update (fun _ => []) (ValueType.object diary.id)
      (e.slot.index :: []) diary.type ↔ i ≠ 0 := by
    intro i
    rw [ClassDecl.type, Function.update_self, he]
    exact List.mem_singleton.not
  -- the context offers all three fields, of which the last one is transient
  have hfields : ∀ i < 3, ∃ f, r.decl.fields[i]? = some f ∧ f.Offered k.context ∧
      (f.Transient ↔ i = 2) := by
    rw [hdecl, hcontext]
    intro i hi
    obtain rfl | rfl | rfl : i = 0 ∨ i = 1 ∨ i = 2 := by omega
    · exact ⟨_, rfl, fun _ hkey => (Option.some_ne_none _ hkey.symm).elim, by decide⟩
    · exact ⟨_, rfl, fun _ hkey => Option.some.inj hkey ▸ rfl, by decide⟩
    · exact ⟨_, rfl, fun _ hkey => (Option.some_ne_none _ hkey.symm).elim, by decide⟩
  refine ⟨e, r, k, hremove, hk, fun i hi => ?_, fun i hi => ?_,
    (hsame _ fun key => by rw [hcontext]).1, hother _ ⟨"audit", by rw [hcontext]; decide⟩⟩
  · obtain ⟨f, hf, hoffered, htransient⟩ := hfields i hi
    rw [hr.written i f hf, hgone, htransient, hoptions]
    simp only [hoffered, FieldOptions.standard, Bool.false_eq_true, imp_false, true_and]
    omega
  · obtain ⟨f, hf, hoffered, -⟩ := hfields i hi
    rw [hr.copied i f hf, hgone, hoptions]
    simp only [hoffered, FieldOptions.standard, implies_true, true_and]
    omega

end Codec

end GraphCodec
