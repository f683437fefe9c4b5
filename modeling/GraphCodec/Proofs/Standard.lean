import GraphCodec.Proofs.Reading
import GraphCodec.Proofs.Renaming
import GraphCodec.Proofs.Setup

/-!
# Codecs — standard codecs

A codec is *standard* when it comes from a new one by registering classes without hooks or bound
fields, by changing defaults, context, references, options and fields, and by passes of writing and
reading, in any order.  Each of these keeps the list of plain record serializers with quiet cells,
so that every standard codec has one (`Standard.lists`).  Type arguments are never left from
outside, and no serializer is asked for by name.
-/

namespace GraphCodec

namespace Codec

variable {c k : Codec} {rs : List RecordSerializer}

/-- Reached from a new codec by setting up in the ways that need no serializer, and by passes. -/
inductive Standard : Codec → Prop
  | new : Standard .new
  | registerClass {c : Codec} {d : ClassDecl} {plan : ClassPlan Value} (hc : Standard c)
      (hd : d.Unbound)
      (hplan : plan = .refuse ∨ plan = .standard ∨ ∃ options, plan = .configured options) :
      Standard (c.registerClass d plan).2
  | setDefaults {c : Codec} (hc : Standard c) (options : FieldOptions) :
      Standard (c.setDefaults options)
  | setContext {c : Codec} (hc : Standard c) (context : Table String String) :
      Standard (c.setContext context)
  | setReferences {c : Codec} (hc : Standard c) (on : Bool) : Standard (c.setReferences on)
  | setOptions {c k : Codec} {owner : ClassId} {options : FieldOptions} {r : RecordSerializer}
      (hc : Standard c) (h : c.setOptions owner options = .ok (r, k)) : Standard k
  | removeField {c k : Codec} {owner : ClassId} {name : String} {e : FieldEntry}
      {r : RecordSerializer} (hc : Standard c) (h : c.removeField owner name = .ok (e, r, k)) :
      Standard k
  | removeFields {c k : Codec} {owner : ClassId} {condition : FieldEntry → Bool}
      {r : RecordSerializer} (hc : Standard c) (h : c.removeFields owner condition = .ok (r, k)) :
      Standard k
  | configureField {c k : Codec} {owner : ClassId} {name : String}
      {settings : FieldSettings Serializer} {e : FieldEntry} (hc : Standard c)
      (hs : settings.Bare) (h : c.configureField owner name settings = .ok (e, k)) : Standard k
  | writeValue {c : Codec} (hc : Standard c) (h : Heap) (out : Output) (v : Value) :
      Standard (c.writeValue h out v).codec
  | writeUntagged {c : Codec} (hc : Standard c) (h : Heap) (out : Output) (v : Value)
      (args : List ConcreteType) : Standard (c.writeUntagged h out v args).codec
  | readValue {c : Codec} (hc : Standard c) (depth : Nat) (h : Heap) (input : Input) :
      Standard (c.readValue depth h input).codec
  | readUntagged {c : Codec} (hc : Standard c) (depth : Nat) (h : Heap) (input : Input)
      (t : ValueType) (args : List ConcreteType) :
      Standard (c.readUntagged depth h input t args).codec

theorem lists_new : Codec.new.Lists [] :=
  ⟨rfl, List.nodup_nil, List.forall_mem_nil _, List.forall_mem_nil _, List.nodup_nil,
    List.forall_mem_nil _, List.forall_mem_nil _, List.forall_mem_nil _⟩

/-- The depth that a write starts with is enough for every value. -/
theorem Lists.writeValue_ends (hc : c.Lists rs) (h : Heap) (out : Output) (v : Value) :
    (c.writeValue h out v).result ≠ .error .tooDeep :=
  (runWrite_of_relates hc.quiet hc.quiet out
    (relates_writeValue hc (Heap.renames_id _ h) fun _ _ => trivial)).1.1

theorem Lists.writeUntagged_ends (hc : c.Lists rs) (h : Heap) (out : Output) (v : Value)
    (args : List ConcreteType) : (c.writeUntagged h out v args).result ≠ .error .tooDeep :=
  (runWrite_of_relates hc.quiet hc.quiet out
    (relates_writeUntagged hc (Heap.renames_id _ h) (fun _ _ => trivial) args)).1.1

/-- Whatever the value, writing it leaves quiet cells: the run is related to itself. -/
theorem Lists.writeValue (hc : c.Lists rs) (h : Heap) (out : Output) (v : Value) :
    (c.writeValue h out v).codec.Lists rs :=
  { hc with
    quiet := (runWrite_of_relates hc.quiet hc.quiet out
      (relates_writeValue hc (Heap.renames_id _ h) fun _ _ => trivial)).2 }

theorem Lists.writeUntagged (hc : c.Lists rs) (h : Heap) (out : Output) (v : Value)
    (args : List ConcreteType) : (c.writeUntagged h out v args).codec.Lists rs :=
  { hc with
    quiet := (runWrite_of_relates hc.quiet hc.quiet out
      (relates_writeUntagged hc (Heap.renames_id _ h) (fun _ _ => trivial) args)).2 }

theorem Lists.readValue (hc : c.Lists rs) (depth : Nat) (h : Heap) (input : Input) :
    (c.readValue depth h input).codec.Lists rs :=
  { hc with
    quiet := (keeps_readTagged hc (keeps_readFramed hc depth)
      ⟨input, h, .empty, ⟨.empty, c.cells⟩⟩ ⟨hc.quiet, .refl h⟩).cells }

theorem Lists.readUntagged (hc : c.Lists rs) (depth : Nat) (h : Heap) (input : Input)
    (t : ValueType) (args : List ConcreteType) :
    (c.readUntagged depth h input t args).codec.Lists rs :=
  have hbody : Pass.Keeps (ReadState.Quiet rs h) (do
      let s ← Pass.ofExcept ((c.serializer t).mapError .config)
      c.readFramed depth ⟨t, s, args, false⟩) := by
    cases hs : c.serializer t with
    | error e => exact Pass.keeps_fail _
    | ok s => exact keeps_readFramed hc depth _ (hc.served_of_serializer hs)
  { hc with quiet := (hbody ⟨input, h, .empty, ⟨.empty, c.cells⟩⟩ ⟨hc.quiet, .refl h⟩).cells }

/-- **A standard codec has plain record serializers with quiet cells.** -/
theorem Standard.lists (hc : c.Standard) : ∃ rs, c.Lists rs := by
  induction hc with
  | new => exact ⟨[], lists_new⟩
  | registerClass _ hd hplan ih =>
      obtain ⟨_, ih⟩ := ih
      exact ih.registerClass hd hplan
  | setDefaults _ options ih =>
      obtain ⟨rs, ih⟩ := ih
      exact ⟨rs, { ih with }⟩
  | setContext _ context ih =>
      obtain ⟨_, ih⟩ := ih
      exact ih.setContext context
  | setReferences _ on ih =>
      obtain ⟨rs, ih⟩ := ih
      exact ⟨rs, { ih with }⟩
  | setOptions _ h ih =>
      obtain ⟨_, ih⟩ := ih
      exact ih.setOptions h
  | removeField _ h ih =>
      obtain ⟨_, ih⟩ := ih
      exact ih.removeField h
  | removeFields _ h ih =>
      obtain ⟨_, ih⟩ := ih
      exact ih.removeFields h
  | configureField _ hs h ih =>
      obtain ⟨_, ih⟩ := ih
      exact ih.configureField hs h
  | writeValue _ h out v ih =>
      obtain ⟨rs, ih⟩ := ih
      exact ⟨rs, ih.writeValue h out v⟩
  | writeUntagged _ h out v args ih =>
      obtain ⟨rs, ih⟩ := ih
      exact ⟨rs, ih.writeUntagged h out v args⟩
  | readValue _ depth h input ih =>
      obtain ⟨rs, ih⟩ := ih
      exact ⟨rs, ih.readValue depth h input⟩
  | readUntagged _ depth h input t args ih =>
      obtain ⟨rs, ih⟩ := ih
      exact ⟨rs, ih.readUntagged depth h input t args⟩

/-- Codecs that are alike have the same list. -/
theorem Lists.of_alike {rs' : List RecordSerializer} (hc : c.Lists rs) (hk : k.Lists rs')
    (hck : c.Alike k) : k.Lists rs := by
  obtain ⟨cells, rfl⟩ := hck
  have hinj : Function.Injective Registration.ofRecord := fun r r' h =>
    Serializer.record.inj (congrArg Registration.serializer h)
  have h : rs.map Registration.ofRecord = rs'.map Registration.ofRecord :=
    List.append_cancel_left (hc.registrations.symm.trans hk.registrations)
  exact List.map_injective_iff.mpr hinj h ▸ hk

/-- No class in the catalog mentions a type parameter that it does not declare. -/
theorem Standard.declared (hc : c.Standard) {id : ClassId} {d : ClassDecl}
    (hd : c.catalog.get? id = some d) : d.undeclaredParam? = none := by
  induction hc with
  | new => cases hd
  | @registerClass c d' plan _ _ hplan ih =>
      rcases c.catalog_registerClass d' hplan with h | ⟨hfault, h⟩ <;> rw [h] at hd
      · exact ih hd
      · rw [get?_add] at hd
        split at hd
        · cases hd
          exact (of_fault?_eq_none hfault).2
        · exact ih hd
  | setOptions _ h ih =>
      obtain ⟨_, -, h⟩ := except_bind_eq_ok.mp h
      cases h
      exact ih hd
  | removeField _ h ih =>
      obtain ⟨_, -, h⟩ := except_bind_eq_ok.mp h
      obtain ⟨_, -, h⟩ := except_bind_eq_ok.mp h
      cases h
      exact ih hd
  | removeFields _ h ih =>
      obtain ⟨_, -, h⟩ := except_bind_eq_ok.mp h
      cases h
      exact ih hd
  | configureField _ _ h ih =>
      obtain ⟨_, -, h⟩ := except_bind_eq_ok.mp h
      obtain ⟨_, -, h⟩ := except_bind_eq_ok.mp h
      cases h
      exact ih hd
  | _ => rename_i ih; exact ih hd

/-- A type parameter that a field is declared with is one of the class. -/
theorem mem_params_of_type {r : RecordSerializer} (hr : r.Plain)
    (hdeclared : r.decl.undeclaredParam? = none) {e : FieldEntry} (he : e ∈ r.entries) {p : String}
    (hp : e.type = .param p) : p ∈ r.decl.params.names := by
  obtain ⟨f, hf, -, htype⟩ := hr.follows.field e he
  refine mem_params_of_undeclared hdeclared (List.mem_of_getElem? hf) ?_
  rw [← htype, hp]
  exact List.mem_cons_self

/-! ### A codec with one class -/

/-- A codec with one class has no other record serializer. -/
theorem eq_of_registrations (r₀ : RecordSerializer) {r : RecordSerializer}
    (hk : c.registrations = builtIns ++ [.ofRecord r₀]) {owner : ClassId}
    (hr : c.record (.object owner) = .ok r) : r = r₀ := by
  have hfind : c.registration? (.object owner) =
      [Registration.ofRecord r₀].find? fun x => x.type = .object owner := by
    simp only [registration?]
    rw [hk, List.find?_append]
    rfl
  simp only [record, hfind, List.find?_cons, List.find?_nil] at hr
  split at hr
  · cases hr
  · next h =>
    split at h <;> cases h
    cases hr
    rfl
  · cases hr

/-- A class whose instances lead to another one, with a note that is not written. -/
def link : ClassDecl where
  id := ⟨"demo::Link"⟩
  params := ⟨[]⟩
  fields :=
    [⟨"next", .fixed (.object ⟨"demo::Link"⟩), .empty⟩,
      ⟨"note", .fixed .int, .ofList [.transient]⟩]
  constructible := true

/-- A codec with this class only. -/
def links : Codec := (new.registerClass link .standard).2

theorem standard_links : links.Standard :=
  .registerClass .new (by unfold ClassDecl.Unbound; decide) (.inr (.inl rfl))

theorem record_links : links.record link.type = .ok (.make link .standard .empty none 0) := rfl

theorem writtenSlots_links {i : Nat} : links.writtenSlots link.id i ↔ i = 0 := by
  constructor
  · rintro ⟨r, hr, e, he, hs, rfl⟩
    obtain rfl := Except.ok.inj (record_links.symm.trans hr)
    have h : ∀ e ∈ (RecordSerializerOf.make link .standard .empty none 0).entries,
        e.serialized = true → e.slot.index = 0 := by decide
    exact h e he hs
  · rintro rfl
    exact ⟨_, record_links, _, List.mem_cons_self, rfl, rfl⟩

/-- Nothing is below a link to itself but the link. -/
theorem reach_links {sel : Selection} {o : ObjectId} :
    Heap.Reach ⟨#[⟨link, [.object 0, .int 5]⟩]⟩ sel (.object 0) o ↔ o = 0 :=
  Heap.reach_loop (by simp [Heap.get, Value.Within])

theorem record_of_reach_links {sel : Selection} {o : ObjectId}
    (ho : Heap.Reach ⟨#[⟨link, [.object 0, .int 5]⟩]⟩ sel (.object 0) o) {r : RecordSerializer}
    (hr : links.record (.object (Heap.get ⟨#[⟨link, [.object 0, .int 5]⟩]⟩ o).owner) = .ok r) :
    r = .make link .standard .empty none 0 := by
  obtain rfl := reach_links.mp ho
  exact (Except.ok.inj (record_links.symm.trans hr)).symm

end Codec

end GraphCodec
