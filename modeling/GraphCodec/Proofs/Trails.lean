import GraphCodec.Proofs.Direct
import GraphCodec.Proofs.FieldTypes

/-!
# Codecs — the objects around a field

While the fields of an object are written or read, the object is *open*, and so are those around it.
They make up a `Trail`, innermost first, each with the type arguments that it was handed.  A trail
says which scopes are in force (`Trail.stack`) and what a type parameter of a class is bound to: the
innermost object of the class that was handed type arguments decides (`Trail.binding?`).  What a
pass finds out from its scopes about the type of a field is what the trail says of it
(`plan_fieldType`).
-/

namespace GraphCodec

/-! ### Open objects -/

/-- An object whose fields are written or read, by its serializer and its type arguments. -/
structure Visit where
  serializer : RecordSerializer
  args : List ConcreteType

namespace Visit

/-- The object was handed type arguments, and its serializer has a use for them. -/
def binds (x : Visit) : Bool :=
  !x.args.isEmpty && x.serializer.options.optimizedGenerics && !x.serializer.decl.params.isEmpty

/-- The parameters of the class, bound to the type arguments place by place. -/
def scope (x : Visit) : TypeScope :=
  ⟨x.serializer.decl.id, x.serializer.decl.params.names.zip x.args⟩

/-- The scope that is in force while the object is open. -/
def scope? (x : Visit) : Option TypeScope := if x.binds then some x.scope else none

/-- There are as many type arguments as parameters, if the object has a use for them. -/
def Fits (x : Visit) : Prop :=
  x.binds = true → x.serializer.decl.params.names.length = x.args.length

variable {r : RecordSerializer} {args : List ConcreteType} {own : Option TypeScope}

/-- What a pass makes of the type arguments of an object. -/
theorem scope?_of_bindings (h : r.bindings args = .ok own) :
    own = (Visit.mk r args).scope? ∧ (Visit.mk r args).Fits := by
  simp only [RecordSerializerOf.bindings] at h
  split at h
  · next hno =>
    cases h
    have hbinds : (Visit.mk r args).binds = false := by
      simp only [binds]
      cases ha : args.isEmpty <;> cases ho : r.options.optimizedGenerics <;>
        cases hp : r.decl.params.isEmpty <;> simp_all
    exact ⟨by simp [scope?, hbinds], fun h => by simp [hbinds] at h⟩
  · next hyes =>
    have hbinds : (Visit.mk r args).binds = true := by
      simp only [binds]
      cases ha : args.isEmpty <;> cases ho : r.options.optimizedGenerics <;>
        cases hp : r.decl.params.isEmpty <;> simp_all
    simp only [TypeScope.bind] at h
    split at h
    · next hsize =>
      cases h
      exact ⟨by simp [scope?, hbinds, scope], fun _ => hsize⟩
    · cases h

/-- Where the class has a parameter, type arguments are of use. -/
theorem binds_of_mem {x : Visit} (hargs : x.args ≠ [])
    (hopt : x.serializer.options.optimizedGenerics = true) {name : String}
    (hname : name ∈ x.serializer.decl.params.names) : x.binds = true := by
  have hparams : x.serializer.decl.params.names ≠ [] := List.ne_nil_of_mem hname
  simp [binds, hargs, hopt, TypeParams.isEmpty, hparams]

/-- Only parameters of the class are bound. -/
theorem get?_of_not_mem {x : Visit} {name : String}
    (hname : name ∉ x.serializer.decl.params.names) : x.scope.get? name = none := by
  simp only [TypeScope.get?, scope, Option.map_eq_none_iff, List.find?_eq_none]
  rintro ⟨p, k⟩ hp
  have := (List.of_mem_zip hp).1
  simp only [decide_eq_true_eq]
  rintro rfl
  exact hname this

/-- All parameters of the class are bound. -/
theorem get?_of_mem {x : Visit} (hx : x.Fits) (hbinds : x.binds = true) {name : String}
    (hname : name ∈ x.serializer.decl.params.names) : ∃ k, x.scope.get? name = some k := by
  have hmem : name ∈ x.scope.bindings.map Prod.fst := by
    simp only [scope]
    rwa [List.map_fst_zip (hx hbinds).le]
  obtain ⟨b, hb, rfl⟩ := List.mem_map.mp hmem
  obtain ⟨b', hb'⟩ := Option.isSome_iff_exists.mp
    (List.find?_isSome (p := fun b' => decide (b'.1 = b.1)) |>.mpr ⟨b, hb, by simp⟩)
  exact ⟨b'.2, by rw [TypeScope.get?, hb']; rfl⟩

end Visit

/-- The open objects, innermost first. -/
abbrev Trail := List Visit

namespace Trail

/-- The scopes in force: one for each open object that has a use for its type arguments. -/
def stack (t : Trail) : ScopeStack := ⟨(t.filter Visit.binds).map Visit.scope⟩

/-- What a parameter of a class is bound to: the innermost open object of the class that was handed
type arguments decides. -/
def binding? (t : Trail) (owner : ClassId) (name : String) : Option ConcreteType :=
  (t.find? fun x => x.serializer.decl.id = owner ∧ x.args ≠ []).bind fun x => x.scope.get? name

/-- The type of a field of the innermost open object, as far as its declaration and the bindings
tell. -/
def fieldType (t : Trail) (r : RecordSerializer) (e : FieldEntry) : Option ConcreteType :=
  if e.isGeneric && r.options.optimizedGenerics then e.type.resolve (t.binding? r.decl.id)
  else none

/-- The objects are those of record serializers of `rs`, and their type arguments fit. -/
def Within (rs : List RecordSerializer) (t : Trail) : Prop :=
  ∀ x ∈ t, x.serializer ∈ rs ∧ x.Fits

theorem stack_cons (x : Visit) (t : Trail) : stack (x :: t) = t.stack.enter x.scope? := by
  simp only [stack, Visit.scope?, List.filter_cons]
  split <;> rfl

theorem Within.cons {rs : List RecordSerializer} {t : Trail} (ht : t.Within rs) {x : Visit}
    (hr : x.serializer ∈ rs) (hx : x.Fits) : Within rs (x :: t) :=
  List.forall_mem_cons.mpr ⟨⟨hr, hx⟩, ht⟩

/-- The object's own type arguments come first. -/
theorem binding?_of_scope? {r : RecordSerializer} {args : List ConcreteType} {scope : TypeScope}
    (hs : (Visit.mk r args).scope? = some scope) (t : Trail) :
    binding? (⟨r, args⟩ :: t) r.decl.id = scope.get? := by
  simp only [Visit.scope?] at hs
  split at hs <;> cases hs
  next hbinds =>
    have hargs : args ≠ [] := by
      rintro rfl
      simp [Visit.binds] at hbinds
    funext name
    simp [binding?, hargs]

end Trail

theorem ScopeStack.resolveIn_of_isEmpty {s : ScopeStack} (hs : s.isEmpty = true) (owner : ClassId) :
    s.resolveIn owner = fun _ => none := by
  simp only [isEmpty, List.isEmpty_iff] at hs
  funext name
  simp [resolveIn, hs]

theorem ScopeStack.resolveIn_enter (s : ScopeStack) (x : Visit) (owner : ClassId)
    (name : String) :
    (s.enter x.scope?).resolveIn owner name =
      if x.binds ∧ x.serializer.decl.id = owner then
        (x.scope.get? name).or (s.resolveIn owner name)
      else s.resolveIn owner name := by
  simp only [Visit.scope?]
  cases x.binds with
  | false => simp [enter]
  | true =>
      by_cases howner : x.scope.owner = owner
      · have howner' : x.serializer.decl.id = owner := howner
        simp only [if_true, enter, push, resolveIn, List.filter_cons, howner, howner', decide_true,
          List.findSome?_cons, and_self]
        cases x.scope.get? name <;> rfl
      · have howner' : x.serializer.decl.id ≠ owner := howner
        simp [enter, push, resolveIn, howner, howner']

namespace Codec

variable {c : Codec} {rs : List RecordSerializer} {t : Trail} {r : RecordSerializer}

section

variable (hc : c.Lists rs) (ht : t.Within rs) (hr : r ∈ rs)
include hc ht hr

omit ht hr in
/-- Open objects of one class have one record serializer. -/
theorem serializer_eq {x : Visit} (hx : x.serializer ∈ rs) (hr : r ∈ rs)
    (hid : x.serializer.decl.id = r.decl.id) : x.serializer = r :=
  List.inj_on_of_nodup_map hc.ids hx hr hid

theorem binding?_of_not_mem {name : String} (hname : name ∉ r.decl.params.names) :
    t.binding? r.decl.id name = none := by
  simp only [Trail.binding?]
  cases hx : t.find? fun x => x.serializer.decl.id = r.decl.id ∧ x.args ≠ [] with
  | none => rfl
  | some x =>
      have hid := List.find?_some hx
      simp only [decide_eq_true_eq] at hid
      have hx := (ht x (List.mem_of_find?_eq_some hx)).1
      exact Visit.get?_of_not_mem (serializer_eq hc hx hr hid.1 ▸ hname)

/-- **The scopes in force say what the trail says** of the parameters of a class. -/
theorem resolveIn_stack (hopt : r.options.optimizedGenerics = true) :
    t.stack.resolveIn r.decl.id = t.binding? r.decl.id := by
  funext name
  by_cases hname : name ∈ r.decl.params.names
  · induction t with
    | nil => rfl
    | cons x t ih =>
        obtain ⟨⟨hx, hfits⟩, ht⟩ := List.forall_mem_cons.mp ht
        rw [Trail.stack_cons, ScopeStack.resolveIn_enter, ih ht]
        by_cases hid : x.serializer.decl.id = r.decl.id
        · obtain rfl := serializer_eq hc hx hr hid
          by_cases hargs : x.args = []
          · simp [Trail.binding?, Visit.binds, hargs]
          · have hbinds := Visit.binds_of_mem hargs hopt hname
            obtain ⟨k, hk⟩ := Visit.get?_of_mem hfits hbinds hname
            simp [Trail.binding?, hargs, hbinds, hk]
        · rw [if_neg fun h => hid h.2]
          simp [Trail.binding?, hid]
  · rw [binding?_of_not_mem hc ht hr hname]
    induction t with
    | nil => rfl
    | cons x t ih =>
        obtain ⟨⟨hx, -⟩, ht⟩ := List.forall_mem_cons.mp ht
        rw [Trail.stack_cons, ScopeStack.resolveIn_enter, ih ht]
        split
        · next h =>
          rw [Visit.get?_of_not_mem (serializer_eq hc hx hr h.2 ▸ hname)]
          rfl
        · rfl

/-- **What a pass finds out about a field is what the trail says of it**, with the object of the
field in front. -/
theorem plan_fieldType {args : List ConcreteType} {own : Option TypeScope}
    (hown : r.bindings args = .ok own) (e : FieldEntry) :
    e.plan c (r.fieldType own (Trail.stack (⟨r, args⟩ :: t)) e) =
      e.plan c (Trail.fieldType (⟨r, args⟩ :: t) r e) := by
  obtain ⟨rfl, hfits⟩ := Visit.scope?_of_bindings hown
  have ht : Trail.Within rs (⟨r, args⟩ :: t) := ht.cons hr hfits
  by_cases hgen : e.isGeneric = true ∧ r.options.optimizedGenerics = true
  · simp only [RecordSerializerOf.fieldType, Trail.fieldType, hgen.1, hgen.2, Bool.not_true,
      Bool.or_self, Bool.and_self, Bool.false_eq_true, if_false, if_true]
    cases hs : (Visit.mk r args).scope? with
    | some scope => rw [Trail.binding?_of_scope? hs]
    | none =>
        simp only
        split
        · next hempty =>
          rw [← resolveIn_stack hc ht hr hgen.2, ScopeStack.resolveIn_of_isEmpty hempty,
            e.plan_none]
          rfl
        · rw [resolveIn_stack hc ht hr hgen.2]
  · have hnone : (e.isGeneric && r.options.optimizedGenerics) = false := by simpa using hgen
    simp only [RecordSerializerOf.fieldType, Trail.fieldType, ← Bool.not_and, hnone, Bool.not_false,
      if_true, Bool.false_eq_true, if_false]

end

/-- **A field declared with a type parameter is planned for what the trail binds it to**, and is
dynamic if that is nothing. -/
theorem plan_of_param {e : FieldEntry} (he : e.serializer = none) {p : String}
    (hp : e.type = .param p) (hv : e.valueType = none) (hopt : r.options.optimizedGenerics = true)
    (t : Trail) :
    e.plan c (t.fieldType r e) = match t.binding? r.decl.id p with
      | some k => Plan.ofType c e.nullable k
      | none => .ok .dynamic := by
  have htype : t.fieldType r e = t.binding? r.decl.id p := by
    simp [Trail.fieldType, FieldEntryOf.isGeneric, hp, FieldType.mentionsParams, hopt,
      FieldType.resolve]
  rw [htype]
  cases t.binding? r.decl.id p with
  | some k => exact e.plan_of_knownType he (by simp [FieldEntryOf.knownType, hv])
  | none =>
      have hraw : e.rawType = none := by simp [FieldEntryOf.rawType, hv, hp, FieldType.rawType]
      simp only [FieldEntryOf.plan, he, e.knownType_of_rawType_none hraw]

end Codec

end GraphCodec
