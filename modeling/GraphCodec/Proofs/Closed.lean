import Mathlib.Data.List.Forall2
import GraphCodec.Proofs.Direct
import GraphCodec.Proofs.Images

/-!
# Codecs — closed codecs

A codec is *closed* when its classes name only classes that it can make, each with as many type
arguments as it has parameters.  Whatever the parameters are bound to, a field of a closed codec
then comes to a *sound* type (`Closed.sound_fieldType`): there is a serializer for it, which accepts
its type arguments.  So the fields of a closed codec always have a plan (`Closed.plan`).
-/

namespace GraphCodec

/-- The codec makes instances of each class in the type, and a class with parameters that is
applied to arguments is applied to as many as it has. -/
inductive FieldType.Closed (c : Codec) : FieldType → Prop
  | fixed {t : ValueType} (makes : ∀ owner, t = .object owner → c.Makes owner) :
      Closed c (.fixed t)
  | generic {owner : ClassId} {args : List FieldType} (makes : c.Makes owner)
      (arity : ∀ r, c.record (.object owner) = .ok r → 0 < r.decl.params.size →
        args.length = r.decl.params.size)
      (closed : ∀ t ∈ args, Closed c t) : Closed c (.generic owner args)
  | param {name : String} : Closed c (.param name)
  | dynamic : Closed c .dynamic

/-- The codec has a record serializer for each class in the type, and a class with parameters has no
arguments or as many as it has parameters. -/
inductive ConcreteType.Sound (c : Codec) : ConcreteType → Prop
  | intro {t : ValueType} {args : List ConcreteType}
      (known : ∀ owner, t = .object owner → ∃ r, c.record (.object owner) = .ok r ∧
        (args = [] ∨ r.decl.params.size = 0 ∨ args.length = r.decl.params.size))
      (sound : ∀ k ∈ args, Sound c k) : Sound c ⟨t, args⟩

/-- All classes in the field types and in the settings of the registered classes can be made, and
are applied to as many type arguments as they have parameters. -/
structure Codec.Closed (c : Codec) : Prop where
  types : ∀ owner r, c.record (.object owner) = .ok r → ∀ f ∈ r.decl.fields, f.type.Closed c
  settings : ∀ owner r, c.record (.object owner) = .ok r → ∀ e ∈ r.entries,
    ∀ p, e.valueType = some (.object p) → c.Makes p

variable {c : Codec} {rs : List RecordSerializer}

/-! ### Types -/

theorem FieldType.forall₂_of_resolveList {lookup : String → Option ConcreteType} :
    ∀ {ts : List FieldType} {ks : List ConcreteType}, resolveList lookup ts = some ks →
      List.Forall₂ (fun t k => t.resolve lookup = some k) ts ks := by
  intro ts
  induction ts with
  | nil =>
      intro ks h
      cases h
      exact .nil
  | cons t ts ih =>
      intro ks h
      simp only [resolveList] at h
      split at h
      · next k ks' hk hks =>
        cases h
        exact .cons hk (ih hks)
      · cases h

/-- A closed type comes to a sound one if everything is bound to sound ones. -/
theorem FieldType.Closed.sound_resolve {lookup : String → Option ConcreteType}
    (hlookup : ∀ name k, lookup name = some k → k.Sound c) {t : FieldType} (ht : t.Closed c)
    {k : ConcreteType} (hk : t.resolve lookup = some k) : k.Sound c := by
  induction ht generalizing k with
  | fixed makes =>
      cases hk
      refine .intro (fun owner ho => ?_) nofun
      obtain ⟨r, hr, -⟩ := makes owner ho
      exact ⟨r, hr, .inl rfl⟩
  | @generic owner args makes arity closed ih =>
      cases hk
      obtain ⟨r, hr, -⟩ := makes
      cases hargs : resolveList lookup args with
      | none =>
          -- the arguments are dropped as soon as one of them is not known
          refine .intro (fun p hp => ?_) nofun
          cases hp
          exact ⟨r, hr, .inl rfl⟩
      | some ks =>
          have hks := forall₂_of_resolveList hargs
          refine .intro (fun p hp => ?_) fun k hk => ?_
          · cases hp
            refine ⟨r, hr, .inr ?_⟩
            rcases Nat.eq_zero_or_pos r.decl.params.size with h₀ | h₀
            · exact .inl h₀
            · exact .inr (hks.length_eq.symm.trans (arity r hr h₀))
          · obtain ⟨i, hi⟩ := List.getElem?_of_mem hk
            obtain ⟨hlt, rfl⟩ := List.getElem?_eq_some_iff.mp hi
            have hlt' : i < args.length := hks.length_eq ▸ hlt
            exact ih _ (List.getElem_mem hlt') (hks.get hlt' hlt)
  | param => exact hlookup _ _ hk
  | dynamic => cases hk

/-- Everything that the scope binds is bound to a sound type. -/
def TypeScope.Sound (c : Codec) (s : TypeScope) : Prop := ∀ b ∈ s.bindings, b.2.Sound c

theorem TypeScope.Sound.get {s : TypeScope} (hs : s.Sound c) {name : String} {k : ConcreteType}
    (hk : s.get? name = some k) : k.Sound c := by
  simp only [TypeScope.get?, Option.map_eq_some_iff] at hk
  obtain ⟨b, hb, rfl⟩ := hk
  exact hs b (List.mem_of_find?_eq_some hb)

/-- Everything is bound to sound types. -/
def ScopeStack.Sound (c : Codec) (s : ScopeStack) : Prop := ∀ scope ∈ s.scopes, scope.Sound c

theorem ScopeStack.Sound.resolveIn {s : ScopeStack} (hs : s.Sound c) {owner : ClassId}
    {name : String} {k : ConcreteType} (hk : s.resolveIn owner name = some k) : k.Sound c := by
  obtain ⟨scope, hmem, hk⟩ := List.exists_of_findSome?_eq_some hk
  exact (hs scope (List.mem_filter.mp hmem).1).get hk

theorem ScopeStack.Sound.enter {s : ScopeStack} (hs : s.Sound c) {scope : Option TypeScope}
    (hscope : ∀ x, scope = some x → x.Sound c) : (s.enter scope).Sound c := by
  cases scope with
  | none => exact hs
  | some x => exact List.forall_mem_cons.mpr ⟨hscope x rfl, hs⟩

/-- Sound type arguments are accepted, and bind the parameters to sound types. -/
theorem ConcreteType.Sound.bindings {r : RecordSerializer} {args : List ConcreteType}
    (hr : c.record r.decl.type = .ok r) (h : Sound c ⟨r.decl.type, args⟩) :
    ∃ own, r.bindings args = .ok own ∧ ∀ x, own = some x → x.Sound c := by
  obtain ⟨known, sound⟩ := h
  obtain ⟨r', hr', harity⟩ := known _ rfl
  obtain rfl := Except.ok.inj (hr.symm.trans hr')
  simp only [RecordSerializerOf.bindings]
  split
  · exact ⟨none, rfl, fun x hx => by cases hx⟩
  · next hne =>
    simp only [Bool.or_eq_true, List.isEmpty_iff, not_or, TypeParams.isEmpty] at hne
    have hsize : r.decl.params.size = args.length := by
      rcases harity with h | h | h
      · exact absurd h hne.1.1
      · exact absurd (List.eq_nil_of_length_eq_zero h) hne.2
      · exact h.symm
    simp only [TypeScope.bind, hsize, if_true]
    refine ⟨_, rfl, ?_⟩
    rintro x ⟨⟩ b hb
    exact sound _ (List.of_mem_zip hb).2

namespace Codec

/-! ### Fields -/

section

variable (hc : c.Lists rs) (hcl : c.Closed) {r : RecordSerializer} (hr : r ∈ rs)
  {e : FieldEntry} (he : e ∈ r.entries)
include hc hcl hr he

theorem Closed.type_of_entry : e.type.Closed c := by
  obtain ⟨f, hf, -, htype⟩ := (hc.plain r hr).follows.field e he
  rw [htype]
  exact hcl.types _ _ (hc.record_eq hr) f (List.mem_of_getElem? hf)

theorem Closed.sound_fieldType {own : Option TypeScope} (hown : ∀ x, own = some x → x.Sound c)
    {scopes : ScopeStack} (hscopes : scopes.Sound c) {k : ConcreteType}
    (hk : r.fieldType own scopes e = some k) : k.Sound c := by
  have ht := hcl.type_of_entry hc hr he
  simp only [RecordSerializerOf.fieldType] at hk
  split at hk
  · cases hk
  · cases own with
    | some scope => exact ht.sound_resolve (fun _ _ h => (hown _ rfl).get h) hk
    | none =>
        simp only at hk
        split at hk
        · cases hk
        · exact ht.sound_resolve (fun _ _ h => hscopes.resolveIn h) hk

theorem Closed.sound_knownType {resolved : Option ConcreteType}
    (hres : ∀ k, resolved = some k → k.Sound c) {k : ConcreteType}
    (hk : e.knownType resolved = some k) : k.Sound c := by
  have hdeclared : ∀ k, resolved.or e.type.unbound = some k → k.Sound c := by
    intro k hk
    cases resolved with
    | some k' => exact hres k hk
    | none => exact (hcl.type_of_entry hc hr he).sound_resolve (fun _ _ h => by cases h) hk
  simp only [FieldEntryOf.knownType] at hk
  split at hk
  · next t ht =>
    cases hk
    have hknown : ∀ owner, t = .object owner → ∃ r, c.record (.object owner) = .ok r := by
      rintro owner rfl
      obtain ⟨r', hr', -⟩ := hcl.settings _ _ (hc.record_eq hr) e he owner ht
      exact ⟨r', hr'⟩
    cases hd : (resolved.or e.type.unbound).filter fun k => k.base = t with
    | none =>
        refine .intro (fun owner ho => ?_) nofun
        obtain ⟨r', hr'⟩ := hknown owner ho
        exact ⟨r', hr', .inl rfl⟩
    | some k =>
        -- the declared type counts where it is the type that was set
        obtain ⟨base, args⟩ := k
        obtain ⟨hk, hbase⟩ := Option.filter_eq_some_iff.mp hd
        obtain rfl : base = t := by simpa using hbase
        exact hdeclared _ hk
  · exact hdeclared k hk

/-- **Every field has a plan**, and one with a frame has sound type arguments in it. -/
theorem Closed.plan {resolved : Option ConcreteType} (hres : ∀ k, resolved = some k → k.Sound c) :
    ∃ p, e.plan c resolved = .ok p ∧
      ∀ f, p = .known f →
        Served rs f.type f.serializer ∧ ConcreteType.Sound c ⟨f.type, f.args⟩ := by
  have hbare := (hc.plain r hr).follows.bare e he
  have hknown : ∀ f, e.plan c resolved = .ok (.known f) →
      Served rs f.type f.serializer ∧ ConcreteType.Sound c ⟨f.type, f.args⟩ := by
    intro f hf
    obtain ⟨hserved, -, hk⟩ := hc.served_of_plan hbare hf
    exact ⟨hserved, hcl.sound_knownType hc hr he hres hk⟩
  suffices hp : ∃ p, e.plan c resolved = .ok p by
    obtain ⟨p, hp⟩ := hp
    exact ⟨p, hp, fun f hf => hknown f (hf ▸ hp)⟩
  simp only [FieldEntryOf.plan, hbare]
  split
  · next h _ => cases h
  · next h _ => cases h
  · exact ⟨_, rfl⟩
  · exact ⟨_, rfl⟩
  · next t args _ _ _ hk =>
    have hs : ∃ s, c.serializer t = .ok s := by
      cases t with
      | object owner =>
          obtain ⟨known, -⟩ := hcl.sound_knownType hc hr he hres hk
          obtain ⟨r', hr', -⟩ := known owner rfl
          obtain ⟨hmem, rfl⟩ := hc.mem_of_record hr'
          refine ⟨.record r', ?_⟩
          simp only [serializer]
          rw [← ClassDecl.type, hc.registration?_record hmem]
          rfl
      | _ =>
          simp only [serializer]
          rw [hc.registration?_stock rfl]
          exact ⟨_, rfl⟩
    obtain ⟨s, hs⟩ := hs
    rw [hs]
    exact ⟨_, rfl⟩
  · exact ⟨_, rfl⟩

end

end Codec

end GraphCodec
