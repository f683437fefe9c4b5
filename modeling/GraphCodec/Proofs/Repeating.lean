import GraphCodec.Proofs.Stateless

/-!
# Codecs — passes with more classes

A codec *includes* another one if it has all of its registrations, under the same numbers, and all
of its classes.  A pass that ends well has asked for nothing that was not there, so it ends in the
same way on a codec that has more (`repeats_writeFramed`, `repeats_readFramed`,
`repeats_copyObject`).  Where a pass fails there is nothing to say: a class that was missing may be
there now.
-/

namespace GraphCodec

namespace Pass

variable {σ α β : Type} {m m' : Pass σ α}

/-- Where the first pass ends well, the second one ends in the same way. -/
def Repeats (m m' : Pass σ α) : Prop := ∀ st a t, m st = (.ok a, t) → m' st = (.ok a, t)

theorem repeats_refl (m : Pass σ α) : Repeats m m := fun _ _ _ h => h

theorem repeats_fail (e : CodecError) (m' : Pass σ α) : Repeats (fail e) m' := nofun

theorem repeats_ofExcept {x y : Except CodecError α} (h : ∀ a, x = .ok a → y = .ok a) :
    Repeats (ofExcept x : Pass σ α) (ofExcept y) := by
  intro st a t hr
  obtain ⟨hx, rfl⟩ := ofExcept_eq_ok.mp hr
  exact ofExcept_eq_ok.mpr ⟨h a hx, rfl⟩

theorem repeats_bind {k k' : α → Pass σ β} (hm : Repeats m m')
    (hk : ∀ a, CanReturn m a → Repeats (k a) (k' a)) : Repeats (m >>= k) (m' >>= k') := by
  intro st b t hr
  obtain ⟨a, st₁, h₁, h₂⟩ := bind_eq_ok.mp hr
  exact bind_eq_ok.mpr ⟨a, st₁, hm _ _ _ h₁, hk a ⟨_, _, h₁⟩ _ _ _ h₂⟩

theorem repeats_inField {owner : ClassId} {field : String} (hm : Repeats m m') :
    Repeats (inField owner field m) (inField owner field m') :=
  fun _ _ _ hr => inField_ok (hm _ _ _ (inField_eq_ok.mp hr))

end Pass

open Pass

namespace WriteM

variable {α : Type} {m m' : WriteM α}

theorem repeats_inScope (scope : Option TypeScope) (hm : Repeats m m') :
    Repeats (inScope scope m) (inScope scope m') := by
  intro st a t hr
  simp only [inScope] at hr ⊢
  rcases hrun : m { st with typing := st.typing.enter scope } with ⟨x, st₁⟩
  rw [hrun] at hr
  cases hr
  rw [hm _ _ _ hrun]

theorem repeats_onPath (o : ObjectId) (owner : ClassId) (hm : Repeats m m') :
    Repeats (onPath o owner m) (onPath o owner m') := by
  intro st a t hr
  by_cases ho : o ∈ st.path
  · rw [onPath_of_mem ho] at hr
    cases hr
  · rw [onPath_of_not_mem ho] at hr ⊢
    rcases hrun : m { st with path := o :: st.path } with ⟨x, st₁⟩
    rw [hrun] at hr
    cases hr
    rw [hm _ _ _ hrun]

end WriteM

namespace ReadM

theorem repeats_inScope {α : Type} {m m' : ReadM α} (scope : Option TypeScope)
    (hm : Repeats m m') : Repeats (inScope scope m) (inScope scope m') := by
  intro st a t hr
  obtain ⟨st₁, hrun, rfl⟩ := Codec.inScope_eq_ok.mp hr
  exact Codec.inScope_eq_ok.mpr ⟨st₁, hm _ _ _ hrun, rfl⟩

theorem repeats_numbered {m m' : ReadM Value} (hm : Repeats m m') :
    Repeats (numbered m) (numbered m') := by
  intro st a t hr
  simp only [numbered] at hr ⊢
  rcases hrun : m { st with reservations := st.reservations.reserve } with ⟨e | v, st₁⟩ <;>
    rw [hrun] at hr <;> cases hr
  rw [hm _ _ _ hrun]

end ReadM

namespace Codec

/-- `k` has the registrations of `c` under the same numbers, and the classes of `c`. -/
structure Includes (k c : Codec) : Prop where
  registrations : c.registrations <+: k.registrations
  decls : ∀ {id d}, c.catalog.get? id = some d → k.catalog.get? id = some d
  references : k.references = c.references

variable {c k : Codec} {rs : List RecordSerializer} {h : Heap}

/-! ### Looking up -/

section

variable (hk : k.Includes c)
include hk

theorem Includes.number? {t : ValueType} {n : Nat} (hn : c.number? t = some n) :
    k.number? t = some n := by
  obtain ⟨more, hmore⟩ := hk.registrations
  simp only [Codec.number?] at hn ⊢
  rw [← hmore, List.findIdx?_append, hn]
  rfl

theorem Includes.registration? {t : ValueType} {x : Registration}
    (hx : c.registration? t = some x) : k.registration? t = some x := by
  obtain ⟨more, hmore⟩ := hk.registrations
  simp only [Codec.registration?] at hx ⊢
  rw [← hmore, List.find?_append, hx]
  rfl

theorem Includes.registrationAt? {n : Nat} {x : Registration}
    (hx : c.registrationAt? n = some x) : k.registrationAt? n = some x := by
  obtain ⟨more, hmore⟩ := hk.registrations
  simp only [Codec.registrationAt?] at hx ⊢
  rw [← hmore, List.getElem?_append_left (List.getElem?_eq_some_iff.mp hx).1, hx]

theorem Includes.serializer {t : ValueType} {s : Serializer} (hs : c.serializer t = .ok s) :
    k.serializer t = .ok s := by
  simp only [Codec.serializer] at hs ⊢
  split at hs
  · next x hx =>
    rw [hk.registration? hx]
    exact hs
  · cases hs

theorem Includes.newInstance {owner : ClassId} {x : Object} (hx : c.newInstance owner = .ok x) :
    k.newInstance owner = .ok x := by
  simp only [Codec.newInstance, classDecl] at hx ⊢
  cases hd : c.catalog.get? owner with
  | none =>
      rw [hd] at hx
      cases hx
  | some d =>
      rw [hd] at hx
      rw [hk.decls hd]
      exact hx

theorem Includes.plan {e : FieldEntry} (he : e.serializer = none) {resolved : Option ConcreteType}
    {p : Plan} (hp : e.plan c resolved = .ok p) : e.plan k resolved = .ok p := by
  simp only [FieldEntryOf.plan] at hp ⊢
  rw [he] at hp ⊢
  split at hp
  · next h' _ => cases h'
  · next h' _ => cases h'
  · exact hp
  · exact hp
  · next t _ _ _ _ _ =>
    cases hs : c.serializer t with
    | error x =>
        rw [hs] at hp
        cases hp
    | ok s =>
        rw [hs] at hp
        rw [hk.serializer hs]
        exact hp
  · exact hp

theorem Includes.mapError_serializer {t : ValueType} {s : Serializer}
    (hs : (c.serializer t).mapError CodecError.config = .ok s) :
    (k.serializer t).mapError CodecError.config = .ok s :=
  except_mapError_eq_ok.mpr (hk.serializer (except_mapError_eq_ok.mp hs))

end

/-! ### Writing -/

section

variable (hc : c.Lists rs) (hk : k.Includes c) {nested nested' : Frame → Value → WriteM Unit}
  (hn : ∀ f v, Served rs f.type f.serializer → Repeats (nested f v) (nested' f v))

include hk in
theorem repeats_writeTag (v : Value) : Repeats (c.writeTag h v) (k.writeTag h v) := by
  simp only [writeTag]
  cases h.typeOf v with
  | none => exact repeats_refl _
  | some t =>
      simp only
      cases hnum : c.number? t <;> cases hreg : c.registration? t
      case some.some n x =>
        rw [hk.number? hnum, hk.registration? hreg]
        exact repeats_refl _
      all_goals exact repeats_fail _ _

include hc hk hn

theorem repeats_writeTagged (v : Value) :
    Repeats (c.writeTagged h nested v) (k.writeTagged h nested' v) := by
  refine repeats_bind (repeats_writeTag hk v) fun x hx => ?_
  rcases writeTag_returns hx with ⟨rfl, -⟩ | ⟨t, x, rfl, -, ht⟩
  · exact repeats_refl _
  · obtain ⟨rfl, hx⟩ := hc.served_of_registration? ht
    exact hn _ _ hx

theorem repeats_writeFlat (v : Value) (args : List ConcreteType) :
    Repeats (c.writeFlat h nested v args) (k.writeFlat h nested' v args) := by
  simp only [writeFlat]
  split
  · exact repeats_refl _
  · refine repeats_bind (repeats_ofExcept fun s => hk.mapError_serializer) fun s hs => ?_
    exact hn _ _ (hc.served_of_serializer (except_mapError_eq_ok.mp hs.ofExcept))

theorem repeats_writePlanned {e : FieldEntry} (he : e.serializer = none) (v : Value)
    {resolved : Option ConcreteType} {p : Plan} (hp : e.plan c resolved = .ok p) :
    Repeats (c.writePlanned h nested e v p) (k.writePlanned h nested' e v p) := by
  cases p with
  | dynamic => exact repeats_writeTagged hc hk hn v
  | known f => exact repeats_bind (repeats_refl _) fun _ _ => hn _ _ (hc.served_of_plan he hp).1
  | int => exact repeats_refl _
  | long => exact repeats_refl _

theorem repeats_writeField {e : FieldEntry} (he : e.serializer = none) (o : ObjectId)
    (resolved : Option ConcreteType) :
    Repeats (c.writeField h nested e o resolved) (k.writeField h nested' e o resolved) := by
  cases hg : e.slot.get h o with
  | error x =>
      rw [writeField_of_error _ _ _ hg]
      exact repeats_fail _ _
  | ok v =>
      rw [writeField_of_get _ _ _ hg, writeField_of_get _ _ _ hg]
      split
      · exact repeats_refl _
      · exact repeats_bind (repeats_ofExcept fun p => hk.plan he) fun p hp =>
          repeats_writePlanned hc hk hn he v hp.ofExcept

theorem repeats_writeFields {r : RecordSerializer} (hr : r ∈ rs) (own : Option Resolution)
    (o : ObjectId) {t : FieldTable} (ht : ∀ e ∈ t, e ∈ r.entries) (index : Nat) :
    Repeats (c.writeFields h nested r own o index t) (k.writeFields h nested' r own o index t) := by
  induction t generalizing index with
  | nil => exact repeats_refl _
  | cons e t ih =>
      obtain ⟨he, ht⟩ := List.forall_mem_cons.mp ht
      simp only [writeFields]
      split
      · refine repeats_bind (repeats_refl _) fun st _ => ?_
        refine repeats_bind (repeats_inField ?_) fun _ _ => ih ht _
        exact repeats_writeField hc hk hn ((hc.plain r hr).follows.bare e he) o _
      · exact ih ht _

theorem repeats_writeWith {t : ValueType} {s : Serializer} (hs : Served rs t s) (v : Value) :
    Repeats (c.writeWith h nested s v) (k.writeWith h nested' s v) := by
  cases hs with
  | stock hs => cases t <;> cases hs <;> cases v <;> exact repeats_refl _
  | @record r hr =>
      refine repeats_bind (repeats_refl _) fun own _ => repeats_bind (repeats_refl _) fun o _ => ?_
      exact WriteM.repeats_inScope _ (repeats_writeFields hc hk hn hr own o (fun _ he => he) 0)

end

theorem repeats_writeFramed (hc : c.Lists rs) (hk : k.Includes c) (n : Nat) (f : Frame)
    (v : Value) (hf : Served rs f.type f.serializer) :
    Repeats (c.writeFramed h n f v) (k.writeFramed h n f v) := by
  induction n generalizing f v with
  | zero => nofun
  | succ n ih =>
      have hbody : Repeats (c.writeBody h (c.writeFramed h n) f v)
          (k.writeBody h (k.writeFramed h n) f v) :=
        repeats_bind (repeats_refl _) fun _ _ => repeats_writeWith hc hk ih hf v
      rw [writeFramed_succ, writeFramed_succ]
      simp only [writeAround, hk.references]
      split
      · cases v with
        | object o =>
            refine repeats_bind (repeats_refl _) fun m _ => ?_
            refine repeats_bind (repeats_refl _) fun _ _ => ?_
            split
            · exact hbody
            · exact repeats_refl _
        | _ => exact repeats_refl _
      · split
        · exact repeats_refl _
        · refine repeats_bind (repeats_refl _) fun _ _ => ?_
          split
          · split
            · exact hbody
            · exact WriteM.repeats_onPath _ _ hbody
          · exact hbody

/-! ### Reading -/

section

variable (hc : c.Lists rs) (hk : k.Includes c) {nested nested' : Frame → ReadM Value}
  (hn : ∀ f, Served rs f.type f.serializer → Repeats (nested f) (nested' f))

include hk in
theorem repeats_readTag : Repeats c.readTag k.readTag := by
  refine repeats_bind (repeats_refl _) fun st _ => repeats_bind (repeats_refl _) fun n _ => ?_
  cases n with
  | zero => exact repeats_refl _
  | succ n =>
      simp only
      cases hx : c.registrationAt? n with
      | none => exact repeats_fail _ _
      | some x =>
          rw [hk.registrationAt? hx]
          exact repeats_refl _

include hc hk hn

theorem repeats_readTagged : Repeats (c.readTagged nested) (k.readTagged nested') := by
  refine repeats_bind (repeats_readTag hk) fun x hx => ?_
  cases x with
  | none => exact repeats_refl _
  | some x =>
      obtain ⟨n, hx⟩ := registrationAt?_of_readTag hx
      exact hn _ (hc.served_of_registrationAt? hx)

theorem repeats_readFlat (t : ValueType) (args : List ConcreteType) :
    Repeats (c.readFlat nested t args) (k.readFlat nested' t args) := by
  refine repeats_bind (repeats_ofExcept fun s => hk.mapError_serializer) fun s hs => ?_
  exact hn _ (hc.served_of_serializer (except_mapError_eq_ok.mp hs.ofExcept))

theorem repeats_readField {e : FieldEntry} (he : e.serializer = none) (o : ObjectId)
    (resolved : Option ConcreteType) :
    Repeats (c.readField nested e o resolved) (k.readField nested' e o resolved) := by
  simp only [readField, readFieldValue_eq, bind_assoc]
  refine repeats_bind (repeats_ofExcept fun p => hk.plan he) fun p hp => ?_
  refine repeats_bind ?_ fun v _ => repeats_refl _
  cases p with
  | dynamic => exact repeats_readTagged hc hk hn
  | known f => exact hn f (hc.served_of_plan he hp.ofExcept).1
  | int => exact repeats_refl _
  | long => exact repeats_refl _

theorem repeats_readFields {r : RecordSerializer} (hr : r ∈ rs) (own : Option Resolution)
    (o : ObjectId) {t : FieldTable} (ht : ∀ e ∈ t, e ∈ r.entries) (index : Nat) :
    Repeats (c.readFields nested r own o index t) (k.readFields nested' r own o index t) := by
  induction t generalizing index with
  | nil => exact repeats_refl _
  | cons e t ih =>
      obtain ⟨he, ht⟩ := List.forall_mem_cons.mp ht
      simp only [readFields]
      split
      · refine repeats_bind (repeats_refl _) fun st _ => ?_
        refine repeats_bind (repeats_inField ?_) fun _ _ => ih ht _
        exact repeats_readField hc hk hn ((hc.plain r hr).follows.bare e he) o _
      · exact ih ht _

theorem repeats_readWith {t : ValueType} {s : Serializer} (hs : Served rs t s) :
    Repeats (c.readWith nested t s) (k.readWith nested' t s) := by
  cases hs with
  | stock hs => cases t <;> cases hs <;> exact repeats_refl _
  | @record r hr =>
      refine repeats_bind (repeats_refl _) fun own _ => ReadM.repeats_inScope _ ?_
      have hmake : Repeats (c.readInstance r) (k.readInstance r) := by
        simp only [readInstance]
        rw [(hc.plain r hr).hooks]
        exact repeats_bind (repeats_ofExcept fun x => hk.newInstance) fun _ _ => repeats_refl _
      refine repeats_bind hmake fun o _ => repeats_bind (repeats_refl _) fun _ _ => ?_
      exact repeats_bind (repeats_readFields hc hk hn hr own o (fun _ he => he) 0) fun _ _ =>
        repeats_refl _

end

theorem repeats_readFramed (hc : c.Lists rs) (hk : k.Includes c) (n : Nat) (f : Frame)
    (hf : Served rs f.type f.serializer) : Repeats (c.readFramed n f) (k.readFramed n f) := by
  induction n generalizing f with
  | zero => nofun
  | succ n ih =>
      have hbody : Repeats (c.readBody (c.readFramed n) f) (k.readBody (k.readFramed n) f) :=
        repeats_bind (repeats_refl _) fun _ _ => repeats_readWith hc hk ih hf
      rw [readFramed_eq_readAround, readFramed_eq_readAround]
      simp only [readAround, hk.references]
      split
      · refine repeats_bind (repeats_refl _) fun n _ => ?_
        split
        · exact repeats_refl _
        · exact repeats_refl _
        · exact ReadM.repeats_numbered hbody
      · split
        · refine repeats_bind (repeats_refl _) fun b _ => ?_
          split
          · exact hbody
          · exact repeats_refl _
        · exact hbody

/-! ### Copying -/

section

variable (hc : c.Lists rs) (hk : k.Includes c) {nested nested' : Serializer → Value → CopyM Value}
  (hn : ∀ t s v, Served rs t s → Repeats (nested s v) (nested' s v))
include hc hk hn

theorem repeats_copyValue (v : Value) : Repeats (c.copyValue nested v) (k.copyValue nested' v) := by
  cases v with
  | object o =>
      refine repeats_bind (repeats_refl _) fun st _ => ?_
      split
      · exact repeats_refl _
      · refine repeats_bind (repeats_ofExcept fun s => hk.mapError_serializer) fun s hs => ?_
        exact hn _ s _ (hc.served_of_serializer (except_mapError_eq_ok.mp hs.ofExcept))
  | _ => exact repeats_refl _

theorem repeats_copyFields {r : RecordSerializer} (hr : r ∈ rs) (source copy : ObjectId)
    {t : FieldTable} (ht : ∀ e ∈ t, e ∈ r.entries) :
    Repeats (c.copyFields nested r.decl.id source copy t)
      (k.copyFields nested' r.decl.id source copy t) := by
  induction t with
  | nil => exact repeats_refl _
  | cons e t ih =>
      obtain ⟨he, ht⟩ := List.forall_mem_cons.mp ht
      have hbare := (hc.plain r hr).follows.bare e he
      simp only [copyFields]
      split
      · refine repeats_bind (repeats_inField ?_) fun _ _ => ih ht
        simp only [copyField, hbare]
        refine repeats_bind (repeats_refl _) fun v _ => ?_
        exact repeats_bind (repeats_copyValue hc hk hn v) fun _ _ => repeats_refl _
      · exact ih ht

theorem repeats_copyWith {t : ValueType} {s : Serializer} (hs : Served rs t s) (v : Value) :
    Repeats (c.copyWith nested s v) (k.copyWith nested' s v) := by
  cases hs with
  | stock hs => cases t <;> cases hs <;> cases v <;> exact repeats_refl _
  | @record r hr =>
      refine repeats_bind (repeats_refl _) fun st _ => repeats_bind (repeats_refl _) fun o _ => ?_
      have hmake : Repeats (c.copyInstance r o) (k.copyInstance r o) := by
        simp only [copyInstance]
        rw [(hc.plain r hr).hooks]
        refine repeats_bind (repeats_refl _) fun st _ => ?_
        exact repeats_bind (repeats_ofExcept fun x => hk.newInstance) fun _ _ => repeats_refl _
      refine repeats_bind hmake fun copy _ => repeats_bind (repeats_refl _) fun _ _ => ?_
      exact repeats_bind (repeats_copyFields hc hk hn hr o copy fun _ he => he) fun _ _ =>
        repeats_refl _

end

theorem repeats_copyObject (hc : c.Lists rs) (hk : k.Includes c) (n : Nat) (t : ValueType)
    (s : Serializer) (v : Value) (hs : Served rs t s) :
    Repeats (c.copyObject n s v) (k.copyObject n s v) := by
  induction n generalizing t s v with
  | zero => nofun
  | succ n ih =>
      simp only [copyObject]
      exact repeats_bind (repeats_copyWith hc hk ih hs v) fun _ _ => repeats_refl _

end Codec

end GraphCodec
