import Mathlib.Data.List.Basic
import Mathlib.Data.List.Forall2
import GraphCodec.Serializer.Arguments

/-!
# Serializers — tables that follow their class

A field table is *located* in a class when each entry is for the field at its place of the
declaration and the places increase, and it *follows* the class when moreover no entry has a
serializer of its own.  Building a table gives one that is located in its class, and follows it
provided that no field is bound to a serializer; taking entries out and changing settings keep it
so.  A record serializer is *plain* when it has no hooks and its table follows its class.

* `follows_build`: a new table follows its class.
* `Follows.sublist`, `Follows.modify`: what happens to a table afterwards.
* `Follows.split`: what a walk over a table knows at an entry.
* `of_congr`: settings do not change what type arguments resolve to.
-/

namespace GraphCodec

/-- Where two lists are related place by place, each element has one that it is related to. -/
theorem exists_mem_of_forall₂ {α β : Type} {R : α → β → Prop} {l : List α} {l' : List β}
    (h : List.Forall₂ R l l') {a : α} (ha : a ∈ l) : ∃ b ∈ l', R a b := by
  induction h with
  | nil => cases ha
  | @cons x y _ _ hxy _ ih =>
      rcases List.mem_cons.mp ha with rfl | ha
      · exact ⟨y, List.mem_cons_self, hxy⟩
      · obtain ⟨b, hb, hab⟩ := ih ha
        exact ⟨b, List.mem_cons_of_mem _ hb, hab⟩

/-- No field of the class is bound to a serializer. -/
def ClassDecl.Unbound (d : ClassDecl) : Prop := ∀ f ∈ d.fields, f.attributes.bound? = none

/-- Settings that give the field no serializer. -/
def FieldSettings.Bare {σ : Type} (s : FieldSettings σ) : Prop :=
  s.typed = none ∧ s.serializer = none

theorem FieldSettings.Bare.serializer_apply {σ : Type} {s : FieldSettings σ} (hs : s.Bare)
    {e : FieldEntryOf σ} (he : e.serializer = none) : (s.apply e).serializer = none := by
  obtain ⟨a, b, c, d, _, _, _⟩ := s
  obtain ⟨rfl, rfl⟩ : b = none ∧ c = none := hs
  cases a <;> cases d <;> simp [FieldSettings.apply, he]

namespace FieldTable

/-- Each entry is for the field at its place, and the places increase. -/
structure Located (d : ClassDecl) (t : FieldTable) : Prop where
  field : ∀ e ∈ t, ∃ f, d.fields[e.slot.index]? = some f ∧
    e.slot = ⟨d.id, e.slot.index, f.name⟩ ∧ e.type = f.type
  increasing : t.Pairwise fun e e' => e.slot.index < e'.slot.index

/-- Each entry is for the field at its place, without a serializer, and the places increase. -/
structure Follows (d : ClassDecl) (t : FieldTable) : Prop where
  field : ∀ e ∈ t, ∃ f, d.fields[e.slot.index]? = some f ∧
    e.slot = ⟨d.id, e.slot.index, f.name⟩ ∧ e.type = f.type
  bare : ∀ e ∈ t, e.serializer = none
  increasing : t.Pairwise fun e e' => e.slot.index < e'.slot.index

theorem Follows.located {d : ClassDecl} {t : FieldTable} (h : Follows d t) : Located d t :=
  { h with }

theorem Located.follows {d : ClassDecl} {t : FieldTable} (h : Located d t)
    (hbare : ∀ e ∈ t, e.serializer = none) : Follows d t :=
  { h with bare := hbare }

/-! ### A new table -/

theorem entry?_eq_some {d : ClassDecl} {options : FieldOptions} {context : Table String String}
    {i : Nat} {f : FieldDecl} {e : FieldEntry} (h : entry? d options context i f = some e) :
    e.slot = ⟨d.id, i, f.name⟩ ∧ e.type = f.type ∧
      e.serializer = f.attributes.bound?.map .stock := by
  unfold entry? at h
  split at h
  · cases h
  · simp only at h
    split at h
    · cases h
    · cases h
      exact ⟨rfl, rfl, rfl⟩

theorem pairwise_zipIdx {α : Type} (l : List α) : l.zipIdx.Pairwise fun p q => p.2 < q.2 := by
  have h : (l.zipIdx.map Prod.snd).Pairwise (· < ·) := by
    rw [List.zipIdx_map_snd]
    exact List.pairwise_lt_range'
  exact List.pairwise_map.mp h

/-- An entry of a new table is made from the field at its place. -/
theorem mem_build {d : ClassDecl} {options : FieldOptions} {context : Table String String}
    {e : FieldEntry} : e ∈ build d options context ↔
      ∃ i f, d.fields[i]? = some f ∧ entry? d options context i f = some e := by
  simp only [build, List.mem_filterMap, Prod.exists, List.mk_mem_zipIdx_iff_getElem?]
  exact exists_comm

theorem located_build (d : ClassDecl) (options : FieldOptions) (context : Table String String) :
    Located d (build d options context) := by
  refine ⟨fun e he => ?_, ?_⟩
  · obtain ⟨i, f, hi, hf⟩ := mem_build.mp he
    obtain ⟨hslot, htype, -⟩ := entry?_eq_some hf
    rw [hslot]
    exact ⟨f, hi, rfl, htype⟩
  · refine List.Pairwise.filterMap _ (fun p q hpq e he e' he' => ?_) (pairwise_zipIdx d.fields)
    rw [(entry?_eq_some he).1, (entry?_eq_some he').1]
    exact hpq

theorem follows_build {d : ClassDecl} (hd : d.Unbound) (options : FieldOptions)
    (context : Table String String) : Follows d (build d options context) := by
  refine (located_build d options context).follows fun e he => ?_
  -- an entry gets a serializer only from a field that is bound to one
  obtain ⟨i, f, hi, hf⟩ := mem_build.mp he
  rw [(entry?_eq_some hf).2.2, hd f (List.mem_of_getElem? hi)]
  rfl

/-! ### Changes to a table -/

theorem Located.sublist {d : ClassDecl} {t u : FieldTable} (h : Located d t)
    (hu : u.Sublist t) : Located d u :=
  ⟨fun e he => h.field e (hu.subset he), h.increasing.sublist hu⟩

theorem Follows.sublist {d : ClassDecl} {t u : FieldTable} (h : Follows d t)
    (hu : u.Sublist t) : Follows d u :=
  (h.located.sublist hu).follows fun e he => h.bare e (hu.subset he)

theorem mem_modify {name : String} {change : FieldEntry → FieldEntry} {e : FieldEntry}
    {t : FieldTable} (h : e ∈ modify name change t) : ∃ e₀ ∈ t, e = e₀ ∨ e = change e₀ := by
  induction t with
  | nil => cases h
  | cons e₀ rest ih =>
      simp only [modify] at h
      split at h
      · rcases List.mem_cons.mp h with rfl | h
        · exact ⟨e₀, List.mem_cons_self, .inr rfl⟩
        · exact ⟨e, List.mem_cons_of_mem _ h, .inl rfl⟩
      · rcases List.mem_cons.mp h with rfl | h
        · exact ⟨e, List.mem_cons_self, .inl rfl⟩
        · obtain ⟨e₁, h₁, h'⟩ := ih h
          exact ⟨e₁, List.mem_cons_of_mem _ h₁, h'⟩

/-- What a change leaves alone in an entry, it leaves alone in the table. -/
theorem map_modify {α : Type} {g : FieldEntry → α} (name : String)
    {change : FieldEntry → FieldEntry} (h : ∀ e, g (change e) = g e) (t : FieldTable) :
    (modify name change t).map g = t.map g := by
  induction t with
  | nil => rfl
  | cons e rest ih =>
      simp only [modify]
      split
      · simp [h]
      · simp [ih]

theorem Located.modify {d : ClassDecl} {t : FieldTable} (h : Located d t) (name : String)
    (s : FieldSettings Serializer) : Located d (FieldTable.modify name s.apply t) := by
  refine ⟨fun e he => ?_, ?_⟩
  · obtain ⟨e₀, h₀, rfl | rfl⟩ := mem_modify he
    · exact h.field e h₀
    · simpa using h.field e₀ h₀
  · -- settings move no entry to another place
    have hp := h.increasing
    rw [← List.pairwise_map (f := FieldEntryOf.slot) (R := fun a b => a.index < b.index)] at hp ⊢
    rwa [map_slot_modify name (FieldSettings.slot_apply s)]

theorem Follows.modify {d : ClassDecl} {t : FieldTable} (h : Follows d t) (name : String)
    {s : FieldSettings Serializer} (hs : s.Bare) :
    Follows d (FieldTable.modify name s.apply t) := by
  refine (h.located.modify name s).follows fun e he => ?_
  obtain ⟨e₀, h₀, rfl | rfl⟩ := mem_modify he
  · exact h.bare e h₀
  · exact hs.serializer_apply (h.bare e₀ h₀)

/-- Hooks take entries out and change settings. -/
theorem Located.adjust {d : ClassDecl} {t : FieldTable} (h : Located d t)
    (hooks : Option (Hooks Value)) : Located d (FieldTable.adjust hooks t) := by
  cases hooks with
  | none => exact h
  | some k =>
      have hremoved : ∀ (names : List String) {t : FieldTable}, Located d t →
          Located d (names.foldl remove t) := by
        intro names
        induction names with
        | nil => exact id
        | cons name names ih => exact fun ht => ih (ht.sublist List.eraseP_sublist)
      have hset : ∀ (settings : List (String × FieldSettings Stock)) {t : FieldTable},
          Located d t → Located d (settings.foldl
            (fun t s => FieldTable.modify s.1 (s.2.map Serializer.stock).apply t) t) := by
        intro settings
        induction settings with
        | nil => exact id
        | cons s settings ih => exact fun ht => ih (ht.modify s.1 _)
      exact hset k.settings (hremoved k.removed h)

/-- An entry of a table that follows its class is for a field of the class. -/
theorem Follows.index_lt {d : ClassDecl} {t : FieldTable} (h : Follows d t) {e : FieldEntry}
    (he : e ∈ t) : e.slot.index < d.fields.length := by
  obtain ⟨f, hf, -⟩ := h.field e he
  exact (List.getElem?_eq_some_iff.mp hf).1

theorem Follows.owner {d : ClassDecl} {t : FieldTable} (h : Follows d t) {e : FieldEntry}
    (he : e ∈ t) : e.slot.owner = d.id := by
  obtain ⟨f, -, hs, -⟩ := h.field e he
  rw [hs]

/-- At an entry in the middle of a table: it is a member, one may go on behind it, and no entry in
front of it is for its slot. -/
theorem Follows.split {d : ClassDecl} {t before after : FieldTable} (h : Follows d t)
    {e : FieldEntry} (ht : before ++ e :: after = t) (part : FieldEntry → Bool) :
    e ∈ t ∧ before ++ [e] ++ after = t ∧
      ∀ e' ∈ before.filter part, e'.slot.index ≠ e.slot.index := by
  subst ht
  have hinc := (List.pairwise_append.mp h.increasing).2.2
  refine ⟨List.mem_append_right _ List.mem_cons_self, by rw [List.append_assoc]; rfl, ?_⟩
  intro e' he'
  exact Nat.ne_of_lt (hinc e' (List.mem_filter.mp he').1 e List.mem_cons_self)

end FieldTable

namespace RecordSerializerOf

/-- No hooks, no bound field, and a table that follows the class. -/
structure Plain (r : RecordSerializer) : Prop where
  hooks : r.hooks = none
  unbound : r.decl.Unbound
  follows : FieldTable.Follows r.decl r.entries

theorem plain_make {d : ClassDecl} (hd : d.Unbound) (options : FieldOptions)
    (context : Table String String) (cell : Nat) : (make d options context none cell).Plain :=
  ⟨rfl, hd, FieldTable.follows_build hd options context⟩

theorem Plain.withOptions {r : RecordSerializer} (h : r.Plain) (options : FieldOptions) :
    (r.withOptions options).Plain := by
  rw [RecordSerializerOf.withOptions, h.hooks]
  exact plain_make h.unbound _ _ _

theorem Plain.withContext {r : RecordSerializer} (h : r.Plain)
    (context : Table String String) : (r.withContext context).Plain := by
  rw [RecordSerializerOf.withContext, h.hooks]
  exact plain_make h.unbound _ _ _

theorem Plain.mapEntries {r : RecordSerializer} (h : r.Plain) {f : FieldTable → FieldTable}
    (hf : FieldTable.Follows r.decl (f r.entries)) : (r.mapEntries f).Plain :=
  ⟨h.hooks, h.unbound, hf⟩

end RecordSerializerOf

/-! ### Resolutions -/

theorem except_mapError_eq_ok {ε ε' α : Type} {f : ε → ε'} {x : Except ε α} {a : α} :
    x.mapError f = .ok a ↔ x = .ok a := by
  cases x <;> simp [Except.mapError]

/-- A configuration in two parts ends well exactly if both parts do. -/
theorem except_bind_eq_ok {ε α β : Type} {x : Except ε α} {y : α → Except ε β} {b : β} :
    x >>= y = .ok b ↔ ∃ a, x = .ok a ∧ y a = .ok b := by
  cases x <;> simp [bind, Except.bind]

theorem Resolution.eq_of_ok {r : RecordSerializer} {args : List ConcreteType} {s : Resolution}
    (h : Resolution.of r args = .ok s) : ∃ scope, s = ⟨args, scope, r.entries.map fun e =>
      if e.isGeneric then e.type.resolve scope.get? else none⟩ := by
  obtain ⟨scope, -, h⟩ := except_bind_eq_ok.mp h
  cases h
  exact ⟨scope, rfl⟩

/-- What type arguments resolve to depends on the class and the declared types of the entries. -/
theorem Resolution.of_congr {r r' : RecordSerializer} (hd : r'.decl = r.decl)
    (ht : r'.entries.map FieldEntryOf.type = r.entries.map FieldEntryOf.type)
    (args : List ConcreteType) : Resolution.of r' args = Resolution.of r args := by
  rw [Resolution.of, Resolution.of, hd]
  congr 1
  funext scope
  -- a resolution reads nothing off an entry but its declared type
  have := congrArg (List.map fun t : FieldType =>
    if t.mentionsParams then t.resolve scope.get? else none) ht
  simp only [List.map_map] at this
  congr 2

end GraphCodec
