import GraphCodec.Proofs.Alike
import GraphCodec.Proofs.Records

/-!
# Codecs — setting up

Registering classes without bound fields, changing fields, options and the ambient context: each of
these keeps a list of plain record serializers with quiet cells, be it another list than before.

* `Lists.exchange`: one record serializer is exchanged for another one of the same class.  A change
  of a field does this, and so does a change of a field table, which forgets what was cached.
* `Lists.setContext`: all those are exchanged that were made for another context.
* `Lists.add`: a new class is listed last.
-/

namespace GraphCodec

namespace ArgumentCells

variable {t t' : ArgumentCells} {rs : List RecordSerializer}

/-- Serializers may be exchanged for others with the same cells, if what was cached still holds
for them or is forgotten. -/
theorem Quiet.map (h : t.Quiet rs) {g : RecordSerializer → RecordSerializer}
    (hcell : ∀ r ∈ rs, (g r).cell = r.cell) (hsize : t'.cells.size = t.cells.size)
    (hpending : ∀ r ∈ rs, (t'.get r.cell).pending = (t.get r.cell).pending)
    (hcached : ∀ r ∈ rs, (t'.get r.cell).cached = none ∨
      (t'.get r.cell).cached = (t.get r.cell).cached ∧
        ∀ args, Resolution.of (g r) args = Resolution.of r args) : t'.Quiet (rs.map g) := by
  have hcells : (rs.map g).map (fun r => r.cell) = rs.map fun r => r.cell := by
    rw [List.map_map]
    exact List.map_congr_left hcell
  refine ⟨hcells ▸ h.apart, List.forall_mem_map.mpr ?_,
    List.forall_mem_map.mpr ?_, List.forall_mem_map.mpr ?_⟩
  · intro r hr
    rw [hcell r hr, hsize]
    exact h.inside r hr
  · intro r hr
    rw [hcell r hr, hpending r hr]
    exact h.pending r hr
  · intro r hr s hs
    rw [hcell r hr] at hs
    rcases hcached r hr with he | ⟨he, hres⟩
    · -- what was cached is forgotten
      rw [he] at hs
      cases hs
    · -- what was cached still holds
      rw [he] at hs
      rw [hres]
      exact h.cached r hr s hs

@[simp] theorem size_invalidate (t : ArgumentCells) (n : Nat) :
    (t.invalidate n).cells.size = t.cells.size := size_set _ _ _

theorem get_invalidate (t : ArgumentCells) (n m : Nat) :
    (t.invalidate n).get m = if n = m then { t.get m with cached := none } else t.get m := by
  simp only [invalidate]
  split
  · next e =>
    subst e
    by_cases hn : n < t.cells.size
    · exact get_set_self _ _ hn
    · have hset : ∀ cell, t.set n cell = t := by
        intro cell
        simp [set, Array.setIfInBounds, hn]
      have hget : t.get n = .empty := by
        simp only [get, Array.getD, dif_neg hn]
        rfl
      rw [hset, hget]
      rfl
  · next e => exact get_set_of_ne _ _ e

theorem get_alloc (t : ArgumentCells) (n : Nat) : t.alloc.2.get n = t.get n := by
  rcases Nat.lt_trichotomy n t.cells.size with h | rfl | h
  · simp [alloc, get, h, Nat.lt_succ_of_lt h, Array.getElem_push]
  · simp [alloc, get]
    rfl
  · simp [alloc, get, Nat.not_lt.mpr h.le, Nat.not_lt.mpr (Nat.succ_le_of_lt h)]

/-- A new serializer comes with a new cell. -/
theorem Quiet.alloc (h : t.Quiet rs) {r : RecordSerializer} (hr : r.cell = t.alloc.1) :
    t.alloc.2.Quiet (rs ++ [r]) := by
  have hr : r.cell = t.cells.size := hr
  have hsize : t.alloc.2.cells.size = t.cells.size + 1 := Array.size_push _
  have hempty : t.get r.cell = .empty := by
    simp only [hr, get, Array.getD, lt_irrefl, dif_neg, not_false_eq_true]
    rfl
  have hall : ∀ {p : RecordSerializer → Prop}, (∀ s ∈ rs, p s) → p r → ∀ s ∈ rs ++ [r], p s :=
    fun h₁ h₂ => List.forall_mem_append.mpr ⟨h₁, List.forall_mem_singleton.mpr h₂⟩
  refine ⟨?_, ?_, ?_, ?_⟩
  · rw [List.map_append, List.nodup_append]
    refine ⟨h.apart, List.nodup_singleton _, fun n hn m hm he => ?_⟩
    obtain ⟨s, hs, rfl⟩ := List.mem_map.mp hn
    obtain rfl := List.mem_singleton.mp hm
    have he : s.cell = t.cells.size := he.trans hr
    exact absurd (h.inside s hs) (he ▸ lt_irrefl _)
  · rw [hsize]
    exact hall (fun s hs => Nat.lt_succ_of_lt (h.inside s hs)) (hr ▸ Nat.lt_succ_self _)
  · simp only [get_alloc]
    exact hall h.pending (by rw [hempty]; rfl)
  · simp only [get_alloc]
    refine hall h.cached fun s hs => ?_
    rw [hempty] at hs
    cases hs

end ArgumentCells

namespace Codec

variable {c k : Codec} {rs : List RecordSerializer}

/-! ### Exchanging record serializers -/

theorem Lists.map (hc : c.Lists rs) {g : RecordSerializer → RecordSerializer}
    (hdecl : ∀ r ∈ rs, (g r).decl = r.decl) (hplain : ∀ r ∈ rs, (g r).Plain)
    (hregs : k.registrations = builtIns ++ (rs.map g).map .ofRecord)
    (hcatalog : k.catalog = c.catalog) (hquiet : k.cells.Quiet (rs.map g)) :
    k.Lists (rs.map g) := by
  refine ⟨hregs, ?_, ?_, ?_, hquiet⟩
  · have : (rs.map g).map (fun r => r.decl.id) = rs.map fun r => r.decl.id := by
      rw [List.map_map]
      exact List.map_congr_left fun r hr => congrArg ClassDecl.id (hdecl r hr)
    exact this ▸ hc.ids
  · exact List.forall_mem_map.mpr hplain
  · refine List.forall_mem_map.mpr fun r hr => ?_
    rw [hcatalog, hdecl r hr]
    exact hc.known r hr

/-- `r'` in the place of the record serializer of its class. -/
def exchange (r' r : RecordSerializer) : RecordSerializer :=
  if r.decl.id = r'.decl.id then r' else r

theorem place_ofRecord {r' : RecordSerializer} {rs : List RecordSerializer}
    (hnd : (rs.map fun r => r.decl.id).Nodup) (h : ∃ r ∈ rs, r.decl.id = r'.decl.id) :
    place (.ofRecord r') (rs.map .ofRecord) = (rs.map (exchange r')).map .ofRecord := by
  induction rs with
  | nil =>
      obtain ⟨_, h, -⟩ := h
      cases h
  | cons r rs ih =>
      obtain ⟨hr, hnd⟩ := List.nodup_cons.mp hnd
      simp only [List.map_cons, place]
      by_cases e : r.decl.id = r'.decl.id
      · -- no serializer further on is of this class, and so those stay as they are
        have hrest : rs.map (exchange r') = rs := by
          refine (List.map_congr_left fun s hs => ?_).trans (List.map_id _)
          have hne : s.decl.id ≠ r'.decl.id := fun he => hr (by
            show r.decl.id ∈ _
            rw [e, ← he]
            exact List.mem_map_of_mem hs)
          simp [exchange, hne]
        have htype : (Registration.ofRecord r).type = (Registration.ofRecord r').type :=
          congrArg ValueType.object e
        rw [if_pos htype, hrest, exchange, if_pos e]
      · have hne : ¬ (Registration.ofRecord r).type = (Registration.ofRecord r').type := fun h' =>
          e (ValueType.object.inj h')
        obtain ⟨s, hs, he⟩ := h
        have hs : s ∈ rs := (List.mem_cons.mp hs).resolve_left fun hsr => e (hsr ▸ he)
        rw [if_neg hne, exchange, if_neg e, ih hnd ⟨s, hs, he⟩]

theorem place_builtIns (r : RecordSerializer) (l : List Registration) :
    place (.ofRecord r) (builtIns ++ l) = builtIns ++ place (.ofRecord r) l := by
  simp [builtIns, place, Registration.ofRecord, ClassDecl.type]

/-- A record serializer is exchanged for a plain one of the same class with the same cell. -/
theorem Lists.exchange (hc : c.Lists rs) {r r' : RecordSerializer} (hr : r ∈ rs) (hp : r'.Plain)
    (cells : ArgumentCells) (hdecl : r'.decl = r.decl) (hcell : r'.cell = r.cell)
    (hsize : cells.cells.size = c.cells.cells.size)
    (hother : ∀ s ∈ rs, s ≠ r → cells.get s.cell = c.cells.get s.cell)
    (hpending : (cells.get r.cell).pending = (c.cells.get r.cell).pending)
    (hcached : (cells.get r.cell).cached = none ∨
      (cells.get r.cell).cached = (c.cells.get r.cell).cached ∧
        ∀ args, Resolution.of r' args = Resolution.of r args) :
    ((c.putRecord (.object r.decl.id) r').withCells cells).Lists (rs.map (Codec.exchange r')) := by
  have hself : ∀ s ∈ rs, s.decl.id = r'.decl.id → s = r := fun s hs he =>
    List.inj_on_of_nodup_map hc.ids hs hr (by rw [he, hdecl])
  have hcases : ∀ s ∈ rs, s = r ∧ Codec.exchange r' s = r' ∨ s ≠ r ∧ Codec.exchange r' s = s := by
    intro s hs
    by_cases he : s.decl.id = r'.decl.id
    · exact .inl ⟨hself s hs he, if_pos he⟩
    · exact .inr ⟨fun e => he (by rw [e, hdecl]), if_neg he⟩
  refine hc.map (fun s hs => ?_) (fun s hs => ?_) ?_ rfl (hc.quiet.map (fun s hs => ?_) hsize
    (fun s hs => ?_) fun s hs => ?_)
  · rcases hcases s hs with ⟨rfl, he⟩ | ⟨-, he⟩ <;> rw [he]
    exact hdecl
  · rcases hcases s hs with ⟨rfl, he⟩ | ⟨-, he⟩ <;> rw [he]
    · exact hp
    · exact hc.plain s hs
  · -- the new serializer takes the place of the old one among the registrations
    have hreg : (⟨.object r.decl.id, .record r', true⟩ : Registration) = .ofRecord r' := by
      rw [← hdecl]
      rfl
    show place _ c.registrations = _
    rw [hreg, hc.registrations, place_builtIns, place_ofRecord hc.ids ⟨r, hr, by rw [hdecl]⟩]
  · rcases hcases s hs with ⟨rfl, he⟩ | ⟨-, he⟩ <;> rw [he]
    exact hcell
  · rcases hcases s hs with ⟨rfl, -⟩ | ⟨hne, -⟩
    · exact hpending
    · exact congrArg ArgumentCell.pending (hother s hs hne)
  · rcases hcases s hs with ⟨rfl, he⟩ | ⟨hne, he⟩ <;> rw [he]
    · exact hcached
    · exact .inr ⟨congrArg ArgumentCell.cached (hother s hs hne), fun _ => rfl⟩

theorem Lists.configureField (hc : c.Lists rs) {owner : ClassId} {name : String}
    {s : FieldSettings Serializer} (hs : s.Bare) {e : FieldEntry}
    (h : c.configureField owner name s = .ok (e, k)) : ∃ rs, k.Lists rs := by
  obtain ⟨r, hr, h⟩ := except_bind_eq_ok.mp h
  obtain ⟨_, -, h⟩ := except_bind_eq_ok.mp h
  cases h
  obtain ⟨hmem, rfl⟩ := hc.mem_of_record hr
  have hp := (hc.plain r hmem).mapEntries ((hc.plain r hmem).follows.modify name hs)
  -- no type of an entry is changed, so that what is cached still holds
  exact ⟨_, hc.exchange hmem hp c.cells rfl rfl rfl (fun _ _ _ => rfl) rfl
    (.inr ⟨rfl, Resolution.of_congr rfl
      (FieldTable.map_modify name (FieldSettings.type_apply s) r.entries)⟩)⟩

/-- A change of a field table forgets what was cached for it. -/
theorem Lists.reshape (hc : c.Lists rs) {r r' : RecordSerializer} (hr : r ∈ rs)
    (hdecl : r'.decl = r.decl) (hcell : r'.cell = r.cell) (hp : r'.Plain) :
    ∃ rs, (c.reshape (.object r.decl.id) r').Lists rs := by
  have hne : ∀ s ∈ rs, s ≠ r → r.cell ≠ s.cell := fun s hs hne he =>
    hne (List.inj_on_of_nodup_map hc.quiet.apart hs hr he.symm)
  have hget := ArgumentCells.get_invalidate c.cells r'.cell
  rw [hcell] at hget
  refine ⟨_, hc.exchange hr hp (c.cells.invalidate r'.cell) hdecl hcell (by simp)
    (fun s hs h => ?_) ?_ (.inl ?_)⟩ <;> rw [hcell, hget]
  · rw [if_neg (hne s hs h)]
  · rw [if_pos rfl]
  · rw [if_pos rfl]

theorem Lists.removeField (hc : c.Lists rs) {owner : ClassId} {name : String} {e : FieldEntry}
    {r : RecordSerializer} (h : c.removeField owner name = .ok (e, r, k)) : ∃ rs, k.Lists rs := by
  obtain ⟨r₀, hr, h⟩ := except_bind_eq_ok.mp h
  obtain ⟨_, -, h⟩ := except_bind_eq_ok.mp h
  cases h
  obtain ⟨hmem, rfl⟩ := hc.mem_of_record hr
  exact hc.reshape hmem rfl rfl ((hc.plain r₀ hmem).mapEntries
    ((hc.plain r₀ hmem).follows.sublist List.eraseP_sublist))

theorem Lists.removeFields (hc : c.Lists rs) {owner : ClassId} {condition : FieldEntry → Bool}
    {r : RecordSerializer} (h : c.removeFields owner condition = .ok (r, k)) :
    ∃ rs, k.Lists rs := by
  obtain ⟨r₀, hr, h⟩ := except_bind_eq_ok.mp h
  cases h
  obtain ⟨hmem, rfl⟩ := hc.mem_of_record hr
  exact hc.reshape hmem rfl rfl ((hc.plain r₀ hmem).mapEntries
    ((hc.plain r₀ hmem).follows.sublist List.filter_sublist))

theorem Lists.setOptions (hc : c.Lists rs) {owner : ClassId} {options : FieldOptions}
    {r : RecordSerializer} (h : c.setOptions owner options = .ok (r, k)) : ∃ rs, k.Lists rs := by
  obtain ⟨r₀, hr, h⟩ := except_bind_eq_ok.mp h
  cases h
  obtain ⟨hmem, rfl⟩ := hc.mem_of_record hr
  exact hc.reshape hmem rfl rfl ((hc.plain r₀ hmem).withOptions options)

/-! ### The ambient context -/

theorem get_foldl_invalidate (n : Nat) (l : List RecordSerializer) (t : ArgumentCells) :
    (l.foldl (fun cells r => cells.invalidate r.cell) t).get n =
      if ∃ r ∈ l, r.cell = n then { t.get n with cached := none } else t.get n := by
  induction l generalizing t with
  | nil => simp
  | cons r l ih =>
      rw [List.foldl_cons, ih, ArgumentCells.get_invalidate]
      by_cases h : r.cell = n
      · simp [h]
      · simp [h]

theorem size_foldl_invalidate (l : List RecordSerializer) (t : ArgumentCells) :
    (l.foldl (fun cells r => cells.invalidate r.cell) t).cells.size = t.cells.size := by
  induction l generalizing t with
  | nil => rfl
  | cons r l ih => rw [List.foldl_cons, ih, ArgumentCells.size_invalidate]

/-- The serializer after a change of the context: built anew, unless the context has the same
entries as before. -/
def inContext (context : Table String String) (r : RecordSerializer) : RecordSerializer :=
  if r.context.sameEntries context then r else r.withContext context

theorem inContext_cases (context : Table String String) (r : RecordSerializer) :
    r.context.sameEntries context = true ∧ inContext context r = r ∨
      r.context.sameEntries context = false ∧ inContext context r = r.withContext context := by
  cases h : r.context.sameEntries context with
  | true => exact .inl ⟨rfl, if_pos h⟩
  | false => exact .inr ⟨rfl, if_neg (by simp [h])⟩

theorem follow_ofRecord (context : Table String String) (r : RecordSerializer) :
    follow context (.ofRecord r) = .ofRecord (inContext context r) := by
  rcases inContext_cases context r with ⟨h, he⟩ | ⟨h, he⟩ <;>
    simp [follow, affected?, Registration.ofRecord, h, he, RecordSerializerOf.withContext,
      RecordSerializerOf.make, ClassDecl.type]

theorem Lists.filterMap_affected (hc : c.Lists rs) (context : Table String String) :
    c.registrations.filterMap (affected? context) =
      rs.filter fun r => !r.context.sameEntries context := by
  rw [hc.registrations, List.filterMap_append, List.filterMap_map]
  refine (List.nil_append _).trans ?_
  rw [← List.filterMap_eq_filter]
  refine List.filterMap_congr fun r _ => ?_
  by_cases h : r.context.sameEntries context = true <;>
    simp [affected?, Registration.ofRecord, Option.guard, h]

theorem Lists.setContext (hc : c.Lists rs) (context : Table String String) :
    ∃ rs, (c.setContext context).Lists rs := by
  refine ⟨rs.map (inContext context), hc.map ?_ ?_ ?_ rfl
    (hc.quiet.map ?_ (size_foldl_invalidate _ _) ?_ ?_)⟩
  · intro r hr
    rcases inContext_cases context r with ⟨-, he⟩ | ⟨-, he⟩ <;> rw [he]
    rfl
  · intro r hr
    rcases inContext_cases context r with ⟨-, he⟩ | ⟨-, he⟩ <;> rw [he]
    · exact hc.plain r hr
    · exact (hc.plain r hr).withContext context
  · show c.registrations.map (follow context) = _
    rw [hc.registrations, List.map_append, List.map_map, List.map_map]
    exact congrArg (builtIns ++ ·) (List.map_congr_left fun r _ => follow_ofRecord context r)
  · intro r hr
    rcases inContext_cases context r with ⟨-, he⟩ | ⟨-, he⟩ <;> rw [he]
    rfl
  · intro r hr
    show ((_ : ArgumentCells).get r.cell).pending = _
    rw [Codec.setContext, get_foldl_invalidate]
    split <;> rfl
  · intro r hr
    -- what is cached is forgotten for the serializers that were built anew, and for those only
    rw [Codec.setContext, get_foldl_invalidate, hc.filterMap_affected]
    split
    · exact .inl rfl
    · next hout =>
      refine .inr ⟨rfl, fun args => ?_⟩
      rcases inContext_cases context r with ⟨-, he⟩ | ⟨h, -⟩
      · rw [he]
      · exact absurd ⟨r, List.mem_filter.mpr ⟨hr, by simp [h]⟩, rfl⟩ hout

/-! ### New classes -/

/-- A table that is not refused is of a new class, and declares the parameters that it mentions. -/
theorem of_fault?_eq_none {t : Catalog} {d : ClassDecl} (h : t.fault? d = none) :
    t.get? d.id = none ∧ d.undeclaredParam? = none := by
  simp only [Catalog.fault?] at h
  split at h
  · cases h
  · next hnew =>
    refine ⟨?_, ?_⟩
    · simpa [Table.contains, Catalog.get?] using hnew
    · split at h
      · cases h
      · exact Option.map_eq_none_iff.mp h

/-- Where no parameter is undeclared, each one that a field mentions is one of the class. -/
theorem mem_params_of_undeclared {d : ClassDecl} (hd : d.undeclaredParam? = none) {f : FieldDecl}
    (hf : f ∈ d.fields) {p : String} (hp : p ∈ f.type.params) : p ∈ d.params.names := by
  have hnone := List.findSome?_eq_none_iff.mp hd f hf
  rw [Option.map_eq_none_iff, List.find?_eq_none] at hnone
  simpa [TypeParams.contains] using hnone p hp

theorem get?_add (t : Catalog) (d : ClassDecl) (id : ClassId) :
    (t.add d).get? id = if d.id = id then some d else t.get? id := by
  have h := Table.get?_insert t.decls d.id id d
  unfold Catalog.add Catalog.get?
  simp only
  split
  · exact h
  · split <;> exact h

theorem place_of_forall_ne {r : Registration} {l : List Registration}
    (h : ∀ x ∈ l, x.type ≠ r.type) : place r l = l ++ [r] := by
  induction l with
  | nil => rfl
  | cons x l ih =>
      obtain ⟨hx, hl⟩ := List.forall_mem_cons.mp h
      rw [place, if_neg hx, ih hl]
      rfl

/-- A class that was not listed is listed last, with a new cell. -/
theorem Lists.add (hc : c.Lists rs) {d : ClassDecl} (hd : d.Unbound)
    (hknown : c.catalog.get? d.id = some d) (hnew : ∀ r ∈ rs, r.decl.id ≠ d.id)
    (options : FieldOptions) :
    ∃ rs, ((c.withCells c.cells.alloc.2).register
      ⟨d.type, .record (.make d options c.context none c.cells.alloc.1), true⟩).Lists rs := by
  obtain ⟨r, hr⟩ : ∃ r : RecordSerializer, r = .make d options c.context none c.cells.alloc.1 :=
    ⟨_, rfl⟩
  have hdecl : r.decl = d := congrArg RecordSerializerOf.decl hr
  have hreg : (⟨d.type, .record r, true⟩ : Registration) = .ofRecord r := by rw [← hdecl]; rfl
  rw [← hr, hreg]
  refine ⟨rs ++ [r], ?_, ?_, ?_, ?_, hc.quiet.alloc (congrArg RecordSerializerOf.cell hr)⟩
  · -- no registration is for the class, so that the new one comes last
    have hne : ∀ x ∈ c.registrations, x.type ≠ (Registration.ofRecord r).type := by
      rw [hc.registrations, List.forall_mem_append]
      refine ⟨by simp [builtIns, Registration.ofRecord, ClassDecl.type], ?_⟩
      refine List.forall_mem_map.mpr fun s hs he => hnew s hs ?_
      rw [← hdecl]
      exact ValueType.object.inj he
    show place _ c.registrations = _
    rw [place_of_forall_ne hne, hc.registrations, List.map_append, List.append_assoc]
    rfl
  · rw [List.map_append, List.nodup_append]
    refine ⟨hc.ids, List.nodup_singleton _, fun i hi j hj he => ?_⟩
    obtain ⟨s, hs, rfl⟩ := List.mem_map.mp hi
    obtain rfl := List.mem_singleton.mp hj
    exact hnew s hs (hdecl ▸ he)
  · simp only [List.forall_mem_append, List.forall_mem_singleton]
    exact ⟨hc.plain, hr ▸ RecordSerializerOf.plain_make hd _ _ _⟩
  · simp only [List.forall_mem_append, List.forall_mem_singleton, hdecl]
    exact ⟨hc.known, hknown⟩

theorem Lists.id_ne (hc : c.Lists rs) {d : ClassDecl} (hfault : c.catalog.fault? d = none) :
    ∀ r ∈ rs, r.decl.id ≠ d.id := by
  intro r hr he
  have hk := hc.known r hr
  rw [he, (of_fault?_eq_none hfault).1] at hk
  cases hk

/-- A class without a serializer is not listed. -/
theorem Lists.addClass (hc : c.Lists rs) {d : ClassDecl} (hnew : ∀ r ∈ rs, r.decl.id ≠ d.id) :
    Lists { c with catalog := c.catalog.add d } rs :=
  { hc with
    known := by
      intro r hr
      rw [get?_add, if_neg (hnew r hr).symm]
      exact hc.known r hr }

theorem buildRecord_of_known {d : ClassDecl} (hd : c.catalog.get? d.id = some d)
    (options : FieldOptions) : c.buildRecord d.id options none =
      .ok (.make d options c.context none c.cells.alloc.1, c.withCells c.cells.alloc.2) := by
  simp only [buildRecord, classDecl, hd]
  rfl

/-- Registering refuses the table, or adds it to the catalog and has no serializer for the class, or
adds it and gives the class a new record serializer. -/
theorem registerClass_cases (c : Codec) (d : ClassDecl) {plan : ClassPlan Value}
    (hplan : plan = .refuse ∨ plan = .standard ∨ ∃ options, plan = .configured options) :
    (∃ e, c.registerClass d plan = (.error e, c)) ∨ c.catalog.fault? d = none ∧
      ((∃ e, c.registerClass d plan = (.error e, { c with catalog := c.catalog.add d })) ∨
        ∃ n options, c.registerClass d plan =
          (.ok n, (withCells { c with catalog := c.catalog.add d } c.cells.alloc.2).register
            ⟨d.type, .record (.make d options c.context none c.cells.alloc.1), true⟩)) := by
  simp only [Codec.registerClass]
  cases hreg : c.catalog.register d with
  | error e => exact .inl ⟨_, rfl⟩
  | ok catalog =>
      obtain ⟨hfault, rfl⟩ := Catalog.register_ok hreg
      have hknown : (c.catalog.add d).get? d.id = some d := by
        rw [get?_add, if_pos rfl]
      have hbuild := buildRecord_of_known (c := { c with catalog := c.catalog.add d }) hknown
      refine .inr ⟨hfault, ?_⟩
      rcases hplan with rfl | rfl | ⟨options, rfl⟩
      · exact .inl ⟨_, rfl⟩
      · simp only [buildPlan, hbuild]
        exact .inr ⟨_, c.options, rfl⟩
      · simp only [buildPlan, hbuild]
        exact .inr ⟨_, options, rfl⟩

/-- Registering leaves the catalog alone, or adds a table to it that is not refused. -/
theorem catalog_registerClass (c : Codec) (d : ClassDecl) {plan : ClassPlan Value}
    (hplan : plan = .refuse ∨ plan = .standard ∨ ∃ options, plan = .configured options) :
    (c.registerClass d plan).2.catalog = c.catalog ∨
      c.catalog.fault? d = none ∧ (c.registerClass d plan).2.catalog = c.catalog.add d := by
  rcases c.registerClass_cases d hplan with ⟨e, h⟩ | ⟨hfault, ⟨e, h⟩ | ⟨n, options, h⟩⟩ <;> rw [h]
  · exact .inl rfl
  · exact .inr ⟨hfault, rfl⟩
  · exact .inr ⟨hfault, rfl⟩

theorem Lists.registerClass (hc : c.Lists rs) {d : ClassDecl} (hd : d.Unbound)
    {plan : ClassPlan Value}
    (hplan : plan = .refuse ∨ plan = .standard ∨ ∃ options, plan = .configured options) :
    ∃ rs, (c.registerClass d plan).2.Lists rs := by
  rcases c.registerClass_cases d hplan with ⟨e, h⟩ | ⟨hfault, ⟨e, h⟩ | ⟨n, options, h⟩⟩ <;> rw [h]
  · exact ⟨rs, hc⟩
  · exact ⟨rs, hc.addClass (hc.id_ne hfault)⟩
  · have hknown : (c.catalog.add d).get? d.id = some d := by
      rw [get?_add, if_pos rfl]
    exact (hc.addClass (hc.id_ne hfault)).add hd hknown (hc.id_ne hfault) options

end Codec

end GraphCodec
