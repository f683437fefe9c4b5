import GraphCodec.Proofs.Extension
import GraphCodec.Proofs.Following
import GraphCodec.Proofs.Marks

/-!
# Codecs — the numbers of types

A `Ledger` is a codec that keeps the number of a type in its registration and a map from types to
numbers, and looks a type up in the map only.  Its serializers are made by any function of the codec
(`Maker`), which can fail; a codec without the map registers in the same way
(`Ledger.codec_register`, `Ledger.codec_registerClass`).

Numbers are natural numbers here and have no bound, while a tag, which is the number plus one, has
32 bits where it is written.  A number is below the number of registrations, of which there is one
for each built-in type and at most one more for each call, so that all tags fit as long as built-in
types and calls together are fewer than `2 ^ 32`.

* `Ledger.Numbered`: the map lists the registrations, each with its place.
* `Ledger.numbered_run`: any calls keep it.
* `Ledger.length_run_le`: how many registrations there are.
* `numbers_dense_and_stable`: what numbers and tags stand for, and what a call changes.
-/

namespace GraphCodec

namespace Table

variable {κ α : Type} [DecidableEq κ]

theorem put_of_find_eq_none {k : κ} {l : List (κ × α)} (h : find k l = none) (v : α) :
    put k v l = l ++ [(k, v)] := by
  induction l with
  | nil => rfl
  | cons e l ih =>
      rw [find] at h
      split at h
      · cases h
      · next hne => rw [put, if_neg hne, ih h, List.cons_append]

/-- A new key is put in last. -/
theorem entries_insert_of_get?_eq_none {t : Table κ α} {k : κ} (h : t.get? k = none) (v : α) :
    (t.insert k v).entries = t.entries ++ [(k, v)] :=
  put_of_find_eq_none h v

end Table

/-- Without serializers there is nothing to be kept. -/
theorem ArgumentCells.Quiet.nil (t : ArgumentCells) : t.Quiet [] :=
  ⟨List.nodup_nil, by simp, by simp, by simp⟩

namespace Codec

/-! ### Types registered once -/

section

variable {r x : Registration}

/-- A type that is registered again keeps its place. -/
theorem place_eq_set {l : List Registration} (hl : (l.map Registration.type).Nodup) {n : Nat}
    (hn : l[n]? = some x) (hx : x.type = r.type) : place r l = l.set n r := by
  induction l generalizing n with
  | nil => cases hn
  | cons y l ih =>
      obtain ⟨hy, hl⟩ := List.nodup_cons.mp hl
      cases n with
      | zero =>
          cases hn
          rw [place, if_pos hx]
          rfl
      | succ n =>
          have hmem : x ∈ l := List.mem_of_getElem? hn
          have hne : y.type ≠ r.type := fun he =>
            hy (List.mem_map.mpr ⟨x, hmem, hx.trans he.symm⟩)
          rw [place, if_neg hne, ih hl hn]
          rfl

end

section

variable {c : Codec} (hnodup : (c.registrations.map Registration.type).Nodup) {t : ValueType}
  {n : Nat} {r : Registration}
include hnodup

theorem number?_eq_some_iff :
    c.number? t = some n ↔ ∃ r, c.registrationAt? n = some r ∧ r.type = t := by
  simp only [number?, List.findIdx?_eq_some_iff_getElem, registrationAt?, List.getElem?_eq_some_iff,
    decide_eq_true_eq]
  constructor
  · rintro ⟨hlt, ht, -⟩
    exact ⟨_, ⟨hlt, rfl⟩, ht⟩
  · rintro ⟨_, ⟨hlt, rfl⟩, rfl⟩
    refine ⟨hlt, rfl, fun j hj ht => ?_⟩
    have he := List.inj_on_of_nodup_map hnodup (List.getElem_mem _) (List.getElem_mem _) ht
    exact hj.ne (hnodup.of_map.getElem_inj_iff.mp he)

theorem registration?_eq_some_iff :
    c.registration? t = some r ↔ ∃ n, c.registrationAt? n = some r ∧ r.type = t := by
  constructor
  · intro h
    obtain ⟨n, hn⟩ := List.mem_iff_getElem?.mp (List.mem_of_find?_eq_some h)
    exact ⟨n, hn, by simpa using List.find?_some h⟩
  · rintro ⟨n, hn, ht⟩
    have hnumber := (number?_eq_some_iff hnodup).mpr ⟨r, hn, ht⟩
    cases h : c.registration? t with
    | none =>
        have hne := List.find?_eq_none.mp h r (List.mem_of_getElem? hn)
        exact absurd ht (by simpa using hne)
    | some r' => rw [← (registrationAt?_of_number? hnumber h).1, hn]

end

end Codec

/-- A registration with the number of its type, which has no bound of its own. -/
structure Entry extends Registration where
  number : Nat

/-- A codec that keeps numbers.  However many types there are, the next one gets a number. -/
structure Ledger where
  catalog : Catalog
  entries : List Entry
  numbers : Table ValueType Nat
  context : Table String String
  references : Bool
  options : FieldOptions
  cells : ArgumentCells

/-- How the serializer of a type is made; it may leave new cells for type arguments. -/
abbrev Maker := Codec → Except CodecError (Serializer × Bool × ArgumentCells)

namespace Maker

/-- Makes the serializer that is asked for. -/
def ofSpec (spec : SerializerSpec Value) : Maker := fun c => do
  let (s, c') ← c.build spec
  return (s, spec.isExposed, c'.cells)

/-- Makes the serializer of a new class. -/
def ofPlan (owner : ClassId) (plan : ClassPlan Value) : Maker := fun c => do
  let (s, exposed, c') ← c.buildPlan owner plan
  return (s, exposed, c'.cells)

end Maker

/-- What can be asked of a ledger. -/
inductive Call
  /-- A serializer is made and registered for a type. -/
  | registerType (t : ValueType) (make : Maker)
  /-- A class is added to the catalog; then its serializer is made and registered. -/
  | registerClass (d : ClassDecl) (make : Maker)

/-- The type that a call is about. -/
def Call.type : Call → ValueType
  | registerType t _ => t
  | registerClass d _ => d.type

namespace Ledger

/-- The codec of the ledger. -/
def codec (l : Ledger) : Codec :=
  ⟨l.catalog, l.entries.map Entry.toRegistration, l.context, l.references, l.options, l.cells⟩

/-- Gives a type a serializer, and a number unless it has one; the answer is its number. -/
def register (l : Ledger) (r : Registration) : Nat × Ledger :=
  match l.numbers.get? r.type with
  | some n =>
    let replace (e : Entry) : Entry := { e with serializer := r.serializer, exposed := r.exposed }
    (n, { l with entries := l.entries.modify n replace })
  | none =>
    let n := l.entries.length
    (n, { l with entries := l.entries ++ [⟨r, n⟩], numbers := l.numbers.insert r.type n })

/-- Makes a serializer for a type and registers it. -/
def registerType (l : Ledger) (t : ValueType) (make : Maker) : Except CodecError Nat × Ledger :=
  match make l.codec with
  | .error e => (.error e, l)
  | .ok (s, exposed, cells) =>
    let (n, l) := register { l with cells := cells } ⟨t, s, exposed⟩
    (.ok n, l)

/-- Adds a class and registers it as a type. -/
def registerClass (l : Ledger) (d : ClassDecl) (make : Maker) : Except CodecError Nat × Ledger :=
  match l.catalog.register d with
  | .error e => (.error (.config (.catalog e)), l)
  | .ok catalog => registerType { l with catalog := catalog } d.type make

def call (l : Ledger) : Call → Except CodecError Nat × Ledger
  | .registerType t make => l.registerType t make
  | .registerClass d make => l.registerClass d make

/-- A ledger with the types that every codec starts with. -/
def new : Ledger :=
  Codec.builtIns.foldl (fun l r => (l.register r).2)
    ⟨.empty, [], .empty, .empty, true, .standard, .empty⟩

/-- What calls leave, one after the other. -/
def run (calls : List Call) : Ledger := calls.foldl (fun l x => (l.call x).2) new

theorem codec_new : new.codec = Codec.new := rfl

/-! ### Numbers and places -/

/-- Each registration has its place as its number, and the map has the same numbers. -/
structure Numbered (l : Ledger) : Prop where
  places : l.entries.map Entry.number = List.range l.entries.length
  numbers : l.numbers.entries = l.entries.map fun e => (e.type, e.number)

namespace Numbered

variable {l : Ledger} (h : Numbered l)
include h

theorem number_eq {i : Nat} {e : Entry} (he : l.entries[i]? = some e) : e.number = i := by
  have hlt : i < l.entries.length := (List.getElem?_eq_some_iff.mp he).1
  have hplace := congrArg (·[i]?) h.places
  simp only [List.getElem?_map, he, Option.map_some, List.getElem?_range hlt] at hplace
  exact Option.some.inj hplace

theorem types_nodup : (l.entries.map fun e => e.type).Nodup := by
  have hkeys : (l.entries.map fun e => e.type) = l.numbers.entries.map Prod.fst := by
    rw [h.numbers, List.map_map]
    rfl
  rw [hkeys]
  exact l.numbers.nodup

theorem get?_eq_some {t : ValueType} {n : Nat} :
    l.numbers.get? t = some n ↔ ∃ e, l.entries[n]? = some e ∧ e.type = t := by
  rw [← Table.mem_entries_iff, h.numbers, List.mem_map]
  constructor
  · rintro ⟨e, he, hkey⟩
    obtain ⟨rfl, rfl⟩ := Prod.mk.inj hkey
    obtain ⟨i, hi⟩ := List.mem_iff_getElem?.mp he
    exact ⟨e, by rwa [h.number_eq hi], rfl⟩
  · rintro ⟨e, he, rfl⟩
    exact ⟨e, List.mem_of_getElem? he, by rw [h.number_eq he]⟩

theorem lt_of_get? {t : ValueType} {n : Nat} (hn : l.numbers.get? t = some n) :
    n < l.entries.length := by
  obtain ⟨e, he, -⟩ := h.get?_eq_some.mp hn
  exact (List.getElem?_eq_some_iff.mp he).1

theorem get?_eq_none {t : ValueType} :
    l.numbers.get? t = none ↔ t ∉ l.entries.map fun e => e.type := by
  rw [Option.eq_none_iff_forall_ne_some, List.mem_map]
  simp only [ne_eq, h.get?_eq_some, List.mem_iff_getElem?]
  constructor
  · rintro hnone ⟨e, ⟨n, hn⟩, ht⟩
    exact hnone n ⟨e, hn, ht⟩
  · rintro hnone n ⟨e, hn, ht⟩
    exact hnone ⟨e, ⟨n, hn⟩, ht⟩

end Numbered

/-! ### Registering -/

section

variable {l : Ledger} {r : Registration} {n : Nat}

/-- Registering a type again replaces what is at its place. -/
theorem register_again (h : Numbered l) (hn : l.numbers.get? r.type = some n) :
    l.register r = (n, { l with entries := l.entries.set n ⟨r, n⟩ }) := by
  obtain ⟨e, he, ht⟩ := h.get?_eq_some.mp hn
  obtain rfl := h.number_eq he
  rw [register, hn]
  simp only [List.modify_eq_set_getElem?, he, Option.map_eq_map, Option.map_some,
    Option.getD_some, ht]

theorem register_first (hn : l.numbers.get? r.type = none) :
    l.register r = (l.entries.length, { l with
      entries := l.entries ++ [⟨r, l.entries.length⟩]
      numbers := l.numbers.insert r.type l.entries.length }) := by
  rw [register, hn]

/-- Registering a type again changes neither its type nor its number. -/
theorem map_set_entry {α : Type} (h : Numbered l) (hn : l.numbers.get? r.type = some n)
    {f : Entry → α} (hf : ∀ e, e.type = r.type → e.number = n → f e = f ⟨r, n⟩) :
    (l.entries.set n ⟨r, n⟩).map f = l.entries.map f := by
  obtain ⟨e, he, ht⟩ := h.get?_eq_some.mp hn
  have hlt := (List.getElem?_eq_some_iff.mp he).1
  rw [List.map_set, ← hf e ht (h.number_eq he)]
  refine List.ext_getElem? fun i => ?_
  rw [List.getElem?_set]
  split
  · next hi =>
    subst hi
    rw [List.length_map, if_pos hlt, List.getElem?_map, he, Option.map_some]
  · rfl

theorem numbered_register (h : Numbered l) (r : Registration) : Numbered (l.register r).2 := by
  cases hn : l.numbers.get? r.type with
  | some n =>
      rw [register_again h hn]
      constructor
      case places =>
        rw [map_set_entry h hn fun e _ he => he, List.length_set]
        exact h.places
      case numbers =>
        rw [map_set_entry h hn fun e ht he => by rw [ht, he]]
        exact h.numbers
  | none =>
      rw [register_first hn]
      constructor
      case places =>
        simp only [List.map_append, h.places, List.map_singleton, List.length_append,
          List.length_singleton, List.range_succ]
      case numbers =>
        simp only [Table.entries_insert_of_get?_eq_none hn, h.numbers, List.map_append,
          List.map_singleton]

/-- Numbers are given once: the map only grows at its end. -/
theorem numbers_register (h : Numbered l) (r : Registration) :
    l.numbers.entries <+: (l.register r).2.numbers.entries := by
  cases hn : l.numbers.get? r.type with
  | some n => rw [register_again h hn]
  | none =>
      rw [register_first hn, Table.entries_insert_of_get?_eq_none hn]
      exact List.prefix_append _ _

theorem get?_register (h : Numbered l) (r : Registration) :
    (l.register r).2.numbers.get? r.type = some (l.register r).1 := by
  cases hn : l.numbers.get? r.type with
  | some n => rw [register_again h hn, hn]
  | none => rw [register_first hn, Table.get?_insert, if_pos rfl]

theorem entries_register (h : Numbered l) (r : Registration) {m : Nat} (hm : m ≠ (l.register r).1) :
    (l.register r).2.entries[m]? = l.entries[m]? := by
  cases hn : l.numbers.get? r.type with
  | some n =>
      rw [register_again h hn] at hm ⊢
      exact List.getElem?_set_ne (Ne.symm hm)
  | none =>
      rw [register_first hn] at hm ⊢
      rcases Nat.lt_or_gt_of_ne hm with hlt | hgt
      · exact List.getElem?_append_left hlt
      · rw [List.getElem?_eq_none hgt.le, List.getElem?_eq_none]
        rw [List.length_append]
        exact hgt

/-- Registering adds one type at most. -/
theorem length_register_le (l : Ledger) (r : Registration) :
    (l.register r).2.entries.length ≤ l.entries.length + 1 := by
  cases hn : l.numbers.get? r.type with
  | some n =>
      rw [register, hn]
      exact (List.length_modify ..).le.trans (Nat.le_succ _)
  | none =>
      rw [register_first hn]
      exact List.length_append.le

end

/-! ### The codec of a ledger -/

theorem registrationAt?_codec (l : Ledger) (n : Nat) :
    l.codec.registrationAt? n = (l.entries[n]?).map Entry.toRegistration := List.getElem?_map ..

section

variable {l : Ledger} (h : Numbered l)
include h

theorem nodup_codec : (l.codec.registrations.map Registration.type).Nodup := by
  have htypes := h.types_nodup
  rwa [codec, List.map_map]

theorem number?_codec (t : ValueType) : l.codec.number? t = l.numbers.get? t := by
  ext n
  rw [Codec.number?_eq_some_iff (nodup_codec h), h.get?_eq_some, registrationAt?_codec]
  simp only [Option.map_eq_some_iff]
  constructor
  · rintro ⟨_, ⟨e, he, rfl⟩, ht⟩
    exact ⟨e, he, ht⟩
  · rintro ⟨e, he, ht⟩
    exact ⟨_, ⟨e, he, rfl⟩, ht⟩

theorem registration?_codec (t : ValueType) :
    l.codec.registration? t = (l.numbers.get? t).bind l.codec.registrationAt? := by
  ext r
  rw [Codec.registration?_eq_some_iff (nodup_codec h), Option.bind_eq_some_iff]
  simp only [← number?_codec h, Codec.number?_eq_some_iff (nodup_codec h)]
  constructor
  · rintro ⟨n, hn, ht⟩
    exact ⟨n, ⟨r, hn, ht⟩, hn⟩
  · rintro ⟨n, ⟨r', hn', ht⟩, hn⟩
    obtain rfl : r' = r := Option.some.inj (hn'.symm.trans hn)
    exact ⟨n, hn, ht⟩

theorem codec_register (r : Registration) : (l.register r).2.codec = l.codec.register r := by
  have hplace : (l.register r).2.codec.registrations = Codec.place r l.codec.registrations := by
    cases hn : l.numbers.get? r.type with
    | some n =>
        obtain ⟨e, he, ht⟩ := h.get?_eq_some.mp hn
        have hat : l.codec.registrations[n]? = some e.toRegistration := by
          rw [codec, List.getElem?_map, he, Option.map_some]
        rw [register_again h hn, Codec.place_eq_set (nodup_codec h) hat ht]
        exact List.map_set
    | none =>
        have hne : ∀ x ∈ l.codec.registrations, x.type ≠ r.type := by
          intro x hx ht
          obtain ⟨e, he, rfl⟩ := List.mem_map.mp hx
          exact h.get?_eq_none.mp hn (List.mem_map.mpr ⟨e, he, ht⟩)
        rw [register_first hn, Codec.place_of_forall_ne hne]
        exact List.map_append
  -- whichever way a type is registered, only the registrations of the codec change
  have hrest : (l.register r).2.codec =
      { l.codec with registrations := (l.register r).2.codec.registrations } := by
    rw [register]
    cases l.numbers.get? r.type <;> rfl
  rw [hrest, hplace]
  rfl

/-- Registering a serializer that was made with some cells. -/
theorem register_withCells (r : Registration) (cells : ArgumentCells) :
    let c := (l.codec.withCells cells).register r
    let p := register { l with cells := cells } r
    c = p.2.codec ∧ (c.number? r.type).getD 0 = p.1 := by
  intro c p
  have h' : Numbered { l with cells := cells } := ⟨h.places, h.numbers⟩
  have hc : c = p.2.codec := (codec_register h' r).symm
  refine ⟨hc, ?_⟩
  rw [hc, number?_codec (numbered_register h' r), get?_register h' r]
  rfl

/-- Registering with the serializer that is asked for. -/
theorem codec_registerType (t : ValueType) (spec : SerializerSpec Value) :
    l.codec.registerSpec t spec = match l.registerType t (.ofSpec spec) with
      | (.error e, _) => .error e
      | (.ok n, l') => .ok (n, l'.codec) := by
  rw [Codec.registerSpec, registerType, Maker.ofSpec]
  cases hs : l.codec.build spec with
  | error e => rfl
  | ok p =>
      obtain ⟨s, c⟩ := p
      obtain ⟨cells, -, rfl⟩ := Codec.build_cells (.nil _) hs
      obtain ⟨hcodec, hnumber⟩ := register_withCells h ⟨t, s, spec.isExposed⟩ cells
      exact congrArg₂ (fun n c => Except.ok (n, c)) hnumber hcodec

/-- Registering a class with the serializer that is planned for it. -/
theorem codec_registerClass (d : ClassDecl) (plan : ClassPlan Value) :
    l.codec.registerClass d plan = ((l.registerClass d (.ofPlan d.id plan)).1,
      (l.registerClass d (.ofPlan d.id plan)).2.codec) := by
  rw [Codec.registerClass, registerClass, show l.codec.catalog = l.catalog from rfl]
  cases l.catalog.register d with
  | error e => rfl
  | ok catalog =>
      have h' : Numbered { l with catalog := catalog } := ⟨h.places, h.numbers⟩
      have hc : { l.codec with catalog := catalog } = codec { l with catalog := catalog } := rfl
      simp only [hc, registerType, Maker.ofPlan]
      cases hs : (codec { l with catalog := catalog }).buildPlan d.id plan with
      | error e => rfl
      | ok p =>
          obtain ⟨s, exposed, c⟩ := p
          obtain ⟨cells, -, rfl⟩ := Codec.buildPlan_cells (.nil _) hs
          obtain ⟨hcodec, hnumber⟩ := register_withCells h' ⟨d.type, s, exposed⟩ cells
          exact congrArg₂ (fun n c => (Except.ok n, c)) hnumber hcodec

end

/-! ### Calls -/

/-- How a call fails, and what it leaves: a serializer cannot be made, or a class is refused, or a
class is added and its serializer cannot be made. -/
inductive Fails (l : Ledger) : Call → CodecError → Ledger → Prop
  | unmade {t : ValueType} {make : Maker} {e : CodecError} (hmake : make l.codec = .error e) :
      Fails l (.registerType t make) e l
  | refused {d : ClassDecl} {make : Maker} {e : CatalogError} (hd : l.catalog.fault? d = some e) :
      Fails l (.registerClass d make) (.config (.catalog e)) l
  | added {d : ClassDecl} {make : Maker} {e : CodecError} (hd : l.catalog.fault? d = none)
      (hmake : make (codec { l with catalog := l.catalog.add d }) = .error e) :
      Fails l (.registerClass d make) e { l with catalog := l.catalog.add d }

section

variable {l l' : Ledger} {x : Call} {n : Nat} {e : CodecError}

theorem registerType_eq_error_iff {t : ValueType} {make : Maker} :
    l.registerType t make = (.error e, l') ↔ make l.codec = .error e ∧ l' = l := by
  rw [registerType]
  rcases make l.codec with e' | ⟨s, exposed, cells⟩
  · simp [eq_comm]
  · simp

theorem call_eq_error_iff : l.call x = (.error e, l') ↔ Fails l x e l' := by
  constructor
  · intro h
    cases x with
    | registerType t make =>
        obtain ⟨hmake, rfl⟩ := registerType_eq_error_iff.mp h
        exact .unmade hmake
    | registerClass d make =>
        simp only [call, registerClass] at h
        cases hd : l.catalog.register d with
        | error fault =>
            rw [hd] at h
            cases h
            exact .refused (Catalog.register_error.mp hd)
        | ok catalog =>
            rw [hd] at h
            obtain ⟨hfault, rfl⟩ := Catalog.register_ok hd
            obtain ⟨hmake, rfl⟩ := registerType_eq_error_iff.mp h
            exact .added hfault hmake
  · rintro (hmake | hd | ⟨hd, hmake⟩)
    · exact registerType_eq_error_iff.mpr ⟨hmake, rfl⟩
    · rw [call, registerClass, Catalog.register_error.mpr hd]
    · rw [call, registerClass, Catalog.register, hd]
      exact registerType_eq_error_iff.mpr ⟨hmake, rfl⟩

/-- An accepted call registers its type, once it has its class and its serializer. -/
theorem register_of_call (h : l.call x = (.ok n, l')) : ∃ (r : Registration) (catalog : Catalog)
    (cells : ArgumentCells), r.type = x.type ∧
      register { l with catalog := catalog, cells := cells } r = (n, l') := by
  have htype : ∀ {l : Ledger} {t make}, l.registerType t make = (.ok n, l') →
      ∃ (r : Registration) (cells : ArgumentCells), r.type = t ∧
        register { l with cells := cells } r = (n, l') := by
    intro l t make h
    rw [registerType] at h
    cases hmake : make l.codec with
    | error e =>
        rw [hmake] at h
        cases h
    | ok p =>
        obtain ⟨s, exposed, cells⟩ := p
        rw [hmake] at h
        cases h
        exact ⟨⟨t, s, exposed⟩, cells, rfl, rfl⟩
  cases x with
  | registerType t make =>
      obtain ⟨r, cells, ht, hr⟩ := htype h
      exact ⟨r, l.catalog, cells, ht, hr⟩
  | registerClass d make =>
      simp only [call, registerClass] at h
      cases hd : l.catalog.register d with
      | error fault =>
          rw [hd] at h
          cases h
      | ok catalog =>
          rw [hd] at h
          obtain ⟨r, cells, ht, hr⟩ := htype h
          exact ⟨r, catalog, cells, ht, hr⟩

/-- What a failed call leaves: at most one more class, and that one was new. -/
theorem Fails.frame (h : Fails l x e l') : l'.entries = l.entries ∧ l'.numbers = l.numbers ∧
    (l' = l ∨ ∃ d make, x = .registerClass d make ∧ l.catalog.get? d.id = none ∧
      ∀ c, l'.catalog.get? c = if d.id = c then some d else l.catalog.get? c) := by
  cases h with
  | unmade => exact ⟨rfl, rfl, .inl rfl⟩
  | refused => exact ⟨rfl, rfl, .inl rfl⟩
  | @added d make _ hd =>
      exact ⟨rfl, rfl, .inr ⟨d, make, rfl, (Codec.of_fault?_eq_none hd).1, Codec.get?_add _ _⟩⟩

/-- An accepted call gives its type the answer as number, and keeps all other registrations. -/
theorem frame_of_call (h : Numbered l) (hx : l.call x = (.ok n, l')) : Numbered l' ∧
    l'.numbers.get? x.type = some n ∧ l.numbers.entries <+: l'.numbers.entries ∧
      ∀ m, m ≠ n → l'.entries[m]? = l.entries[m]? := by
  obtain ⟨r, catalog, cells, ht, hr⟩ := register_of_call hx
  -- neither the catalog nor the cells play a part in the numbering
  have h₁ : Numbered { l with catalog := catalog, cells := cells } := ⟨h.places, h.numbers⟩
  have hnumbered := numbered_register h₁ r
  have hget := get?_register h₁ r
  have hprefix := numbers_register h₁ r
  have hentries := fun m => entries_register h₁ r (m := m)
  rw [hr] at hnumbered hget hprefix hentries
  exact ⟨hnumbered, ht ▸ hget, hprefix, hentries⟩

theorem numbered_call (h : Numbered l) (x : Call) : Numbered (l.call x).2 := by
  rcases hx : l.call x with ⟨e | n, l'⟩
  · obtain ⟨he, hn, -⟩ := (call_eq_error_iff.mp hx).frame
    exact ⟨by rw [he]; exact h.places, by rw [he, hn]; exact h.numbers⟩
  · exact (frame_of_call h hx).1

theorem numbered_new : Numbered new :=
  List.foldlRecOn (motive := Numbered) Codec.builtIns _ ⟨rfl, rfl⟩ fun _ h r _ =>
    numbered_register h r

theorem numbered_run (calls : List Call) : Numbered (run calls) :=
  List.foldlRecOn (motive := Numbered) calls _ numbered_new fun _ h x _ => numbered_call h x

theorem length_call_le (l : Ledger) (x : Call) :
    (l.call x).2.entries.length ≤ l.entries.length + 1 := by
  rcases hx : l.call x with ⟨e | n, l'⟩
  · have he : l'.entries = l.entries := (call_eq_error_iff.mp hx).frame.1
    exact he ▸ Nat.le_succ _
  · obtain ⟨r, catalog, cells, -, hr⟩ := register_of_call hx
    have hle := length_register_le { l with catalog := catalog, cells := cells } r
    rwa [hr] at hle

/-- **There is a registration for each built-in type, and at most one more for each call.** -/
theorem length_run_le (calls : List Call) :
    (run calls).entries.length ≤ Codec.builtIns.length + calls.length := by
  induction calls using List.reverseRecOn with
  | nil => exact Nat.le_refl _
  | append_singleton calls x ih =>
      rw [run, List.foldl_append, ← run, List.length_append]
      exact (length_call_le (run calls) x).trans (Nat.succ_le_succ ih)

/-- By induction on the further calls: none of them gives a type another number. -/
theorem numbers_foldl (h : Numbered l) (more : List Call) :
    l.numbers.entries <+: (more.foldl (fun l x => (l.call x).2) l).numbers.entries := by
  induction more generalizing l with
  | nil => exact List.prefix_rfl
  | cons x more ih =>
      have hstep : l.numbers.entries <+: (l.call x).2.numbers.entries := by
        rcases hx : l.call x with ⟨e | n, l'⟩
        · show _ <+: l'.numbers.entries
          rw [(call_eq_error_iff.mp hx).frame.2.1]
        · exact (frame_of_call h hx).2.2.1
      exact hstep.trans (ih (numbered_call h x))

theorem get?_of_prefix {l l' : Ledger} (h : l.numbers.entries <+: l'.numbers.entries)
    {t : ValueType} {n : Nat} (hn : l.numbers.get? t = some n) : l'.numbers.get? t = some n :=
  (Table.mem_entries_iff _).mp (h.subset ((Table.mem_entries_iff _).mpr hn))

end

end Ledger

/-! ### Tags -/

namespace Codec

variable {c : Codec}

/-- What a tag is read as. -/
theorem readTag_run {st : ReadState} {i : Input} {tag : Nat}
    (h : Read.varU32.onInput st.input = (.ok (tag + 1), i)) :
    c.readTag st = (match c.registrationAt? tag with
      | some r => .ok (some r)
      | none => .error (.error (.decode (.unknownTypeTag st.input.position (tag + 1)))),
        { st with input := i }) := by
  have htake : ReadM.take Read.varU32 st = (.ok (tag + 1), { st with input := i }) := by
    rw [ReadM.take, h]
  rw [readTag, Pass.bind_of_ok (Pass.get_run st), Pass.bind_of_ok htake]
  cases hr : c.registrationAt? tag <;> simp only [hr] <;> rfl

theorem writeTag_run {h : Heap} {v : Value} {t : ValueType} (ht : h.typeOf v = some t) {n : Nat}
    {r : Registration} (hn : c.number? t = some n) (hr : c.registration? t = some r)
    (st : WriteState) : c.writeTag h v st =
      (.ok (some r), { st with output := st.output.writeVarint (n + 1) }) := by
  simp only [writeTag, ht, hn, hr]
  rfl

end Codec

namespace Ledger

/-- A registration has its place as its number, and the map from types to numbers is the inverse of
the list of registrations, on which no type is twice.  The look-ups of the codec are by these
numbers. -/
structure Dense (l : Ledger) : Prop where
  number_eq : ∀ (i : Nat) (e : Entry), l.entries[i]? = some e → e.number = i
  get?_iff : ∀ t n, l.numbers.get? t = some n ↔ ∃ e : Entry, l.entries[n]? = some e ∧ e.type = t
  types_nodup : (l.entries.map fun e => e.type).Nodup
  number?_eq : ∀ t, l.codec.number? t = l.numbers.get? t
  registration?_eq : ∀ t, l.codec.registration? t =
    (l.numbers.get? t).bind fun n => (l.entries[n]?).map Entry.toRegistration

/-- The tag that is written for a value is read as its type, and a tag that is not null is read as
the type with its number or is an error. -/
structure Tagged (l : Ledger) : Prop where
  written : ∀ (h : Heap) v t n, h.typeOf v = some t → l.numbers.get? t = some n →
    ∃ e : Entry, l.entries[n]? = some e ∧ e.type = t ∧
      (∀ st, l.codec.writeTag h v st =
        (.ok (some e.toRegistration), { st with output := st.output.writeVarint (n + 1) })) ∧
      ∀ st rest, n + 1 < 2 ^ 32 → st.input.rest = Varint.encode (n + 1) ++ rest →
        l.codec.readTag st = (.ok (some e.toRegistration), { st with
          input := ⟨st.input.position + (Varint.encode (n + 1)).length, rest⟩ })
  read : ∀ st i tag, Read.varU32.onInput st.input = (.ok (tag + 1), i) →
    (∃ e : Entry, l.entries[tag]? = some e ∧ l.numbers.get? e.type = some tag ∧
      l.codec.readTag st = (.ok (some e.toRegistration), { st with input := i })) ∨
    (∀ t, l.numbers.get? t ≠ some tag) ∧ l.codec.readTag st =
      (.error (.error (.decode (.unknownTypeTag st.input.position (tag + 1)))),
        { st with input := i })

variable {l : Ledger}

theorem Numbered.dense (h : Numbered l) : Dense l where
  number_eq _ _ := h.number_eq
  get?_iff _ _ := h.get?_eq_some
  types_nodup := h.types_nodup
  number?_eq := number?_codec h
  registration?_eq t := by
    rw [registration?_codec h]
    exact congrArg _ (funext (registrationAt?_codec l))

theorem Numbered.tagged (h : Numbered l) : Tagged l where
  written heap v t n ht hn := by
    obtain ⟨e, he, hty⟩ := h.get?_eq_some.mp hn
    have hat : l.codec.registrationAt? n = some e.toRegistration := by
      rw [registrationAt?_codec, he, Option.map_some]
    refine ⟨e, he, hty, ?_, fun st rest hlt hrest => ?_⟩
    · refine Codec.writeTag_run ht (by rw [number?_codec h, hn]) ?_
      rw [registration?_codec h, hn, Option.bind_some, hat]
    · have hread := Read.reads_varU32 hlt st.input.position rest
      rw [← hrest] at hread
      rw [Codec.readTag_run hread, hat]
  read st i tag hi := by
    rw [Codec.readTag_run hi, registrationAt?_codec]
    cases he : l.entries[tag]? with
    | some e => exact .inl ⟨e, rfl, h.get?_eq_some.mpr ⟨e, he, rfl⟩, rfl⟩
    | none =>
        refine .inr ⟨fun t ht => ?_, rfl⟩
        obtain ⟨e, he', -⟩ := h.get?_eq_some.mp ht
        rw [he] at he'
        cases he'

end Ledger

open Ledger in
/-- **Numbers are dense, belong to one type each, and stay.**  This holds after any calls on a new
ledger, accepted or failed; of the numbers there are no more than there are built-in types and
calls.  An accepted call answers with the number of its type and keeps all other registrations; a
type that is registered again keeps its place.  A failed call keeps all registrations, and the
catalog too, unless a class was added for which no serializer could be made.  No further calls
change a number.  Registering in a codec is registering in its ledger. -/
theorem numbers_dense_and_stable (calls : List Call) :
    let l := run calls
    l.Dense ∧ l.Tagged ∧
    (∀ t n, l.numbers.get? t = some n → n < l.entries.length) ∧
    l.entries.length ≤ Codec.builtIns.length + calls.length ∧
    (∀ x n l', l.call x = (.ok n, l') → l'.numbers.get? x.type = some n ∧
      l.numbers.entries <+: l'.numbers.entries ∧ ∀ m, m ≠ n → l'.entries[m]? = l.entries[m]?) ∧
    (∀ r n, l.numbers.get? r.type = some n →
      l.register r = (n, { l with entries := l.entries.set n ⟨r, n⟩ })) ∧
    (∀ x e l', l.call x = (.error e, l') ↔ Fails l x e l') ∧
    (∀ x e l', Fails l x e l' → l'.entries = l.entries ∧ l'.numbers = l.numbers ∧
      (l' = l ∨ ∃ d make, x = .registerClass d make ∧ l.catalog.get? d.id = none ∧
        ∀ c, l'.catalog.get? c = if d.id = c then some d else l.catalog.get? c)) ∧
    (∀ more t n, l.numbers.get? t = some n → (run (calls ++ more)).numbers.get? t = some n) ∧
    (∀ t spec, l.codec.registerSpec t spec = match l.call (.registerType t (.ofSpec spec)) with
      | (.error e, _) => .error e
      | (.ok n, l') => .ok (n, l'.codec)) ∧
    (∀ d plan, l.codec.registerClass d plan =
      ((l.call (.registerClass d (.ofPlan d.id plan))).1,
        (l.call (.registerClass d (.ofPlan d.id plan))).2.codec)) ∧
    new.codec = Codec.new := by
  intro l
  have h : Numbered l := numbered_run calls
  refine ⟨h.dense, h.tagged, fun _ _ => h.lt_of_get?, length_run_le calls,
    fun _ _ _ hx => (frame_of_call h hx).2, fun _ _ => register_again h,
    fun _ _ _ => call_eq_error_iff, fun _ _ _ => Fails.frame, fun more t n hn => ?_,
    codec_registerType h, codec_registerClass h, codec_new⟩
  rw [run, List.foldl_append]
  exact get?_of_prefix (numbers_foldl h more) hn

end GraphCodec
