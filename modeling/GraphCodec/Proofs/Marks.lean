import Mathlib.Data.List.Nodup
import Mathlib.Data.List.Perm.Subperm
import Mathlib.Order.Nat
import GraphCodec.Proofs.Tables

/-!
# Serializers — which fields a table is for

A new field table is for the fields that the context offers, apart from transient ones that are
neither written nor copied.  Settings change neither the fields that a table is for nor on which
lists they are (`marks`), and what is taken out of a table are the entries for some places
(`without`).

* `sameEntries_iff`: contexts have the same entries exactly if all look-ups agree.
* `mem_marks_build`: which fields a new table is for, and on which lists they are.
* `Located.remove_eq`, `Located.filter_eq`: what is taken out of a located table.
-/

namespace GraphCodec

/-! ### Contexts -/

namespace Table

variable {κ α : Type} [DecidableEq κ]

theorem mem_entries_iff (t : Table κ α) {k : κ} {v : α} :
    (k, v) ∈ t.entries ↔ t.get? k = some v := by
  obtain ⟨l, hl⟩ := t
  simp only [get?]
  induction l with
  | nil => simp [find]
  | cons e l ih =>
      obtain ⟨k', v'⟩ := e
      obtain ⟨hk', hl⟩ := List.nodup_cons.mp hl
      by_cases h : k' = k
      · subst h
        have hout : (k', v) ∉ l := fun hmem => hk' (List.mem_map.mpr ⟨_, hmem, rfl⟩)
        simp [find, hout, eq_comm]
      · simp [find, h, Ne.symm h, ih hl]

/-- Two tables have the same entries exactly if no look-up tells them apart. -/
theorem sameEntries_iff [DecidableEq α] {t u : Table κ α} :
    t.sameEntries u = true ↔ ∀ k, t.get? k = u.get? k := by
  have ht : t.entries.Nodup := t.nodup.of_map
  have hu : u.entries.Nodup := u.nodup.of_map
  have hperm : t.entries.Perm u.entries ↔ ∀ k, t.get? k = u.get? k := by
    rw [List.perm_ext_iff_of_nodup ht hu]
    simp only [Prod.forall, mem_entries_iff]
    exact forall_congr' fun k => Option.ext_iff.symm
  rw [← hperm]
  simp only [sameEntries, size, Bool.and_eq_true, beq_iff_eq, List.all_eq_true, decide_eq_true_eq,
    Prod.forall, ← mem_entries_iff]
  constructor
  · -- as many entries, all of them in the other table
    rintro ⟨hsize, hsub⟩
    exact (ht.subperm fun e he => hsub e.1 e.2 he).perm_of_length_le hsize.ge
  · exact fun h => ⟨h.length_eq, fun k v he => h.subset he⟩

end Table

/-! ### New tables and what is taken out of them -/

/-- The context has the key that the field asks for, if it asks for one. -/
def FieldDecl.Offered (f : FieldDecl) (context : Table String String) : Prop :=
  ∀ key, f.attributes.optionalKey? = some key → context.contains key = true

/-- The field is marked as transient. -/
def FieldDecl.Transient (f : FieldDecl) : Prop := f.attributes.contains "transient" = true

instance (f : FieldDecl) : Decidable f.Transient :=
  inferInstanceAs (Decidable (f.attributes.contains "transient" = true))

namespace FieldSettings

variable {σ : Type}

@[simp] theorem serialized_apply (s : FieldSettings σ) (e : FieldEntryOf σ) :
    (s.apply e).serialized = e.serialized := by
  obtain ⟨a, b, c, d, _, _, _⟩ := s
  cases a <;> cases b <;> cases c <;> cases d <;> rfl

@[simp] theorem copied_apply (s : FieldSettings σ) (e : FieldEntryOf σ) :
    (s.apply e).copied = e.copied := by
  obtain ⟨a, b, c, d, _, _, _⟩ := s
  cases a <;> cases b <;> cases c <;> cases d <;> rfl

end FieldSettings

namespace FieldTable

/-- The places of the fields in a table, each with whether the field is written and copied. -/
def marks (t : FieldTable) : List (Nat × Bool × Bool) :=
  t.map fun e => (e.slot.index, e.serialized, e.copied)

/-- The table without the entries for some places. -/
def without (t : FieldTable) (places : List Nat) : FieldTable :=
  t.filter fun e => e.slot.index ∉ places

@[simp] theorem without_nil (t : FieldTable) : without t [] = t := by simp [without]

theorem exists_serialized_iff {t : FieldTable} {i : Nat} :
    (∃ e ∈ serialized t, e.slot.index = i) ↔ ∃ b, (i, true, b) ∈ marks t := by
  simp only [serialized, marks, List.mem_filter, List.mem_map, Prod.mk.injEq]
  constructor
  · rintro ⟨e, ⟨he, hs⟩, hi⟩
    exact ⟨_, e, he, hi, hs, rfl⟩
  · rintro ⟨_, e, he, hi, hs, -⟩
    exact ⟨e, ⟨he, hs⟩, hi⟩

theorem exists_copied_iff {t : FieldTable} {i : Nat} :
    (∃ e ∈ copied t, e.slot.index = i) ↔ ∃ b, (i, b, true) ∈ marks t := by
  simp only [copied, marks, List.mem_filter, List.mem_map, Prod.mk.injEq]
  constructor
  · rintro ⟨e, ⟨he, hs⟩, hi⟩
    exact ⟨_, e, he, hi, rfl, hs⟩
  · rintro ⟨_, e, he, hi, -, hs⟩
    exact ⟨e, ⟨he, hs⟩, hi⟩

theorem marks_without (t : FieldTable) (places : List Nat) :
    marks (without t places) = (marks t).filter fun m => m.1 ∉ places := by
  simp [marks, without, List.filter_map, Function.comp_def]

theorem mem_marks_without {t : FieldTable} {places : List Nat} {m : Nat × Bool × Bool} :
    m ∈ marks (without t places) ↔ m ∈ marks t ∧ m.1 ∉ places := by
  simp [marks_without]

/-- Taking more out adds to what was taken out before. -/
theorem marks_without_of_eq {t u : FieldTable} {gone : List Nat}
    (h : marks t = marks (without u gone)) (more : List Nat) :
    marks (without t more) = marks (without u (more ++ gone)) := by
  rw [marks_without, h, marks_without, marks_without, List.filter_filter]
  exact List.filter_congr fun m _ => by simp

theorem marks_modify (name : String) (s : FieldSettings Serializer) (t : FieldTable) :
    marks (modify name s.apply t) = marks t :=
  map_modify name (fun e => by simp) t

/-- Which fields a new table is for, and on which lists they are. -/
theorem mem_marks_build {d : ClassDecl} {options : FieldOptions} {context : Table String String}
    {i : Nat} {f : FieldDecl} (hf : d.fields[i]? = some f) {s c : Bool} :
    (i, s, c) ∈ marks (build d options context) ↔ f.Offered context ∧
      (s = true ↔ f.Transient → options.serializeTransient = true) ∧
      (c = true ↔ f.Transient → options.copyTransient = true) ∧ (s = true ∨ c = true) := by
  have hmem : (i, s, c) ∈ marks (build d options context) ↔
      ∃ e, entry? d options context i f = some e ∧ e.serialized = s ∧ e.copied = c := by
    simp only [marks, List.mem_map, mem_build, Prod.mk.injEq]
    constructor
    · rintro ⟨e, ⟨j, g, hg, he⟩, rfl, rfl, rfl⟩
      obtain ⟨hslot, -, -⟩ := entry?_eq_some he
      rw [hslot] at hf
      cases hf.symm.trans hg
      rw [hslot]
      exact ⟨e, he, rfl, rfl⟩
    · rintro ⟨e, he, hs, hc⟩
      exact ⟨e, ⟨i, f, hf, he⟩, by rw [(entry?_eq_some he).1], hs, hc⟩
  have hoffered : f.Offered context ↔
      f.attributes.optionalKey?.any (fun key => !context.contains key) = false := by
    rw [FieldDecl.Offered]
    cases f.attributes.optionalKey? <;> simp
  rw [hmem, hoffered, FieldDecl.Transient, entry?]
  cases f.attributes.optionalKey?.any fun key => !context.contains key with
  | true => simp
  | false =>
      cases f.attributes.contains "transient" <;> cases options.serializeTransient <;>
        cases options.copyTransient <;> cases s <;> cases c <;> simp

theorem build_congr {context context' : Table String String}
    (h : ∀ key, context.get? key = context'.get? key) (d : ClassDecl) (options : FieldOptions) :
    build d options context = build d options context' := by
  simp only [build, entry?, Table.contains, h]

/-! Places tell the entries of a located table apart. -/

theorem Located.eq_of_index {d : ClassDecl} {t : FieldTable} (h : Located d t) {e e' : FieldEntry}
    (he : e ∈ t) (he' : e' ∈ t) (hi : e.slot.index = e'.slot.index) : e = e' := by
  have hnd : (t.map fun e => e.slot.index).Nodup :=
    (List.pairwise_map.mpr h.increasing).imp fun hlt => hlt.ne
  exact List.inj_on_of_nodup_map hnd he he' hi

theorem Located.filter_eq {d : ClassDecl} {t : FieldTable} (h : Located d t)
    (condition : FieldEntry → Bool) : t.filter (fun e => !condition e) =
      without t ((t.filter condition).map fun e => e.slot.index) := by
  refine List.filter_congr fun e he => ?_
  rw [Bool.eq_iff_iff]
  simp only [Bool.not_eq_true', List.mem_map, List.mem_filter, decide_eq_true_eq, not_exists,
    not_and, and_imp]
  constructor
  · intro hno e' he' hyes hi
    rw [h.eq_of_index he' he hi, hno] at hyes
    cases hyes
  · intro hall
    exact Bool.eq_false_iff.mpr fun hyes => hall e he hyes rfl

theorem Located.remove_eq {d : ClassDecl} {t : FieldTable} (h : Located d t) {name : String}
    {e : FieldEntry} (he : get? t name = some e) :
    remove t name = without t [e.slot.index] := by
  have hinc := h.increasing
  simp only [get?, remove, without] at *
  clear h
  induction t with
  | nil => cases he
  | cons e' t ih =>
      obtain ⟨hlt, hinc⟩ := List.pairwise_cons.mp hinc
      by_cases hname : e'.name = name
      · -- no entry further on is for this place
        obtain rfl : e' = e := by simpa [hname] using he
        have hrest : t.filter (fun e => !decide (e.slot.index = e'.slot.index)) = t :=
          List.filter_eq_self.mpr fun e he => by simpa using (hlt e he).ne'
        simp [hname, hrest]
      · have he : t.find? (fun e => e.name = name) = some e := by simpa [hname] using he
        have hne : e'.slot.index ≠ e.slot.index := (hlt e (List.mem_of_find?_eq_some he)).ne
        simpa [List.eraseP_cons, hname, hne] using ih he hinc

end FieldTable

end GraphCodec
