import GraphCodec.Codec.Copy
import GraphCodec.Proofs.Descents
import GraphCodec.Proofs.Images
import GraphCodec.Proofs.Passes

/-!
# Copying — one walk over a graph

While a graph is copied, the objects met so far, `visits`, have their copies behind the objects
that the heap had at the start, in the order in which they were met; the table of copies says the
same (`CopyState.Synced`).  Copying a value leads to such a state again, with complete copies of
what was met in between, or it fails, and then some object below the value has no class that the
codec makes, to which the wrappers of the error lead.

An object is opened only if it has no copy, and gets its copy before its fields are gone through,
so that one level more than there are objects without a copy is deep enough (`meets_copyObject`).
-/

namespace GraphCodec

/-- The copies of `visits` stand behind the objects of `h`, which are as they were. -/
structure CopyState.Synced (h : Heap) (S : ObjectId → Prop) (visits : List ObjectId)
    (st : CopyState) : Prop where
  size : st.heap.size = h.size + visits.length
  old : ∀ p < h.size, st.heap.get p = h.get p
  copies : ∀ o, st.copies.get? o =
    if o ∈ visits then some (h.size + visits.idxOf o) else none
  nodup : visits.Nodup
  within : ∀ o ∈ visits, S o

/-- One more object is met, and gets the next copy. -/
theorem CopyState.Synced.meet {h : Heap} {S : ObjectId → Prop} {visits : List ObjectId}
    {st : CopyState} (hst : st.Synced h S visits) {o : ObjectId} (ho : S o) (hnew : o ∉ visits)
    (x : Object) :
    CopyState.Synced h S (visits ++ [o])
      ⟨(st.heap.alloc x).2, st.copies.insertNew o (h.size + visits.length)⟩ := by
  refine ⟨?_, ?_, ?_, ?_, ?_⟩
  · rw [Heap.size_alloc, hst.size, List.length_append]
    rfl
  · intro p hp
    rw [Heap.get_alloc_of_lt _ (show p < st.heap.size by rw [hst.size]; omega), hst.old p hp]
  · -- the table: the new object, one that was met before, and one that was not
    intro p
    rw [Table.get?_insertNew, hst.copies, hst.copies, if_neg hnew]
    by_cases hp : o = p
    · subst hp
      simp [List.idxOf_append_of_notMem hnew]
    · by_cases hm : p ∈ visits
      · simp [hp, hm, List.idxOf_append_of_mem hm]
      · simp [hp, hm, Ne.symm hp]
  · exact List.concat_eq_append ▸ hst.nodup.concat hnew
  · exact List.forall_mem_append.mpr ⟨hst.within, List.forall_mem_singleton.mpr ho⟩

/-- The new objects are the copies of `visits`, in that order. -/
theorem CopyState.Synced.bijOn {h : Heap} {S : ObjectId → Prop} {visits : List ObjectId}
    {st : CopyState} (hst : st.Synced h S visits) :
    Set.BijOn (fun o => h.size + visits.idxOf o) {o | o ∈ visits}
      {p | h.size ≤ p ∧ p < st.heap.size} := by
  refine ⟨fun o ho => ?_, fun o ho p _ he => ?_, fun p hp => ?_⟩
  · have hlt := List.idxOf_lt_length_of_mem ho
    show h.size ≤ h.size + visits.idxOf o ∧ h.size + visits.idxOf o < st.heap.size
    rw [hst.size]
    omega
  · exact (List.idxOf_inj ho).mp (Nat.add_left_cancel he)
  · -- a new object is the copy of the object at its place among `visits`
    obtain ⟨hle, hlt⟩ : h.size ≤ p ∧ p < st.heap.size := hp
    rw [hst.size] at hlt
    have hlt := Nat.sub_lt_left_of_lt_add hle hlt
    refine ⟨visits[p - h.size], List.getElem_mem hlt, ?_⟩
    show h.size + visits.idxOf visits[p - h.size] = p
    rw [hst.nodup.idxOf_getElem, Nat.add_sub_cancel' hle]

namespace CopyM

theorem getSlot_run {s : Slot} {o : ObjectId} {st : CopyState} {v : Value}
    (hv : s.get st.heap o = .ok v) : getSlot s o st = (.ok v, st) := by
  show Pass.ofExcept ((s.get st.heap o).mapError CodecError.ofAccess) st = _
  rw [hv]
  rfl

theorem setSlot_run {s : Slot} {o : ObjectId} {st : CopyState} {v old : Value} {g : Heap}
    (hv : s.set st.heap o v = .ok (old, g)) :
    setSlot s o v st = (.ok ⟨⟩, { st with heap := g }) := by
  show (Pass.ofExcept ((s.set st.heap o v).mapError CodecError.ofAccess) >>= fun x =>
    modify fun st => { st with heap := x.2 } : CopyM Unit) st = _
  rw [hv]
  rfl

/-- The first registration of a copy stands. -/
theorem reference_run {source copy p : ObjectId} {st : CopyState}
    (h : st.copies.get? source = some p) : reference source copy st = (.ok ⟨⟩, st) := by
  have hin : st.copies.insertNew source copy = st.copies := by
    simp [Table.insertNew, Table.contains, h]
  simp only [reference]
  rw [Pass.modify_run, hin]

end CopyM

namespace Codec

open Pass

variable {c : Codec} {rs : List RecordSerializer} {h : Heap} {S : ObjectId → Prop}
  {visits : List ObjectId} {st : CopyState} {nested : Serializer → Value → CopyM Value}

/-- How copying `v` ends well, from a state with the heap `g`. -/
def CopyDone (c : Codec) (h : Heap) (S : ObjectId → Prop) (visits : List ObjectId) (g : Heap)
    (v w : Value) (st : CopyState) : Prop :=
  ∃ visits', st.Synced h S visits' ∧
    c.Grown FieldEntryOf.copied h h.size visits g visits' st.heap ∧ v.Image h.size visits' w

/-- How copying fails: because of an object that the codec does not make, and with the objects of
`h` as they were. -/
def CopyFails (c : Codec) (h : Heap) (S : ObjectId → Prop) (e : Failure) (st : CopyState) : Prop :=
  e ≠ .tooDeep ∧ (∃ o, S o ∧ ¬ c.Makes (h.get o).owner) ∧ ∀ p < h.size, st.heap.get p = h.get p

theorem CopyFails.of_synced (hst : st.Synced h S visits) {o : ObjectId} (ho : S o)
    (hm : ¬ c.Makes (h.get o).owner) (e : CodecError) : c.CopyFails h S (.error e) st :=
  ⟨by simp, ⟨o, ho, hm⟩, hst.old⟩

theorem CopyFails.inField {e : Failure} (he : c.CopyFails h S e st) (owner : ClassId)
    (field : String) : c.CopyFails h S (e.inField owner field) st := by
  refine ⟨fun h => he.1 ?_, he.2⟩
  cases e with
  | tooDeep => rfl
  | error e => cases h

/-- Why an object is not made, and with which error. -/
inductive Unmade (c : Codec) (h : Heap) : Value → CodecError → Prop
  | unregistered {o : ObjectId} (ho : c.registration? (h.get o).type = none) :
      Unmade c h (.object o) (.config (.unregisteredType (h.get o).type))
  | construction {o : ObjectId} {r : RecordSerializer}
      (hr : c.record (.object (h.get o).owner) = .ok r) (hd : r.decl.constructible = false) :
      Unmade c h (.object o)
        (.construction (h.get o).owner "class has no zero-argument construction")

/-- The wrappers of the error lead from the value to an object that is not made. -/
def FindsUnmade (c : Codec) (h : Heap) (v : Value) (x : CodecError) : Prop :=
  c.Pinpoints h FieldEntryOf.copied (fun _ _ _ _ => True) (fun _ _ => c.Unmade h) () v x

/-- How copying `v` fails, and what its error says. -/
def CopyFailsAt (c : Codec) (h : Heap) (S : ObjectId → Prop) (v : Value) (e : Failure)
    (st : CopyState) : Prop :=
  c.CopyFails h S e st ∧ ∀ x, e = .error x → c.FindsUnmade h v x

/-- A failure in a field of an object. -/
theorem CopyFailsAt.into {o : ObjectId} {r : RecordSerializer} {e : FieldEntry} {w : Value}
    {x : Failure} (hr : c.record (.object (h.get o).owner) = .ok r) (he : e ∈ r.entries)
    (hp : e.copied = true) (hw : (h.get o).slots[e.slot.index]? = some w)
    (hx : c.CopyFailsAt h S w x st) :
    c.CopyFailsAt h S (.object o) (x.inField (h.get o).owner e.name) st := by
  refine ⟨hx.1.inField _ _, fun y hy => ?_⟩
  cases x with
  | tooDeep => cases hy
  | error x =>
      cases hy
      exact Pinpoints.into hr he hp hw trivial (hx.2 x rfl)

section

variable (hc : c.Lists rs)
include hc

/-- A class without a serializer is not made. -/
theorem not_makes_of_error {owner : ClassId} {e : ConfigError}
    (he : c.serializer (.object owner) = .error e) : ¬ c.Makes owner := by
  rintro ⟨r, hr, -⟩
  obtain ⟨hmem, rfl⟩ := hc.mem_of_record hr
  simp only [serializer] at he
  rw [← ClassDecl.type, hc.registration?_record hmem] at he
  cases he

/-- An object that has a copy is not copied again; another one is handed to its serializer. -/
theorem meets_copyValue (hst : st.Synced h S visits) (hin : ∀ o, S o → o < h.size) {v : Value}
    (hv : v.Within S)
    (hn : ∀ o, v = .object o → o ∉ visits → ∀ s, c.serializer (.object (h.get o).owner) = .ok s →
      Meets (nested s v) st (c.CopyDone h S visits st.heap v) (c.CopyFailsAt h S v)) :
    Meets (c.copyValue nested v) st (c.CopyDone h S visits st.heap v) (c.CopyFailsAt h S v) := by
  cases v with
  | object o =>
      have ho := hv o rfl
      have hcopy := hst.copies o
      simp only [copyValue]
      refine meets_bind_of_ok (get_run st) ?_
      by_cases hm : o ∈ visits
      · rw [if_pos hm] at hcopy
        rw [hcopy]
        exact ⟨visits, hst, .refl _ _, Value.image_object hm⟩
      · rw [if_neg hm] at hcopy
        rw [hcopy]
        -- its class is looked up in the heap as it is now
        simp only [hst.old o (hin o ho)]
        cases hs : c.serializer (h.get o).type with
        | error e =>
            refine ⟨.of_synced hst ho (not_makes_of_error hc hs) _, ?_⟩
            rintro _ ⟨⟩
            obtain ⟨hnone, rfl⟩ := of_serializer_error hs
            exact .here rfl (.unregistered hnone)
        | ok s => exact hn o rfl hm s hs
  | _ => exact ⟨visits, hst, .refl _ _, Value.image_self (by simp)⟩

/-- One field of an object whose copy is being filled in. -/
theorem meets_copyField {g : Heap} {o : ObjectId} {r : RecordSerializer} {done : FieldTable}
    {visits' : List ObjectId} (hr : r ∈ rs) (hid : (h.get o).owner = r.decl.id)
    (hlen : (h.get o).slots.length = r.decl.fields.length) (ho : o < h.size)
    (hclosed : ∀ i, c.copiedSlots (h.get o).owner i → ∀ v,
      (h.get o).slots[i]? = some v → v.Within S)
    (hst : st.Synced h S visits')
    (hf : c.Filling FieldEntryOf.copied h h.size visits g o r.decl done visits' st.heap)
    {e : FieldEntry} (he : e ∈ r.entries) (hp : e.copied = true)
    (hnew : ∀ e' ∈ done, e'.slot.index ≠ e.slot.index)
    (hn : ∀ v, v.Within S → Meets (c.copyValue nested v) st
      (c.CopyDone h S visits' st.heap v) (c.CopyFailsAt h S v)) :
    Meets (c.copyField nested e o (h.size + visits.length)) st
      (fun _ st' => ∃ visits'', st'.Synced h S visits'' ∧
        c.Filling FieldEntryOf.copied h h.size visits g o r.decl (done ++ [e]) visits'' st'.heap)
      (fun x st' => ∃ v, (h.get o).slots[e.slot.index]? = some v ∧
        c.CopyFailsAt h S v x st') := by
  have hfollows := (hc.plain r hr).follows
  have hlt := hfollows.index_lt he
  obtain ⟨v, hget, hsel⟩ := hc.get_of_entry hr he hp hid hlen
  have hv := Slot.getElem?_of_get hget
  -- the object is one of the old ones, so that it holds now what it held at the start
  rw [← Slot.get_congr (hst.old o ho)] at hget
  simp only [copyField]
  refine meets_bind_of_ok (CopyM.getSlot_run hget) ?_
  rw [hfollows.bare e he]
  refine meets_bind (meets_mono_error (hn v (hclosed _ hsel v hv)) fun _ _ hx => ⟨v, hv, hx⟩) ?_
  rintro w st₁ ⟨visits'', hst₁, hgrown, himg⟩
  have hf₁ := hf.nested hgrown
  have hsize : h.size + visits.length < st₁.heap.size := by
    rw [hst₁.size]
    exact Nat.add_lt_add_left hf₁.length_lt _
  obtain ⟨old, hset⟩ := hf₁.filled.set_run hfollows he w
  refine meets_of_ok (CopyM.setSlot_run hset)
    ⟨visits'', ?_, hf₁.store hsize hst₁.nodup hlt hnew hv himg⟩
  exact { hst₁ with
    size := (Heap.size_store _ _ _ _).trans hst₁.size
    old := by
      intro p hp'
      rw [Heap.get_store_of_ne _ _ (show p ≠ h.size + visits.length by omega), hst₁.old p hp'] }

/-- The fields of an object whose copy is being filled in, from a place of the table on. -/
theorem meets_copyFields {g : Heap} {o : ObjectId} {r : RecordSerializer} (hr : r ∈ rs)
    (hid : (h.get o).owner = r.decl.id) (hlen : (h.get o).slots.length = r.decl.fields.length)
    (ho : o < h.size) (hclosed : ∀ i, c.copiedSlots (h.get o).owner i → ∀ v,
      (h.get o).slots[i]? = some v → v.Within S)
    (hn : ∀ visits' st, visits ++ [o] <+: visits' → st.Synced h S visits' → ∀ v, v.Within S →
      Meets (c.copyValue nested v) st (c.CopyDone h S visits' st.heap v) (c.CopyFailsAt h S v))
    {t before : FieldTable} {visits' : List ObjectId} {st : CopyState}
    (ht : before ++ t = r.entries) (hst : st.Synced h S visits')
    (hf : c.Filling FieldEntryOf.copied h h.size visits g o r.decl
      (before.filter FieldEntryOf.copied) visits' st.heap) :
    Meets (c.copyFields nested r.decl.id o (h.size + visits.length) t) st
      (fun _ st' => ∃ visits'', st'.Synced h S visits'' ∧
        c.Filling FieldEntryOf.copied h h.size visits g o r.decl
          (r.entries.filter FieldEntryOf.copied) visits'' st'.heap)
      (c.CopyFailsAt h S (.object o)) := by
  induction t generalizing before visits' st with
  | nil =>
      rw [List.append_nil] at ht
      exact ⟨visits', hst, ht ▸ hf⟩
  | cons e t ih =>
      obtain ⟨he, hrest, hnew⟩ := (hc.plain r hr).follows.split ht FieldEntryOf.copied
      simp only [copyFields]
      by_cases hp : e.copied = true
      · have hfilter : (before ++ [e]).filter FieldEntryOf.copied =
            before.filter FieldEntryOf.copied ++ [e] := by simp [hp]
        have hfield := meets_copyField hc hr hid hlen ho hclosed hst hf he hp hnew
          (hn visits' st hf.grows hst)
        rw [if_pos hp]
        refine meets_bind (meets_inField hfield ?_) ?_
        · rintro x st' ⟨v, hv, hx⟩
          exact hid ▸ hx.into (hid ▸ hc.record_eq hr) he hp hv
        rintro _ st₁ ⟨visits₁, hst₁, hf₁⟩
        exact ih hrest hst₁ (hfilter ▸ hf₁)
      · have hfilter : (before ++ [e]).filter FieldEntryOf.copied =
            before.filter FieldEntryOf.copied := by simp [hp]
        rw [if_neg hp]
        exact ih hrest hst (hfilter ▸ hf)

theorem copyInstance_run {o : ObjectId} {r : RecordSerializer} (hr : r ∈ rs)
    (hid : (st.heap.get o).decl.id = r.decl.id) :
    c.copyInstance r o st =
      if r.decl.constructible then
        (.ok st.heap.size, { st with heap := (st.heap.alloc (.fresh r.decl)).2 })
      else
        (.error (.error (.construction r.decl.id "class has no zero-argument construction")),
          st) := by
  simp only [copyInstance]
  rw [(hc.plain r hr).hooks]
  show (Pass.ofExcept (c.newInstance (st.heap.get o).decl.id) >>= fun x => do
    let o ← CopyM.alloc x
    pure o : CopyM ObjectId) st = _
  rw [hid, hc.newInstance_eq hr]
  split <;> rfl

/-- A new copy of an object that has none is registered before its fields are gone through. -/
theorem meets_copyRecord {o : ObjectId} {r : RecordSerializer} (hr : r ∈ rs)
    (hid : (h.get o).owner = r.decl.id) (hlen : (h.get o).slots.length = r.decl.fields.length)
    (hS : S o) (ho : o < h.size) (hclosed : ∀ i, c.copiedSlots (h.get o).owner i → ∀ v,
      (h.get o).slots[i]? = some v → v.Within S)
    (hst : st.Synced h S visits) (hnew : o ∉ visits)
    (hn : ∀ visits' st, visits ++ [o] <+: visits' → st.Synced h S visits' → ∀ v, v.Within S →
      Meets (c.copyValue nested v) st (c.CopyDone h S visits' st.heap v) (c.CopyFailsAt h S v)) :
    Meets (c.copyRecord nested r (.object o)) st (c.CopyDone h S visits st.heap (.object o))
      (c.CopyFailsAt h S (.object o)) := by
  have hrec : c.record (.object (h.get o).owner) = .ok r := hid ▸ hc.record_eq hr
  have hinst : st.heap.instanceOf r.decl.id (.object o) = .ok o :=
    Heap.instanceOf_eq_ok.mpr ⟨rfl, by rw [hst.old o ho, hid]⟩
  simp only [copyRecord]
  refine meets_bind_of_ok (get_run st) ?_
  rw [hinst]
  refine meets_bind_of_ok (pure_run o st) ?_
  have hid' : (st.heap.get o).decl.id = r.decl.id := by
    rw [hst.old o ho]
    exact hid
  have hinstance := copyInstance_run hc hr hid'
  by_cases hmade : r.decl.constructible = true
  · rw [if_pos hmade, hst.size] at hinstance
    refine meets_bind_of_ok hinstance (meets_bind_of_ok (modify_run _ _) ?_)
    -- the copy is registered, and its fields are gone through
    refine meets_bind (meets_copyFields hc hr hid hlen ho hclosed hn (List.nil_append _)
      (hst.meet hS hnew _) (.start hst.size o r.decl)) ?_
    rintro _ st₁ ⟨visits', hst', hf⟩
    refine ⟨visits', hst', hf.finish hrec hmade hst'.nodup, ?_⟩
    rw [← idxOf_last hf.grows hst'.nodup]
    exact Value.image_object (hf.grows.subset (by simp))
  · -- `o` itself is the object that is not made
    rw [if_neg hmade] at hinstance
    refine meets_bind_of_error hinstance ⟨CopyFails.of_synced hst hS ?_ _, ?_⟩
    · rintro ⟨r', hr', hd⟩
      obtain rfl := Except.ok.inj (hrec.symm.trans hr')
      exact hmade hd
    · rintro _ ⟨⟩
      exact .here rfl (hid ▸ .construction hrec (by simpa using hmade))

/-! ### The walk -/

variable (hin : ∀ o, S o → o < h.size) (hclosed : h.Closed c.copiedSlots S)
  (hsize : ∀ o, S o → ∀ r, c.record (.object (h.get o).owner) = .ok r →
    (h.get o).slots.length = r.decl.fields.length)
include hin hclosed hsize

/-- The walk itself, by induction on the depth: each level has one more object with a copy. -/
theorem meets_copyObject {n : Nat} {visits : List ObjectId} {st : CopyState} {o : ObjectId}
    {s : Serializer} (hn : (h.unmarked visits).card + 1 ≤ n) (hst : st.Synced h S visits) (ho : S o)
    (hnew : o ∉ visits) (hs : c.serializer (.object (h.get o).owner) = .ok s) :
    Meets (c.copyObject n s (.object o)) st (c.CopyDone h S visits st.heap (.object o))
      (c.CopyFailsAt h S (.object o)) := by
  induction n generalizing visits st o s with
  | zero => omega
  | succ n ih =>
      obtain ⟨r, hr, hid, rfl⟩ := hc.record_of_serializer hs
      have hlen := hsize o ho r (hid ▸ hc.record_eq hr)
      -- what is copied from here on finds `o` with a copy
      have hnested : ∀ visits' st, visits ++ [o] <+: visits' → st.Synced h S visits' → ∀ v,
          v.Within S → Meets (c.copyValue (c.copyObject n) v) st
            (c.CopyDone h S visits' st.heap v) (c.CopyFailsAt h S v) := by
        intro visits' st' hpre hst' v hv
        refine meets_copyValue hc hst' hin hv ?_
        rintro p rfl hp s hs
        have hlt : (h.unmarked visits').card < (h.unmarked visits).card :=
          Heap.card_unmarked_lt ((List.prefix_append _ _).trans hpre).subset (hin o ho) hnew
            (hpre.subset (by simp))
        exact ih (by omega) hst' (hv p rfl) hp hs
      simp only [copyObject]
      refine meets_bind (meets_copyRecord hc hr hid.symm hlen ho (hin o ho) (hclosed o ho) hst hnew
        hnested) ?_
      rintro _ st₁ ⟨visits', hst₁, hg, hw⟩
      -- the serializer has registered the copy, so that to register its result changes nothing
      obtain rfl := hw.eq
      have hcopy := hst₁.copies o
      rw [if_pos (hw.within o rfl)] at hcopy
      exact meets_bind_of_ok (CopyM.reference_run hcopy) ⟨visits', hst₁, hg, hw⟩

/-- Copying a value, from a heap in which nothing has a copy. -/
theorem meets_copy_at {v : Value} (hv : v.Within S) :
    Meets (c.copyValue (c.copyObject (copyDepth h)) v) ⟨h, .empty⟩ (c.CopyDone h S [] h v)
      (c.CopyFailsAt h S v) := by
  have hst : CopyState.Synced h S [] ⟨h, .empty⟩ :=
    ⟨rfl, fun _ _ => rfl, fun _ => rfl, List.nodup_nil, List.forall_mem_nil _⟩
  refine meets_copyValue hc hst hin hv ?_
  rintro o rfl ho s hs
  refine meets_copyObject hc hin hclosed hsize ?_ hst (hv o rfl) ho hs
  have hle := Heap.card_unmarked_le h []
  exact (show _ ≤ h.size + 2 by omega).trans (Nat.le_mul_self _)

theorem meets_copy {v : Value} (hv : v.Within S) :
    Meets (c.copyValue (c.copyObject (copyDepth h)) v) ⟨h, .empty⟩ (c.CopyDone h S [] h v)
      (c.CopyFails h S) :=
  meets_mono_error (meets_copy_at hc hin hclosed hsize hv) fun _ _ hx => hx.1

end

end Codec

end GraphCodec
