import GraphCodec.Proofs.Copying
import GraphCodec.Proofs.Relocation

/-!
# Copying — a second time

A graph that was copied once can be copied again: the second copy stands behind the first one, and
is the first one moved (`movesAt_copyObject`).  The originals are the same for both, and the table
of copies says of each of them where its copy is.  `CopyState.Moved` also says what is known of the
first copy by itself: its slots hold objects of the copy only, which are all there.
-/

namespace GraphCodec

/-- Two copiers of the objects of `h`, of which the second one starts with the heap `g`.  The first
one has at least `least` objects in its heap. -/
structure CopyState.Moved (h g : Heap) (least : Nat) (st st' : CopyState) : Prop where
  heap : Heap.Moved h.size g.size st.heap st'.heap
  old : ∀ o < h.size, st.heap.get o = h.get o
  kept : ∀ o < g.size, st'.heap.get o = g.get o
  inside : ∀ x, st.heap.From h.size x → ∀ v ∈ (st.heap.get x).slots,
    v.Within (st.heap.From h.size)
  copies : ∀ o < h.size, st'.copies.get? o = (st.copies.get? o).map (Heap.shift h.size g.size)
  made : ∀ o < h.size, ∀ p, st.copies.get? o = some p → st.heap.From h.size p
  least : least ≤ st.heap.size

namespace CopyState.Moved

variable {h g : Heap} {least : Nat} {st st' : CopyState}

theorem mono (hst : st.Moved h g least st') {less : Nat} (hle : less ≤ least) :
    st.Moved h g less st' :=
  { hst with least := hle.trans hst.least }

/-- The originals are the same for both. -/
theorem original (hst : st.Moved h g least st') (hg : ∀ o < h.size, o < g.size ∧ g.get o = h.get o)
    {o : ObjectId} (ho : o < h.size) : st.heap.get o = h.get o ∧ st'.heap.get o = h.get o :=
  ⟨hst.old o ho, (hst.kept o (hg o ho).1).trans (hg o ho).2⟩

/-- Both make the next object of their heaps. -/
theorem alloc (hst : st.Moved h g least st') (d : ClassDecl) :
    CopyState.Moved h g (st.heap.size + 1) { st with heap := (st.heap.alloc (.fresh d)).2 }
      { st' with heap := (st'.heap.alloc (.fresh d)).2 } := by
  have hle := hst.heap.le
  have hsize := hst.heap.size
  unfold Heap.shift at hsize
  have hfrom : ∀ {p}, st.heap.From h.size p → (st.heap.alloc (.fresh d)).2.From h.size p :=
    Heap.From.mono (Heap.Widens.alloc _ _)
  refine ⟨hst.heap.alloc d, fun o ho => ?_, fun o ho => ?_, fun x hx v hv => ?_, hst.copies,
    fun o ho p hp => hfrom (hst.made o ho p hp), by simp⟩
  · exact (Heap.get_alloc_of_lt _ (Nat.lt_of_lt_of_le ho hle)).trans (hst.old o ho)
  · exact (Heap.get_alloc_of_lt _ (show o < st'.heap.size by omega)).trans (hst.kept o ho)
  · by_cases hlt : x < st.heap.size
    · rw [Heap.get_alloc_of_lt _ hlt] at hv
      exact (hst.inside x ⟨hx.1, hlt⟩ v hv).mono fun _ => hfrom
    · -- the slots of the new object hold no objects
      obtain rfl : x = st.heap.size :=
        Nat.le_antisymm (Nat.le_of_lt_succ (by simpa using hx.2)) (Nat.not_lt.mp hlt)
      rw [Heap.get_alloc_self] at hv
      obtain ⟨f, -, rfl⟩ := List.mem_map.mp hv
      exact fun o ho => absurd ho (Value.initial_ne_object _ o)

/-- Both put a value of the copy, or a plain one, into the slot of a copy. -/
theorem store (hst : st.Moved h g least st') {s : Slot} {copy : ObjectId} (hcopy : h.size ≤ copy)
    {v old : Value} (hv : v.Within (st.heap.From h.size)) {k : Heap}
    (hs : s.set st.heap copy v = .ok (old, k)) :
    ∃ old' k', s.set st'.heap (Heap.shift h.size g.size copy)
        (v.rename (Heap.shift h.size g.size)) = .ok (old', k') ∧
      CopyState.Moved h g least { st with heap := k } { st' with heap := k' } := by
  obtain ⟨old', k', hs', hk⟩ := hst.heap.set hcopy hs
  obtain rfl := Slot.eq_store_of_set hs
  obtain rfl := Slot.eq_store_of_set hs'
  have hwidens := Heap.Widens.store st.heap copy s.index v
  refine ⟨old', _, hs', hk, fun o ho => ?_, fun o ho => ?_, fun x hx w hw => ?_, hst.copies,
    fun o ho p hp => (hst.made o ho p hp).mono hwidens, hst.least.trans hwidens.size⟩
  · exact (Heap.get_store_of_ne _ _ (Nat.lt_of_lt_of_le ho hcopy).ne).trans (hst.old o ho)
  · have hne : o ≠ Heap.shift h.size g.size copy := by
      unfold Heap.shift
      omega
    exact (Heap.get_store_of_ne _ _ hne).trans (hst.kept o ho)
  · replace hx : st.heap.From h.size x := ⟨hx.1, by simpa using hx.2⟩
    replace hw : w ∈ ((st.heap.store copy s.index v).get x).slots := hw
    refine Value.Within.mono (fun _ => Heap.From.mono hwidens) ?_
    by_cases hxc : x = copy
    · subst hxc
      rw [Heap.get_store_self _ _ hx.2] at hw
      rcases List.mem_or_eq_of_mem_set hw with hw | rfl
      · exact hst.inside x hx w hw
      · exact hv
    · rw [Heap.get_store_of_ne _ _ hxc] at hw
      exact hst.inside x hx w hw

/-- Both register the copies of an object, or keep those that are there. -/
theorem reference (hst : st.Moved h g least st') (source : ObjectId) {copy : ObjectId}
    (hcopy : st.heap.From h.size copy) :
    CopyState.Moved h g least { st with copies := st.copies.insertNew source copy }
      { st' with copies := st'.copies.insertNew source (Heap.shift h.size g.size copy) } := by
  refine { hst with copies := fun o ho => ?_, made := fun o ho p hp => ?_ }
  · show (st'.copies.insertNew _ _).get? o = ((st.copies.insertNew _ _).get? o).map _
    rw [Table.get?_insertNew, Table.get?_insertNew]
    split
    · next he =>
      subst he
      rw [hst.copies source ho]
      cases st.copies.get? source <;> rfl
    · exact hst.copies o ho
  · replace hp : (st.copies.insertNew source copy).get? o = some p := hp
    rw [Table.get?_insertNew] at hp
    split at hp
    · cases hs : st.copies.get? source with
      | none =>
          rw [hs] at hp
          cases hp
          exact hcopy
      | some q =>
          rw [hs] at hp
          cases hp
          subst o
          exact hst.made source ho _ hs
    · exact hst.made o ho p hp

end CopyState.Moved

namespace Codec

open Pass

variable {c : Codec} {rs : List RecordSerializer} {h g : Heap} {S : ObjectId → Prop}
  {least : Nat} {st st' : CopyState} {nested nested' : Serializer → Value → CopyM Value}

/-- Copying the value a second time gives the first copy moved. -/
def CopiesAgain (h g : Heap) (least : Nat) (m m' : CopyM Value) (st st' : CopyState) : Prop :=
  MovesAt (Value.rename (Heap.shift h.size g.size)) m m' st st' fun w t t' =>
    t.Moved h g least t' ∧ w.Within (t.heap.From h.size)

section

variable (hc : c.Lists rs) (hg : ∀ o < h.size, o < g.size ∧ g.get o = h.get o)
  (hin : ∀ o, S o → o < h.size) (hclosed : h.Closed c.copiedSlots S)
  (hn : ∀ t s v least st st', Served rs t s → v.Within S → st.Moved h g least st' →
    CopiesAgain h g least (nested s v) (nested' s v) st st')
include hc hg hin hn

theorem copiesAgain_value (hst : st.Moved h g least st') {v : Value} (hv : v.Within S) :
    CopiesAgain h g least (c.copyValue nested v) (c.copyValue nested' v) st st' := by
  cases v with
  | object o =>
      have ho := hin o (hv o rfl)
      refine movesAt_get_bind ?_
      rw [hst.copies o ho, (hst.original hg ho).1, (hst.original hg ho).2]
      cases hp : st.copies.get? o with
      | some p => exact movesAt_pure ⟨hst, Value.within_object (hst.made o ho p hp)⟩
      | none =>
          refine movesAt_bind (f := id) (Q := fun _ t t' => t = st ∧ t' = st')
            (movesAt_ofExcept fun s hs => ⟨hs, rfl, rfl⟩) ?_
          rintro s _ _ hs ⟨rfl, rfl⟩
          exact hn _ s _ _ _ _ (hc.served_of_serializer (except_mapError_eq_ok.mp hs.ofExcept))
            hv hst
  | _ => exact movesAt_pure ⟨hst, nofun⟩

include hclosed

theorem movesAt_copyField (hst : st.Moved h g least st') {r : RecordSerializer} (hr : r ∈ rs)
    {e : FieldEntry} (he : e ∈ r.entries) (hcopied : e.copied = true) {source copy : ObjectId}
    (hS : S source) (hid : (h.get source).owner = r.decl.id) (hcopy : h.size ≤ copy) :
    MovesAt id (c.copyField nested e source copy)
      (c.copyField nested' e source (Heap.shift h.size g.size copy)) st st' fun _ t t' =>
        t.Moved h g least t' := by
  have hold := hst.original hg (hin source hS)
  simp only [copyField, (hc.plain r hr).follows.bare e he]
  refine movesAt_bind (f := id) (Q := fun v t t' => (t = st ∧ t' = st') ∧ v.Within S) ?_ ?_
  · refine movesAt_get_bind (movesAt_ofExcept fun v hv => ?_)
    rw [Slot.get_congr hold.1] at hv
    rw [Slot.get_congr hold.2]
    have hslot := Slot.getElem?_of_get (except_mapError_eq_ok.mp hv)
    exact ⟨hv, ⟨rfl, rfl⟩, hclosed source hS _ (hc.slots_of_entry hr he hcopied hid) v hslot⟩
  · rintro v _ _ - ⟨⟨rfl, rfl⟩, hv⟩
    refine movesAt_bind (copiesAgain_value hc hg hin hn hst hv) ?_
    rintro w t t' - ⟨ht, hw⟩ a u hu
    obtain ⟨_, _, hget, hset⟩ := bind_eq_ok.mp hu
    cases hget
    obtain ⟨⟨old, k⟩, _, hs, hmod⟩ := bind_eq_ok.mp hset
    obtain ⟨hs, rfl⟩ := ofExcept_eq_ok.mp hs
    cases hmod
    obtain ⟨old', k', hs', hk⟩ := ht.store hcopy hw (except_mapError_eq_ok.mp hs)
    exact ⟨_, CopyM.setSlot_run hs', hk⟩

theorem movesAt_copyFields (hst : st.Moved h g least st') {r : RecordSerializer} (hr : r ∈ rs)
    {source copy : ObjectId} (hS : S source) (hid : (h.get source).owner = r.decl.id)
    (hcopy : h.size ≤ copy) {t : FieldTable} (ht : ∀ e ∈ t, e ∈ r.entries) :
    MovesAt id (c.copyFields nested r.decl.id source copy t)
      (c.copyFields nested' r.decl.id source (Heap.shift h.size g.size copy) t) st st' fun _ t t' =>
        t.Moved h g least t' := by
  induction t generalizing st st' with
  | nil => exact movesAt_pure hst
  | cons e t ih =>
      obtain ⟨he, ht⟩ := List.forall_mem_cons.mp ht
      simp only [copyFields]
      split
      · next hcopied =>
        exact movesAt_bind (f := id) (movesAt_inField
          (movesAt_copyField hc hg hin hclosed hn hst hr he hcopied hS hid hcopy))
          fun _ _ _ _ hst => ih hst ht
      · exact ih hst ht

theorem copiesAgain_record (hst : st.Moved h g least st') {r : RecordSerializer} (hr : r ∈ rs)
    {v : Value} (hv : v.Within S) :
    CopiesAgain h g least (c.copyRecord nested r v) (c.copyRecord nested' r v) st st' := by
  intro w t hall
  obtain ⟨_, _, hget, hall⟩ := bind_eq_ok.mp hall
  cases hget
  obtain ⟨source, st, hinstance, hrest⟩ := bind_eq_ok.mp hall
  obtain ⟨hi, rfl⟩ := ofExcept_eq_ok.mp hinstance
  obtain ⟨rfl, howner⟩ := Heap.instanceOf_eq_ok.mp hi
  have hS := hv source rfl
  obtain ⟨hold, hold'⟩ := hst.original hg (hin source hS)
  -- both make an instance, and register it before the fields are gone through
  obtain ⟨copy, _, hmake, hrest⟩ := bind_eq_ok.mp hrest
  rw [copyInstance_run hc hr howner] at hmake
  split at hmake
  · next hd =>
    cases hmake
    have hnew : (st.heap.alloc (.fresh r.decl)).2.From h.size st.heap.size :=
      ⟨hst.heap.le, by simp⟩
    have hfresh := (hst.alloc r.decl).reference source hnew
    obtain ⟨_, _, href, hrest⟩ := bind_eq_ok.mp hrest
    cases href
    obtain ⟨_, u, hfields, hlast⟩ := bind_eq_ok.mp hrest
    cases hlast
    obtain ⟨u', hfields', hu⟩ := movesAt_copyFields hc hg hin hclosed hn hfresh hr hS
      (hold ▸ howner) hst.heap.le (fun _ he => he) _ _ hfields
    refine ⟨u', ?_, hu.mono (hst.least.trans (Nat.le_succ _)), Value.within_object
      ⟨hst.heap.le, hu.least⟩⟩
    have howner' : (st'.heap.get source).owner = r.decl.id := by rw [hold', ← hold, howner]
    refine bind_eq_ok.mpr ⟨_, _, get_run _, bind_eq_ok.mpr ⟨_, _, ofExcept_eq_ok.mpr
      ⟨Heap.instanceOf_eq_ok.mpr ⟨rfl, howner'⟩, rfl⟩, ?_⟩⟩
    refine bind_eq_ok.mpr ⟨_, _, by rw [copyInstance_run hc hr howner', if_pos hd], ?_⟩
    rw [hst.heap.size]
    exact bind_eq_ok.mpr ⟨_, _, rfl, bind_eq_ok.mpr ⟨_, _, hfields', rfl⟩⟩
  · cases hmake

theorem copiesAgain_with (hst : st.Moved h g least st') {t : ValueType} {s : Serializer}
    (hs : Served rs t s) {v : Value} (hv : v.Within S) :
    CopiesAgain h g least (c.copyWith nested s v) (c.copyWith nested' s v) st st' := by
  cases hs with
  | stock hs =>
      cases t <;> cases hs <;> cases v <;>
        first | exact movesAt_pure ⟨hst, nofun⟩ | exact nofun
  | @record r hr => exact copiesAgain_record hc hg hin hclosed hn hst hr hv

end

/-- **A second copy is the first one moved.**  The second pass may go deeper. -/
theorem copiesAgain_object (hc : c.Lists rs)
    (hg : ∀ o < h.size, o < g.size ∧ g.get o = h.get o) (hin : ∀ o, S o → o < h.size)
    (hclosed : h.Closed c.copiedSlots S) {n n' : Nat} (hle : n ≤ n')
    (t : ValueType) (s : Serializer) (v : Value) (least : Nat) (st st' : CopyState)
    (hs : Served rs t s) (hv : v.Within S) (hst : st.Moved h g least st') :
    CopiesAgain h g least (c.copyObject n s v) (c.copyObject n' s v) st st' := by
  induction n generalizing n' t s v least st st' with
  | zero => exact nofun
  | succ n ih =>
      obtain ⟨n', rfl⟩ : ∃ m, n' = m + 1 := ⟨n' - 1, by omega⟩
      simp only [copyObject]
      refine movesAt_bind (copiesAgain_with hc hg hin hclosed
        (ih (Nat.le_of_succ_le_succ hle)) hst hs hv) ?_
      rintro w t t' - ⟨ht, hw⟩
      cases v with
      | object source =>
          cases w with
          | object copy =>
              rintro _ _ ⟨⟩
              exact ⟨_, rfl, ht.reference source (hw copy rfl), hw⟩
          | _ => exact movesAt_pure ⟨ht, hw⟩
      | _ => exact movesAt_pure ⟨ht, hw⟩

/-! ### Whole passes -/

/-- Copying a value again, with the heap `g` in which the originals are as in `h`. -/
theorem copiesAgain_copy (hc : c.Lists rs) (hg : ∀ o < h.size, o < g.size ∧ g.get o = h.get o)
    {v : Value} (hin : ∀ o, h.Reach c.copiedSlots v o → o < h.size) :
    CopiesAgain h g h.size (c.copyValue (c.copyObject (copyDepth h)) v)
      (c.copyValue (c.copyObject (copyDepth g)) v) ⟨h, .empty⟩ ⟨g, .empty⟩ := by
  have hsize : h.size ≤ g.size := Nat.not_lt.mp fun hlt => lt_irrefl _ (hg _ hlt).1
  have hdepth : copyDepth h ≤ copyDepth g :=
    Nat.mul_le_mul (Nat.add_le_add_right hsize 2) (Nat.add_le_add_right hsize 2)
  have hstart : CopyState.Moved h g h.size ⟨h, .empty⟩ ⟨g, .empty⟩ :=
    ⟨Heap.moved_start h g, fun _ _ => rfl, fun _ _ => rfl,
      fun x hx => absurd hx.2 (Nat.not_lt.mpr hx.1), fun _ _ => rfl, fun _ _ _ => nofun, le_rfl⟩
  exact copiesAgain_value hc hg hin (copiesAgain_object hc hg hin (h.closed_reach _ v) hdepth)
    hstart (h.within_reach _ v)

/-- **A value can be copied again, and both copies are the same.** -/
theorem Lists.copy_again (hc : c.Lists rs) {v w : Value}
    (hin : ∀ o, h.Reach c.copiedSlots v o → o < h.size) (hw : (c.copy h v).result = .ok w) :
    ∃ w', (c.copy (c.copy h v).heap v).result = .ok w' ∧
      (c.copy (c.copy h v).heap v).heap.sameGraph w w' = true := by
  have hcopy : ∀ k : Heap, c.copy k v =
      ⟨((c.copyValue (c.copyObject (copyDepth k)) v) ⟨k, .empty⟩).1,
        ((c.copyValue (c.copyObject (copyDepth k)) v) ⟨k, .empty⟩).2.heap⟩ := fun _ => rfl
  rcases hr : c.copyValue (c.copyObject (copyDepth h)) v ⟨h, .empty⟩ with ⟨x, t⟩
  rw [hcopy, hr] at hw
  cases hw
  -- a copy that is made at once says that the originals are kept
  obtain ⟨_, _, hself, -⟩ := copiesAgain_copy hc (fun o ho => ⟨ho, rfl⟩) hin _ _ hr
  have hg : ∀ o < h.size, o < t.heap.size ∧ t.heap.get o = h.get o := fun o ho =>
    ⟨Nat.lt_of_lt_of_le ho hself.heap.le, hself.old o ho⟩
  obtain ⟨t', hr', hmoved, hwithin⟩ := copiesAgain_copy hc hg hin _ _ hr
  rw [hcopy h, hr, hcopy t.heap, hr']
  exact ⟨_, rfl, hmoved.heap.sameGraph hmoved.kept hmoved.inside hwithin⟩

end Codec

end GraphCodec
