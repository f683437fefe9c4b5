import GraphCodec.Proofs.Steps

/-!
# Writing — up to the names of objects

Two runs of a writer, on two heaps that correspond along a function `f` on a closed set `S`, write
the same bytes and end in the same way.  `Aligned` relates their states: what was written and what
is bound is the same, the cells are quiet, and the objects that were met, or that are being
written, correspond along `f`.

The runs may follow objects to different depths, as long as both are deep enough.  The objects of
`A` are marked: they have been met, or they are being written.  An object is opened only while it
is not marked, and it is marked while it is open, so that two levels more than there are unmarked
objects are deep enough (`relates_writeFramed`).
-/

namespace GraphCodec

namespace Codec

open Pass

variable {c : Codec} {rs : List RecordSerializer} {S : ObjectId → Prop}
  {f : ObjectId → ObjectId} {h h' : Heap} {A : List ObjectId}

/-- The states of two writers correspond, and the objects of `A` are marked. -/
structure Aligned (c : Codec) (rs : List RecordSerializer) (S : ObjectId → Prop)
    (f : ObjectId → ObjectId) (A : List ObjectId) (st st' : WriteState) : Prop where
  output : st'.output = st.output
  scopes : st'.typing.scopes = st.typing.scopes
  quiet : st.typing.cells.Quiet rs
  quiet' : st'.typing.cells.Quiet rs
  seen : st'.numbering.seen = st.numbering.seen.map f
  path : st'.path = st.path.map f
  seen_sub : ∀ o ∈ st.numbering.seen, S o
  path_sub : ∀ o ∈ st.path, S o
  met : c.references = true → ∀ o ∈ A, o ∈ st.numbering.seen
  open_ : c.references = false → st.path = A

/-- What was met stays met, so that fewer objects may be called marked. -/
theorem Aligned.weaken (hc : c.references = true) {o : ObjectId} {st st' : WriteState}
    (hA : Aligned c rs S f (o :: A) st st') : Aligned c rs S f A st st' :=
  { hA with
    met := fun hr p hp => hA.met hr p (List.mem_cons_of_mem _ hp)
    open_ := fun hr => by rw [hc] at hr; cases hr }

/-! ### Items and types -/

theorem relates_item (i : Item) : Relates (Aligned c rs S f A) (WriteM.item i) (WriteM.item i) :=
  relates_modify fun _ _ hst => { hst with output := by rw [hst.output] }

theorem relates_varint (n : Nat) :
    Relates (Aligned c rs S f A) (WriteM.varint n) (WriteM.varint n) :=
  relates_modify fun _ _ hst => { hst with output := by rw [hst.output] }

theorem relates_writePresence (e : FieldEntry) (v : Value) :
    Relates (Aligned c rs S f A) (writePresence e v) (writePresence e (v.rename f)) := by
  simp only [writePresence]
  rw [Value.isNull_rename]
  split
  · exact relates_item _
  · exact relates_pure _

section

variable (hf : Heap.Renames c.writtenSlots S f h h')
include hf

theorem mismatch_rename (t : ValueType) {v : Value} (hv : v.Within S) :
    h'.mismatch t (v.rename f) = h.mismatch t v := by
  simp only [Heap.mismatch]
  rw [hf.typeOf hv]

theorem instanceOf_rename (owner : ClassId) {v : Value} (hv : v.Within S) :
    h'.instanceOf owner (v.rename f) = (h.instanceOf owner v).map f := by
  cases v with
  | object o =>
      have ho := hf.owner o (hv o rfl)
      have hm := mismatch_rename hf (.object owner) hv
      simp only [Value.rename_object] at hm ⊢
      simp only [Heap.instanceOf, ho, hm]
      split <;> rfl
  | _ => rfl

theorem relates_requireType (t : ValueType) {v : Value} (hv : v.Within S) :
    Relates (Aligned c rs S f A) (requireType h t v) (requireType h' t (v.rename f)) := by
  simp only [requireType]
  rw [hf.typeOf hv, mismatch_rename hf t hv]
  split
  · split
    · exact relates_pure _
    · exact relates_fail _
  · exact relates_pure _

theorem relates_writeTag {v : Value} (hv : v.Within S) :
    Relates (Aligned c rs S f A) (c.writeTag h v) (c.writeTag h' (v.rename f)) := by
  simp only [writeTag]
  rw [hf.typeOf hv]
  split
  · exact relates_bind (relates_varint 0) fun _ _ => relates_pure _
  · split
    · exact relates_bind (relates_varint _) fun _ _ => relates_pure _
    · exact relates_fail _

theorem get_rename {s : Slot} {o : ObjectId} (ho : S o)
    (hs : c.writtenSlots (h.get o).owner s.index) :
    s.get h' (f o) = (s.get h o).map (Value.rename f) := by
  simp only [Slot.get, Slot.check]
  rw [hf.owner o ho, hf.slots o ho _ hs]
  split
  · cases (h.get o).slots[s.index]? <;> rfl
  · rfl

/-! ### Fields -/

variable (hc : c.Lists rs) {nested nested' : Frame → Value → WriteM Unit}
  (hn : ∀ fr v, Served rs fr.type fr.serializer → v.Within S →
    Relates (Aligned c rs S f A) (nested fr v) (nested' fr (v.rename f)))
include hc hn

theorem relates_writeTagged {v : Value} (hv : v.Within S) :
    Relates (Aligned c rs S f A) (c.writeTagged h nested v)
      (c.writeTagged h' nested' (v.rename f)) := by
  refine relates_bind (relates_writeTag hf hv) fun x hx => ?_
  rcases writeTag_returns hx with ⟨rfl, -⟩ | ⟨t, x, rfl, -, ht⟩
  · exact relates_pure _
  · obtain ⟨rfl, hx⟩ := hc.served_of_registration? ht
    exact hn _ _ hx hv

theorem relates_writePlanned {e : FieldEntry} (he : e.serializer = none) {v : Value}
    (hv : v.Within S) {resolved : Option ConcreteType} {p : Plan}
    (hp : e.plan c resolved = .ok p) :
    Relates (Aligned c rs S f A) (c.writePlanned h nested e v p)
      (c.writePlanned h' nested' e (v.rename f) p) := by
  cases p with
  | dynamic => exact relates_writeTagged hf hc hn hv
  | known fr =>
      refine relates_bind (relates_requireType hf _ hv) fun _ _ => ?_
      exact hn _ _ (hc.served_of_plan he hp).1 hv
  | int =>
      refine relates_bind (relates_requireType hf _ hv) fun _ _ => ?_
      refine relates_bind (relates_writePresence e v) fun _ _ => ?_
      cases v with
      | int n => exact relates_item _
      | _ => exact relates_pure _
  | long =>
      refine relates_bind (relates_requireType hf _ hv) fun _ _ => ?_
      refine relates_bind (relates_writePresence e v) fun _ _ => ?_
      cases v with
      | long n => exact relates_item _
      | _ => exact relates_pure _

omit hn in
/-- The values in the slots of an object are written one level deeper, which matters only if there
are slots, so that the object is in its heap. -/
theorem relates_writeField {r : RecordSerializer} (hr : r ∈ rs) {e : FieldEntry}
    (he : e ∈ r.entries) (hs : e.serialized = true) {o : ObjectId} (ho : S o)
    (howner : (h.get o).owner = r.decl.id) (resolved : Option ConcreteType)
    (hn : o < h.size → f o < h'.size → ∀ fr v, Served rs fr.type fr.serializer → v.Within S →
      Relates (Aligned c rs S f A) (nested fr v) (nested' fr (v.rename f))) :
    Relates (Aligned c rs S f A) (c.writeField h nested e o resolved)
      (c.writeField h' nested' e (f o) resolved) := by
  have hsel : c.writtenSlots (h.get o).owner e.slot.index := hc.slots_of_entry hr he hs howner
  have hren := get_rename hf ho hsel
  cases hg : e.slot.get h o with
  | error x =>
      -- the slot is not there in either heap
      rw [hg] at hren
      rw [writeField_of_error _ _ _ hg, writeField_of_error _ _ _ hren]
      exact relates_fail _
  | ok v =>
      rw [hg] at hren
      have hv : v.Within S := hf.closed o ho _ hsel v (Slot.getElem?_of_get hg)
      rw [writeField_of_get _ _ _ hg, writeField_of_get _ _ _ hren, Value.isNull_rename]
      split
      · exact relates_fail _
      · refine relates_bind (relates_ofExcept _) fun p hp => ?_
        exact relates_writePlanned hf hc (hn (Slot.lt_size hg) (Slot.lt_size hren))
          ((hc.plain r hr).follows.bare e he) hv hp.ofExcept

omit hn in
theorem relates_writeFields {r : RecordSerializer} (hr : r ∈ rs) {o : ObjectId} (ho : S o)
    (howner : (h.get o).owner = r.decl.id) (own : Option Resolution)
    (hn : o < h.size → f o < h'.size → ∀ fr v, Served rs fr.type fr.serializer → v.Within S →
      Relates (Aligned c rs S f A) (nested fr v) (nested' fr (v.rename f)))
    {t : FieldTable} (ht : ∀ e ∈ t, e ∈ r.entries) (index : Nat) :
    Relates (Aligned c rs S f A) (c.writeFields h nested r own o index t)
      (c.writeFields h' nested' r own (f o) index t) := by
  induction t generalizing index with
  | nil => exact relates_pure _
  | cons e t ih =>
      obtain ⟨he, ht⟩ := List.forall_mem_cons.mp ht
      simp only [writeFields]
      split
      · next hs =>
        refine relates_get_bind fun st st' hst => ?_
        rw [hst.scopes]
        refine relates_bind (relates_inField ?_) fun _ _ => ih ht _
        exact relates_writeField hf hc hr he hs ho howner _ hn
      · exact ih ht _

/-! ### Objects -/

omit hf hc hn in
theorem relates_inScope (scope : Option TypeScope) {body body' : WriteM Unit}
    (hb : Relates (Aligned c rs S f A) body body') :
    Relates (Aligned c rs S f A) (WriteM.inScope scope body) (WriteM.inScope scope body') := by
  intro st st' hst
  have hin : Aligned c rs S f A { st with typing := st.typing.enter scope }
      { st' with typing := st'.typing.enter scope } :=
    { hst with scopes := congrArg (ScopeStack.enter · scope) hst.scopes }
  obtain ⟨h₁, h₂, h₃⟩ := hb _ _ hin
  exact ⟨h₁, h₂, { h₃ with scopes := congrArg (ScopeStack.leave · scope) h₃.scopes }⟩

omit hc hn in
theorem relates_writeStock {t : ValueType} {s : Stock} (hs : t.stock? = some s) {v : Value}
    (hv : v.Within S) :
    Relates (Aligned c rs S f A) (c.writeStock h nested s v)
      (c.writeStock h' nested' s (v.rename f)) := by
  have hfail : ∀ t, Relates (Aligned c rs S f A) (fail (h.mismatch t v) : WriteM Unit)
      (fail (h'.mismatch t (v.rename f))) := by
    intro t
    rw [mismatch_rename hf t hv]
    exact relates_fail _
  cases t <;> cases hs <;> cases v <;> first | exact relates_item _ | exact hfail _

omit hn in
theorem relates_record {r : RecordSerializer} (hr : r ∈ rs) (args : List ConcreteType) {v : Value}
    (hv : v.Within S)
    (hn : ∀ o, v = .object o → o < h.size → f o < h'.size →
      ∀ fr w, Served rs fr.type fr.serializer → w.Within S →
        Relates (Aligned c rs S f A) (nested fr w) (nested' fr (w.rename f))) :
    Relates (Aligned c rs S f A)
      (do WriteM.supply (.record r) args; c.writeRecord h nested r v)
      (do WriteM.supply (.record r) args; c.writeRecord h' nested' r (v.rename f)) := by
  intro st st' hst
  obtain ⟨cells, hq, hrun⟩ := WriteM.supply_takeArguments (α := Unit) hr args hst.quiet
  obtain ⟨cells', hq', hrun'⟩ := WriteM.supply_takeArguments (α := Unit) hr args hst.quiet'
  simp only [writeRecord]
  rw [hrun, hrun']
  refine relates_bind (relates_ofExcept _) (fun own _ => ?_) _ _
    { hst with quiet := hq, quiet' := hq' }
  have hinst := instanceOf_rename hf r.decl.id hv
  cases hi : h.instanceOf r.decl.id v with
  | error x =>
      rw [hinst, hi]
      exact relates_fail _
  | ok o =>
      rw [hinst, hi]
      simp only [Except.map, Pass.ofExcept, pure_bind]
      obtain ⟨rfl, howner⟩ := Heap.instanceOf_eq_ok.mp hi
      exact relates_inScope _
        (relates_writeFields hf hc hr (hv o rfl) howner own (hn o rfl) (fun _ he => he) 0)

omit hn in
/-- What stands inside a frame opens an object only in a frame for objects. -/
theorem relates_body {fr : Frame} (hfr : Served rs fr.type fr.serializer) {v : Value}
    (hv : v.Within S)
    (hn : fr.type.isReference = true → ∀ o, v = .object o → o < h.size → f o < h'.size →
      ∀ fr w, Served rs fr.type fr.serializer → w.Within S →
        Relates (Aligned c rs S f A) (nested fr w) (nested' fr (w.rename f))) :
    Relates (Aligned c rs S f A) (c.writeBody h nested fr v)
      (c.writeBody h' nested' fr (v.rename f)) := by
  obtain ⟨t, s, args, nullable⟩ := fr
  cases hfr with
  | stock hs =>
      refine relates_bind (relates_modify fun st st' hst => ?_) fun _ _ =>
        relates_writeStock hf hs hv
      rw [Typing.supply_stock, Typing.supply_stock]
      exact hst
  | record hr => exact relates_record hf hc hr args hv (hn rfl)

end

/-- An object that is met inside itself ends both runs; else it is marked while it is open. -/
theorem relates_onPath (hr : c.references = false) (hi : Set.InjOn f {o | S o}) {o : ObjectId}
    (ho : S o) (owner : ClassId) {body body' : WriteM Unit}
    (hb : o ∉ A → Relates (Aligned c rs S f (o :: A)) body body') :
    Relates (Aligned c rs S f A) (WriteM.onPath o owner body)
      (WriteM.onPath (f o) owner body') := by
  intro st st' hst
  have hpath : st.path = A := hst.open_ hr
  have hmem : f o ∈ st'.path ↔ o ∈ st.path := by
    rw [hst.path]
    refine ⟨fun h => ?_, fun h => List.mem_map_of_mem h⟩
    obtain ⟨p, hp, he⟩ := List.mem_map.mp h
    exact hi (hst.path_sub p hp) ho he ▸ hp
  by_cases hA : o ∈ st.path
  · rw [WriteM.onPath_of_mem hA, WriteM.onPath_of_mem (hmem.mpr hA)]
    exact ⟨by simp, rfl, hst⟩
  · -- the object goes on the path, and its body leaves the path as it was
    have hin : Aligned c rs S f (o :: A) { st with path := o :: st.path }
        { st' with path := f o :: st'.path } :=
      { hst with
        path := by simp [hst.path]
        path_sub := List.forall_mem_cons.mpr ⟨ho, hst.path_sub⟩
        met := fun h => absurd h (by simp [hr])
        open_ := fun _ => by rw [hpath] }
    obtain ⟨h₁, h₂, h₃⟩ := hb (hpath ▸ hA) _ _ hin
    rw [WriteM.onPath_of_not_mem hA, WriteM.onPath_of_not_mem (mt hmem.mp hA)]
    refine ⟨h₁, h₂, { h₃ with path := ?_, path_sub := ?_, met := ?_, open_ := ?_ }⟩
    · show List.erase _ _ = List.map f (List.erase _ _)
      rw [h₃.path, h₃.open_ hr]
      simp
    · exact fun p hp => h₃.path_sub p (List.mem_of_mem_erase hp)
    · exact fun h => absurd h (by simp [hr])
    · intro _
      show List.erase _ _ = _
      rw [h₃.open_ hr]
      simp

theorem number?_map (hi : Set.InjOn f {o | S o}) {o : ObjectId} (ho : S o) {l : List ObjectId}
    (hl : ∀ p ∈ l, S p) : (⟨l.map f⟩ : Numbering).number? (f o) = (⟨l⟩ : Numbering).number? o := by
  induction l with
  | nil => rfl
  | cons p l ih =>
      obtain ⟨hp, hl⟩ := List.forall_mem_cons.mp hl
      have ih := ih hl
      have hpo : f p = f o ↔ p = o := hi.eq_iff hp ho
      simp only [Numbering.number?, List.map_cons, List.findIdx?_cons, hpo] at ih ⊢
      rw [ih]

/-- An object that was met before is a number in both runs; else it is marked from now on. -/
theorem relates_meet (hr : c.references = true) (hi : Set.InjOn f {o | S o}) {o : ObjectId}
    (ho : S o) {body body' : WriteM Unit}
    (hb : o ∉ A → Relates (Aligned c rs S f (o :: A)) body body') :
    Relates (Aligned c rs S f A)
      (do let m ← WriteM.meet o; WriteM.varint m.code; if m = .new then body)
      (do let m ← WriteM.meet (f o); WriteM.varint m.code; if m = .new then body') := by
  intro st st' hst
  have hnum : st'.numbering.number? (f o) = st.numbering.number? o := by
    obtain ⟨⟨out, ⟨seen⟩, path, typing⟩, rfl⟩ : ∃ x, x = st := ⟨_, rfl⟩
    obtain ⟨⟨out', ⟨seen'⟩, path', typing'⟩, rfl⟩ : ∃ x, x = st' := ⟨_, rfl⟩
    obtain rfl : seen' = seen.map f := hst.seen
    exact number?_map hi ho hst.seen_sub
  by_cases hA : o ∈ st.numbering.seen
  · -- both runs write the same number
    obtain ⟨n, hn⟩ := Option.ne_none_iff_exists'.mp
      (mt Numbering.number?_eq_none.mp (not_not.mpr hA))
    rw [WriteM.meet_of_known hn, WriteM.meet_of_known (hnum ▸ hn)]
    exact relates_varint _ _ _ hst
  · have hA' : f o ∉ st'.numbering.seen := by
      rw [← Numbering.number?_eq_none, hnum, Numbering.number?_eq_none]
      exact hA
    -- both runs write the marker of a new object, and then the object
    rw [WriteM.meet_of_new hA, WriteM.meet_of_new hA']
    have hin : Aligned c rs S f (o :: A)
        { st with numbering := ⟨st.numbering.seen ++ [o]⟩ }
        { st' with numbering := ⟨st'.numbering.seen ++ [f o]⟩ } :=
      { hst with
        seen := by simp [hst.seen]
        seen_sub := by
          intro p hp
          rcases List.mem_append.mp hp with hp | hp
          · exact hst.seen_sub p hp
          · exact List.mem_singleton.mp hp ▸ ho
        met := by
          intro h p hp
          rcases List.mem_cons.mp hp with rfl | hp
          · simp
          · exact List.mem_append_left _ (hst.met h p hp)
        open_ := fun h => absurd h (by simp [hr]) }
    obtain ⟨h₁, h₂, h₃⟩ :=
      relates_bind (relates_varint 1) (fun _ _ => hb fun h => hA (hst.met hr o h)) _ _ hin
    exact ⟨h₁, h₂, h₃.weaken hr⟩

/-! ### Frames -/

section

variable (hc : c.Lists rs) (hf : Heap.Renames c.writtenSlots S f h h') {n n' : Nat}
  (hnested : ∀ o, S o → o ∉ A → o < h.size → f o < h'.size → ∀ fr w,
    Served rs fr.type fr.serializer → w.Within S →
      Relates (Aligned c rs S f (o :: A)) (c.writeFramed h n fr w)
        (c.writeFramed h' n' fr (w.rename f)))
  {fr : Frame} (hfr : Served rs fr.type fr.serializer) {v : Value} (hv : v.Within S)
include hc hf hfr hv

/-- What stands inside a frame that opens no object, whatever is done with one that is opened. -/
theorem relates_body_plain (hplain : ∀ o, v = .object o → fr.type.isReference = false) :
    Relates (Aligned c rs S f A) (c.writeBody h (c.writeFramed h n) fr v)
      (c.writeBody h' (c.writeFramed h' n') fr (v.rename f)) := by
  refine relates_body hf hc hfr hv fun htype o ho => ?_
  rw [hplain o ho] at htype
  cases htype

include hnested

/-- What stands inside a frame for an object that is not marked: from here on it is. -/
theorem relates_body_object {o : ObjectId} (ho : v = .object o) (hoA : o ∉ A) :
    Relates (Aligned c rs S f (o :: A)) (c.writeBody h (c.writeFramed h n) fr v)
      (c.writeBody h' (c.writeFramed h' n') fr (v.rename f)) := by
  refine relates_body hf hc hfr hv fun _ p hp hlt hlt' => ?_
  obtain rfl : o = p := Value.object.inj (ho ▸ hp)
  exact hnested o (hv o ho) hoA hlt hlt'

theorem relates_framed_marked (ht : fr.type.isReference = true) (hr : c.references = true) :
    Relates (Aligned c rs S f A) (c.writeFramed h (n + 1) fr v)
      (c.writeFramed h' (n' + 1) fr (v.rename f)) := by
  by_cases hobj : ∃ o, v = .object o
  · obtain ⟨o, rfl⟩ := hobj
    rw [Value.rename_object, writeFramed_object _ _ hr ht, writeFramed_object _ _ hr ht]
    exact relates_meet hr hf.injective (hv o rfl) (relates_body_object hc hf hnested hfr hv rfl)
  · have hne : ∀ o, v ≠ .object o := fun o ho => hobj ⟨o, ho⟩
    have hmis := mismatch_rename hf fr.type hv
    rw [Value.rename_eq_self hne] at hmis ⊢
    rw [writeFramed_no_object _ _ hr ht _ hne, writeFramed_no_object _ _ hr ht _ hne, hmis]
    split
    · exact relates_varint _
    · exact relates_fail _

theorem relates_framed_unmarked (hm : (fr.type.isReference && c.references) = false) :
    Relates (Aligned c rs S f A) (c.writeFramed h (n + 1) fr v)
      (c.writeFramed h' (n' + 1) fr (v.rename f)) := by
  rw [writeFramed_unmarked _ _ hm, writeFramed_unmarked _ _ hm, Value.isNull_rename]
  split
  · split
    · exact relates_item _
    · exact relates_fail _
  · refine relates_bind ?_ fun _ _ => ?_
    · split
      · exact relates_item _
      · exact relates_pure _
    · cases v with
      | object o =>
          simp only [Value.rename_object, Value.object?]
          cases hr : c.references with
          | true =>
              -- the frame is not for objects, and its serializer refuses this one
              rw [hr, Bool.and_true] at hm
              exact relates_body_plain hc hf hfr hv fun _ _ => hm
          | false =>
              rw [hf.owner o (hv o rfl)]
              exact relates_onPath hr hf.injective (hv o rfl) _
                (relates_body_object hc hf hnested hfr hv rfl)
      | _ => exact relates_body_plain hc hf hfr hv (by simp)

end

/-- The walk itself, by induction on the first depth. -/
theorem relates_writeFramed (hc : c.Lists rs) (hf : Heap.Renames c.writtenSlots S f h h')
    {n n' : Nat} (hn : (h.unmarked A).card + 2 ≤ n) (hn' : (h'.unmarked (A.map f)).card + 2 ≤ n')
    (hA : ∀ o ∈ A, S o) (fr : Frame) (v : Value) (hfr : Served rs fr.type fr.serializer)
    (hv : v.Within S) :
    Relates (Aligned c rs S f A) (c.writeFramed h n fr v)
      (c.writeFramed h' n' fr (v.rename f)) := by
  induction n generalizing n' A fr v with
  | zero => omega
  | succ n ih =>
      obtain ⟨n', rfl⟩ : ∃ k, n' = k + 1 := ⟨n' - 1, by omega⟩
      -- an object is marked while it is open, so that what stands inside it may use one level less
      have hnested : ∀ o, S o → o ∉ A → o < h.size → f o < h'.size → ∀ fr w,
          Served rs fr.type fr.serializer → w.Within S →
            Relates (Aligned c rs S f (o :: A)) (c.writeFramed h n fr w)
              (c.writeFramed h' n' fr (w.rename f)) := by
        intro o ho hoA hlt hlt'
        have hoA' : f o ∉ A.map f := by
          intro hm
          obtain ⟨p, hp, he⟩ := List.mem_map.mp hm
          exact hoA (hf.injective (hA p hp) ho he ▸ hp)
        have h₁ := Heap.card_unmarked_lt (List.subset_cons_self o A) hlt hoA List.mem_cons_self
        have h₂ := Heap.card_unmarked_lt (List.subset_cons_self (f o) (A.map f)) hlt' hoA'
          List.mem_cons_self
        exact ih (by omega) (by rw [List.map_cons]; omega) (List.forall_mem_cons.mpr ⟨ho, hA⟩)
      by_cases hm : (fr.type.isReference && c.references) = true
      · obtain ⟨ht, hr⟩ := Bool.and_eq_true_iff.mp hm
        exact relates_framed_marked hc hf hnested hfr hv ht hr
      · exact relates_framed_unmarked hc hf hnested hfr hv (Bool.not_eq_true _ ▸ hm)

/-! ### Whole passes -/

/-- Where the parts of two passes are related, they end alike and leave quiet cells. -/
theorem runWrite_of_relates {k : Codec} (hc : c.cells.Quiet rs) (hk : k.cells.Quiet rs)
    (out : Output) {body body' : WriteM Unit} (hb : Relates (Aligned c rs S f []) body body') :
    ((c.runWrite out body).result ≠ .error .tooDeep ∧
      (k.runWrite out body').result = (c.runWrite out body).result ∧
      (k.runWrite out body').output = (c.runWrite out body).output) ∧
    (c.runWrite out body).codec.cells.Quiet rs := by
  have hst : Aligned c rs S f [] ⟨out, .empty, [], ⟨.empty, c.cells⟩⟩
      ⟨out, .empty, [], ⟨.empty, k.cells⟩⟩ :=
    ⟨rfl, rfl, hc, hk, rfl, rfl, nofun, nofun, fun _ => nofun, fun _ => rfl⟩
  obtain ⟨h₁, h₂, h₃⟩ := hb _ _ hst
  exact ⟨⟨h₁, h₂, h₃.output⟩, h₃.quiet⟩

section

variable (hc : c.Lists rs) (hf : Heap.Renames c.writtenSlots S f h h')
include hc hf

theorem relates_writeValue {v : Value} (hv : v.Within S) :
    Relates (Aligned c rs S f []) (c.writeTagged h (c.writeFramed h (writeDepth h)) v)
      (c.writeTagged h' (c.writeFramed h' (writeDepth h')) (v.rename f)) := by
  have hd := Nat.add_le_add_right (Heap.card_unmarked_le h []) 2
  have hd' := Nat.add_le_add_right (Heap.card_unmarked_le h' []) 2
  exact relates_writeTagged hf hc (relates_writeFramed hc hf hd hd' nofun) hv

theorem relates_writeUntagged {v : Value} (hv : v.Within S) (args : List ConcreteType) :
    Relates (Aligned c rs S f [])
      (match h.typeOf v with
        | none => fail (.encode .nullValue)
        | some t => do
          let s ← Pass.ofExcept ((c.serializer t).mapError .config)
          c.writeFramed h (writeDepth h) ⟨t, s, args, false⟩ v)
      (match h'.typeOf (v.rename f) with
        | none => fail (.encode .nullValue)
        | some t => do
          let s ← Pass.ofExcept ((c.serializer t).mapError .config)
          c.writeFramed h' (writeDepth h') ⟨t, s, args, false⟩ (v.rename f)) := by
  have hd := Nat.add_le_add_right (Heap.card_unmarked_le h []) 2
  have hd' := Nat.add_le_add_right (Heap.card_unmarked_le h' []) 2
  rw [hf.typeOf hv]
  split
  · exact relates_fail _
  · next t ht =>
    cases hs : c.serializer t with
    | error e => exact relates_fail _
    | ok s =>
        exact relates_writeFramed hc hf hd hd' nofun _ _ (hc.served_of_serializer hs) hv

end

end Codec

end GraphCodec
