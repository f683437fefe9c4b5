import Mathlib.Logic.Relation
import GraphCodec.Proofs.Agreement
import GraphCodec.Proofs.Standard

/-!
# Writing — cycles

Where objects do not keep their identity, a graph can be written exactly if nothing below the value
is on a cycle of written slots (`writeValue_cycles`).  The writer knows no more of the graph than
the path of the objects that are being written, on which no object stands twice
(`writeWatched`), and it leaves the path as it found it behind every value.

`Traces A S m` says what a part `m` of writing finds out about a set `S` of objects while those of
`A` are on the path: if it ends well, no object of `S` is on the path or on a cycle, and if it ends
at a cycle, some object of `S` is.
-/

namespace GraphCodec

namespace Heap

variable {h : Heap} {sel : Selection} {v : Value} {o p : ObjectId}

/-- A selected slot of `o` holds `p`. -/
def Leads (h : Heap) (sel : Selection) (o p : ObjectId) : Prop :=
  ∃ i, sel (h.get o).owner i ∧ (h.get o).slots[i]? = some (.object p)

/-- Selected slots lead from the object back to it. -/
def OnCycle (h : Heap) (sel : Selection) (o : ObjectId) : Prop :=
  Relation.TransGen (h.Leads sel) o o

theorem reach_iff :
    h.Reach sel v p ↔ ∃ o, v = .object o ∧ Relation.ReflTransGen (h.Leads sel) o p := by
  constructor
  · intro hp
    induction hp with
    | root hv => exact ⟨_, hv, .refl⟩
    | step _ hi hs ih =>
        obtain ⟨o, hv, ho⟩ := ih
        exact ⟨o, hv, ho.tail ⟨_, hi, hs⟩⟩
  · rintro ⟨o, rfl, hp⟩
    induction hp with
    | refl => exact .root rfl
    | tail _ hl ih =>
        obtain ⟨i, hi, hs⟩ := hl
        exact .step ih hi hs

/-- What is properly below an object is below a value in one of its selected slots. -/
theorem transGen_leads_iff : Relation.TransGen (h.Leads sel) o p ↔
    ∃ i w, sel (h.get o).owner i ∧ (h.get o).slots[i]? = some w ∧ h.Reach sel w p := by
  rw [Relation.TransGen.head'_iff]
  constructor
  · rintro ⟨q, ⟨i, hi, hs⟩, hp⟩
    exact ⟨i, _, hi, hs, reach_iff.mpr ⟨q, rfl, hp⟩⟩
  · rintro ⟨i, w, hi, hs, hp⟩
    obtain ⟨q, rfl, hq⟩ := reach_iff.mp hp
    exact ⟨q, ⟨i, hi, hs⟩, hq⟩

theorem reach_object_iff :
    h.Reach sel (.object o) p ↔ p = o ∨ Relation.TransGen (h.Leads sel) o p := by
  rw [reach_iff]
  simp [Relation.reflTransGen_iff_eq_or_transGen]

end Heap

namespace Codec

open Pass

variable {α β : Type} {c : Codec} {rs : List RecordSerializer} {h : Heap} {A : List ObjectId}
  {S T U : ObjectId → Prop}

/-! ### What a part of writing finds out -/

/-- The failure is not a cycle, or one of `S` is on the path or on a cycle. -/
def Blames (c : Codec) (h : Heap) (A : List ObjectId) (S : ObjectId → Prop) (e : Failure) : Prop :=
  ∀ x owner, e = .error x → x.root = .encode (.cycle owner) →
    ∃ o, S o ∧ (h.get o).owner = owner ∧ (o ∈ A ∨ h.OnCycle c.writtenSlots o)

/-- With the objects of `A` on the path, which stays as it is, the part ends well only if none of
`S` is on the path or on a cycle, and at a cycle only if one of them is. -/
def Traces (c : Codec) (h : Heap) (A : List ObjectId) (S : ObjectId → Prop) (m : WriteM α) : Prop :=
  ∀ st, st.path = A → Meets m st
    (fun _ st' => st'.path = A ∧ ∀ o, S o → o ∉ A ∧ ¬ h.OnCycle c.writtenSlots o)
    (fun e st' => st'.path = A ∧ c.Blames h A S e)

theorem Traces.congr {m : WriteM α} (hm : c.Traces h A S m) (hS : ∀ o, T o ↔ S o) :
    c.Traces h A T m := by
  obtain rfl : T = S := funext fun o => propext (hS o)
  exact hm

theorem traces_pure (hS : ∀ o, ¬ S o) (a : α) : c.Traces h A S (pure a) :=
  fun _ hst => meets_of_ok rfl ⟨hst, fun o ho => absurd ho (hS o)⟩

theorem traces_fail {e : CodecError} (he : ∀ owner, e.root ≠ .encode (.cycle owner)) :
    c.Traces h A S (fail e : WriteM α) := by
  intro st hst
  refine ⟨hst, ?_⟩
  rintro x owner hx hroot
  cases hx
  exact absurd hroot (he owner)

theorem traces_ofExcept {x : Except CodecError α}
    (hx : ∀ e, x = .error e → ∀ owner, e.root ≠ .encode (.cycle owner)) (hS : ∀ o, ¬ S o) :
    c.Traces h A S (ofExcept x : WriteM α) := by
  cases x with
  | ok a => exact traces_pure hS a
  | error e => exact traces_fail (hx e rfl)

theorem traces_modify {f : WriteState → WriteState} (hf : ∀ st, (f st).path = st.path)
    (hS : ∀ o, ¬ S o) : c.Traces h A S (modify f : WriteM PUnit) :=
  fun st hst => meets_of_ok rfl ⟨(hf st).trans hst, fun o ho => absurd ho (hS o)⟩

/-- Two parts find out about the objects of the one and of the other. -/
theorem traces_bind {m : WriteM β} {k : β → WriteM α} (hm : c.Traces h A S m)
    (hk : ∀ b, CanReturn m b → c.Traces h A T (k b)) (hU : ∀ o, U o ↔ S o ∨ T o) :
    c.Traces h A U (m >>= k) := by
  intro st hst
  have hm := hm st hst
  simp only [Meets] at hm ⊢
  rw [bind_run]
  rcases hr : m st with ⟨e | b, st₁⟩ <;> rw [hr] at hm
  · refine ⟨hm.1, fun x owner hx hroot => ?_⟩
    obtain ⟨o, ho, hcycle⟩ := hm.2 x owner hx hroot
    exact ⟨o, (hU o).mpr (.inl ho), hcycle⟩
  · have hk := hk b ⟨st, st₁, hr⟩ st₁ hm.1
    simp only [Meets] at hk ⊢
    rcases hr' : k b st₁ with ⟨e | a, st₂⟩ <;> rw [hr'] at hk
    · refine ⟨hk.1, fun x owner hx hroot => ?_⟩
      obtain ⟨o, ho, hcycle⟩ := hk.2 x owner hx hroot
      exact ⟨o, (hU o).mpr (.inr ho), hcycle⟩
    · exact ⟨hk.1, fun o ho => ((hU o).mp ho).elim (hm.2 o) (hk.2 o)⟩

theorem traces_get_bind {k : WriteState → WriteM α} (hk : ∀ st, c.Traces h A S (k st)) :
    c.Traces h A S (get >>= k) :=
  fun st hst => hk st st hst

/-- A part that finds out nothing may come first. -/
theorem traces_then {m : WriteM β} {k : β → WriteM α} (hm : c.Traces h A (fun _ => False) m)
    (hk : ∀ b, CanReturn m b → c.Traces h A S (k b)) : c.Traces h A S (m >>= k) :=
  traces_bind hm hk fun _ => (false_or _).symm.to_iff

theorem traces_inField {owner : ClassId} {field : String} {m : WriteM α}
    (hm : c.Traces h A S m) : c.Traces h A S (inField owner field m) := by
  intro st hst
  refine meets_inField (hm st hst) fun e st' he => ⟨he.1, fun x C hx hroot => ?_⟩
  cases e with
  | tooDeep => cases hx
  | error y =>
      cases hx
      exact he.2 y C rfl hroot

theorem traces_inScope (scope : Option TypeScope) {m : WriteM α} (hm : c.Traces h A S m) :
    c.Traces h A S (WriteM.inScope scope m) := by
  intro st hst
  have hm := hm { st with typing := st.typing.enter scope } hst
  simp only [Meets, WriteM.inScope] at hm ⊢
  rcases hr : m { st with typing := st.typing.enter scope } with ⟨e | a, st₁⟩ <;>
    rw [hr] at hm <;> exact hm

/-- An object below itself is found on the path when it is met again. -/
theorem traces_onPath {o : ObjectId} {m : WriteM α}
    (hm : o ∉ A → c.Traces h (o :: A) (Relation.TransGen (h.Leads c.writtenSlots) o) m) :
    c.Traces h A (h.Reach c.writtenSlots (.object o)) (WriteM.onPath o (h.get o).owner m) := by
  intro st hst
  simp only [Meets]
  by_cases ho : o ∈ A
  · rw [WriteM.onPath_of_mem (hst.symm ▸ ho)]
    refine ⟨hst, fun x owner hx hroot => ?_⟩
    cases hx
    cases hroot
    exact ⟨o, .root rfl, rfl, .inl ho⟩
  · rw [WriteM.onPath_of_not_mem (hst.symm ▸ ho)]
    have hm := hm ho { st with path := o :: st.path } (by rw [hst])
    simp only [Meets] at hm
    rcases hr : m { st with path := o :: st.path } with ⟨e | a, st₁⟩ <;> rw [hr] at hm <;>
      refine ⟨by simp [hm.1], ?_⟩
    · intro x owner hx hroot
      obtain ⟨p, hp, howner, hcycle⟩ := hm.2 x owner hx hroot
      refine ⟨p, Heap.reach_object_iff.mpr (.inr hp), howner, ?_⟩
      rw [List.mem_cons, or_assoc] at hcycle
      rcases hcycle with rfl | hcycle
      · exact .inr hp
      · exact hcycle
    · intro p hp
      rcases Heap.reach_object_iff.mp hp with rfl | hp
      · exact ⟨ho, fun hcycle => (hm.2 p hcycle).1 List.mem_cons_self⟩
      · exact ⟨fun hA => (hm.2 p hp).1 (List.mem_cons_of_mem _ hA), (hm.2 p hp).2⟩

/-! ### Items and types -/

theorem traces_item (hS : ∀ o, ¬ S o) (i : Item) : c.Traces h A S (WriteM.item i) :=
  traces_modify (fun _ => rfl) hS

theorem root_mismatch (t : ValueType) (v : Value) (owner : ClassId) :
    (h.mismatch t v).root ≠ .encode (.cycle owner) := by
  simp only [Heap.mismatch]
  split <;> rintro ⟨⟩

theorem traces_requireType (t : ValueType) (v : Value) :
    c.Traces h A (fun _ => False) (requireType h t v) := by
  simp only [requireType]
  split
  · split
    · exact traces_pure (fun _ => id) _
    · exact traces_fail (root_mismatch _ _)
  · exact traces_pure (fun _ => id) _

theorem traces_writeTag (v : Value) : c.Traces h A (fun _ => False) (c.writeTag h v) := by
  have hvarint : ∀ n, c.Traces h A (fun _ => False) (WriteM.varint n) := fun n =>
    traces_modify (fun _ => rfl) fun _ => id
  simp only [writeTag]
  split
  · exact traces_then (hvarint 0) fun _ _ => traces_pure (fun _ => id) _
  · split
    · exact traces_then (hvarint _) fun _ _ => traces_pure (fun _ => id) _
    · exact traces_fail (fun _ he => by cases he)

theorem traces_writePresence (e : FieldEntry) (v : Value) :
    c.Traces h A (fun _ => False) (writePresence e v) := by
  simp only [writePresence]
  split
  · exact traces_item (fun _ => id) _
  · exact traces_pure (fun _ => id) _

theorem traces_takeArguments (r : RecordSerializer) :
    c.Traces h A (fun _ => False) (WriteM.takeArguments r) := by
  intro st hst
  refine traces_ofExcept (x := ((st.typing.cells.get r.cell).take r).1.mapError .config)
    (fun e he => ?_) (fun _ => id) { st with typing := (st.typing.take r).2 } hst
  rcases hs : ((st.typing.cells.get r.cell).take r).1 with x | s <;> rw [hs] at he <;> cases he
  exact nofun

theorem root_of_plan {e : FieldEntry} {resolved : Option ConcreteType} {x : CodecError}
    (hx : e.plan c resolved = .error x) : ∃ y, x = .config y := by
  simp only [FieldEntryOf.plan] at hx
  split at hx
  · cases hx
  · cases hx
    exact ⟨_, rfl⟩
  · cases hx
  · cases hx
  · next t _ _ _ _ _ =>
    cases hs : c.serializer t <;> rw [hs] at hx <;> cases hx
    exact ⟨_, rfl⟩
  · cases hx

theorem reach_of_not_object {sel : Selection} {v : Value} (hv : ∀ o, v ≠ .object o)
    (p : ObjectId) : ¬ h.Reach sel v p := fun hp => by
  obtain ⟨o, ho, -⟩ := Heap.reach_iff.mp hp
  exact hv o ho

/-! ### Fields and objects -/

section

variable (hc : c.Lists rs) {nested : Frame → Value → WriteM Unit}
  (hn : ∀ f v, Served rs f.type f.serializer →
    c.Traces h A (h.Reach c.writtenSlots v) (nested f v))
include hc hn

theorem traces_writeTagged (v : Value) :
    c.Traces h A (h.Reach c.writtenSlots v) (c.writeTagged h nested v) := by
  refine traces_then (traces_writeTag v) fun x hx => ?_
  rcases writeTag_returns hx with ⟨rfl, rfl⟩ | ⟨t, x, rfl, -, ht⟩
  · exact traces_pure (reach_of_not_object (v := .null) nofun) _
  · obtain ⟨rfl, hx⟩ := hc.served_of_registration? ht
    exact hn _ _ hx

theorem traces_writeFlat (v : Value) (args : List ConcreteType) :
    c.Traces h A (h.Reach c.writtenSlots v) (c.writeFlat h nested v args) := by
  simp only [writeFlat]
  split
  · exact traces_fail (fun _ he => by cases he)
  · next t _ =>
    cases hs : c.serializer t with
    | error e =>
        refine traces_fail fun owner he => ?_
        cases he
    | ok s => exact hn _ _ (hc.served_of_serializer hs)

omit hc hn in
/-- In a frame for an integer there is no object, unless the type is refused. -/
theorem traces_number {e : FieldEntry} {t : ValueType} (ht : t.isReference = false) {v : Value}
    {k : WriteM Unit} (hk : c.Traces h A (fun _ => False) k) :
    c.Traces h A (h.Reach c.writtenSlots v)
      (do requireType h t v; writePresence e v; k) := by
  by_cases hv : ∃ o, v = .object o
  · obtain ⟨o, rfl⟩ := hv
    have hreq : requireType h t (.object o) = fail (h.mismatch t (.object o)) := by
      simp only [requireType, Heap.typeOf]
      rw [if_neg]
      rintro rfl
      cases ht
    rw [hreq]
    exact traces_fail (root_mismatch _ _)
  · have hempty : ∀ o, ¬ h.Reach c.writtenSlots v o :=
      reach_of_not_object fun o ho => hv ⟨o, ho⟩
    refine traces_then (traces_requireType _ _) fun _ _ => ?_
    refine traces_then (traces_writePresence e v) fun _ _ => ?_
    exact hk.congr fun o => iff_false_intro (hempty o)

theorem traces_writePlanned {e : FieldEntry} (he : e.serializer = none) (v : Value)
    {resolved : Option ConcreteType} {p : Plan} (hp : e.plan c resolved = .ok p) :
    c.Traces h A (h.Reach c.writtenSlots v) (c.writePlanned h nested e v p) := by
  cases p with
  | dynamic => exact traces_writeTagged hc hn v
  | known f =>
      refine traces_then (traces_requireType _ _) fun _ _ => ?_
      exact hn _ _ (hc.served_of_plan he hp).1
  | int =>
      refine traces_number rfl ?_
      cases v with
      | int n => exact traces_item (fun _ => id) _
      | _ => exact traces_pure (fun _ => id) _
  | long =>
      refine traces_number rfl ?_
      cases v with
      | long n => exact traces_item (fun _ => id) _
      | _ => exact traces_pure (fun _ => id) _

theorem traces_writeField {e : FieldEntry} (he : e.serializer = none) (o : ObjectId)
    (resolved : Option ConcreteType) :
    c.Traces h A (fun p => ∃ w, (h.get o).slots[e.slot.index]? = some w ∧
      h.Reach c.writtenSlots w p) (c.writeField h nested e o resolved) := by
  cases hg : e.slot.get h o with
  | error x =>
      rw [writeField_of_error _ _ _ hg]
      exact traces_fail (fun _ he => by cases he)
  | ok v =>
      rw [writeField_of_get _ _ _ hg]
      split
      · exact traces_fail (fun _ he => by cases he)
      · refine Traces.congr (S := h.Reach c.writtenSlots v) ?_ fun p => by
          simp [Slot.getElem?_of_get hg]
        refine traces_then (traces_ofExcept (fun x hx => ?_) fun _ => id) fun p hp =>
          traces_writePlanned hc hn he v hp.ofExcept
        obtain ⟨y, rfl⟩ := root_of_plan hx
        exact nofun

theorem traces_writeFields {r : RecordSerializer} (hr : r ∈ rs) (own : Option Resolution)
    (o : ObjectId) {t : FieldTable} (ht : ∀ e ∈ t, e ∈ r.entries) (index : Nat) :
    c.Traces h A (fun p => ∃ e ∈ t, e.serialized = true ∧
      ∃ w, (h.get o).slots[e.slot.index]? = some w ∧ h.Reach c.writtenSlots w p)
      (c.writeFields h nested r own o index t) := by
  induction t generalizing index with
  | nil => exact traces_pure (by simp) _
  | cons e t ih =>
      obtain ⟨he, ht⟩ := List.forall_mem_cons.mp ht
      simp only [writeFields]
      split
      · next hs =>
        refine traces_get_bind fun st => traces_bind (traces_inField
          (traces_writeField hc hn ((hc.plain r hr).follows.bare e he) o _)) (fun _ _ => ih ht _)
          fun p => ?_
        simp [hs]
      · next hs =>
        refine (ih ht _).congr fun p => ?_
        simp [hs]

/-- What stands inside a frame leads from the object to what its written slots hold. -/
theorem traces_writeBody {f : Frame} (hf : Served rs f.type f.serializer) (v : Value) :
    c.Traces h A (fun p => ∃ o, v = .object o ∧ Relation.TransGen (h.Leads c.writtenSlots) o p)
      (c.writeBody h nested f v) := by
  obtain ⟨t, s, args, nullable⟩ := f
  refine traces_then (traces_modify (fun _ => rfl) fun _ => id) fun _ _ => ?_
  cases hf with
  | stock hs =>
      cases t <;> cases hs <;> cases v <;>
        first | exact traces_item (by simp) _ | exact traces_fail (root_mismatch _ _)
  | @record r hr =>
      refine traces_then (traces_takeArguments r) fun own _ => ?_
      cases hi : h.instanceOf r.decl.id v with
      | error x =>
          refine traces_fail fun owner => ?_
          obtain ⟨t, w, rfl⟩ : ∃ t w, x = h.mismatch t w := by
            simp only [Heap.instanceOf] at hi
            split at hi
            · split at hi <;> cases hi
              exact ⟨_, _, rfl⟩
            · cases hi
              exact ⟨_, _, rfl⟩
          exact root_mismatch _ _ owner
      | ok o =>
          obtain ⟨rfl, howner⟩ := Heap.instanceOf_eq_ok.mp hi
          refine traces_inScope _ ((traces_writeFields hc hn hr own o (fun _ he => he) 0).congr ?_)
          intro p
          -- the written slots of the object are those of the entries of its serializer
          simp only [Value.object.injEq, exists_eq_left', Heap.transGen_leads_iff, howner,
            hc.slots_iff hr]
          constructor
          · rintro ⟨i, w, ⟨e, he, hs, rfl⟩, hw, hp⟩
            exact ⟨e, he, hs, w, hw, hp⟩
          · rintro ⟨e, he, hs, w, hw, hp⟩
            exact ⟨_, w, ⟨e, he, hs, rfl⟩, hw, hp⟩

end

theorem traces_writeFramed (hc : c.Lists rs) (hr : c.references = false) (n : Nat) {f : Frame}
    (hf : Served rs f.type f.serializer) (v : Value) :
    c.Traces h A (h.Reach c.writtenSlots v) (c.writeFramed h n f v) := by
  induction n generalizing A f v with
  | zero => exact fun st hst => ⟨hst, nofun⟩
  | succ n ih =>
      have hbody : ∀ B, _ := fun B => traces_writeBody (A := B) hc (fun f w hf => ih hf w) hf v
      rw [writeFramed_unmarked _ _ (by rw [hr, Bool.and_false])]
      split
      · next hnull =>
        obtain rfl := Value.eq_null_of_isNull hnull
        split
        · exact traces_item (reach_of_not_object (v := .null) nofun) _
        · exact traces_fail (fun _ he => by cases he)
      · refine traces_then ?_ fun _ _ => ?_
        · split
          · exact traces_item (fun _ => id) _
          · exact traces_pure (fun _ => id) _
        · cases v with
          | object o =>
              simp only [Value.object?, hr, Bool.false_eq_true, if_false]
              refine traces_onPath fun _ => (hbody _).congr fun p => ?_
              simp
          | _ => exact (hbody A).congr fun p => by simp [reach_of_not_object]

/-! ### The path -/

/-- Writes as `writeFramed` does, but fails with `x` where an object stands twice on the path. -/
def writeWatched (c : Codec) (h : Heap) (x : Failure) : (depth : Nat) → Frame → Value → WriteM Unit
  | 0, _, _ => throw .tooDeep
  | depth + 1, f, v => c.writeAround h f v do
    let st ← get
    if st.path.Nodup then c.writeBody h (c.writeWatched h x depth) f v else throw x

/-- **No object stands twice on the path**, so that nothing is ever noticed there. -/
theorem agrees_writeWatched (hc : c.Lists rs) (x : Failure) (n : Nat) (hA : A.Nodup) {f : Frame}
    (hf : Served rs f.type f.serializer) (v : Value) :
    Agrees (WriteState.Matches Eq A) (c.writeFramed h n f v) (c.writeWatched h x n f v) := by
  induction n generalizing A f v with
  | zero => exact agrees_throw _
  | succ n ih =>
      rw [writeFramed_succ, writeWatched]
      refine agrees_writeAround f v fun B hB => ?_
      have hbody := agrees_writeBody (h := h) hc (fun f w hf => ih (hB hA) hf w) hf v
      intro st st' hst
      have hnd : st'.path.Nodup := hst.path'.symm ▸ hB hA
      have hwatch : (do
          let st ← get
          if st.path.Nodup then c.writeBody h (c.writeWatched h x n) f v else throw x :
            WriteM Unit) st' = c.writeBody h (c.writeWatched h x n) f v st' := by
        show (if st'.path.Nodup then c.writeBody h (c.writeWatched h x n) f v else throw x :
          WriteM Unit) st' = _
        rw [if_pos hnd]
      rw [hwatch]
      exact hbody st st' hst

/-! ### Whole passes -/

/-- How a pass of writing ended tells whether there is a cycle below the value. -/
structure TellsCycles (c : Codec) (h : Heap) (v : Value) (w : Written) : Prop where
  ends : w.result ≠ .error .tooDeep
  found : ∀ e owner, w.result = .error (.error e) → e.root = .encode (.cycle owner) →
    ∃ o, h.Reach c.writtenSlots v o ∧ (h.get o).owner = owner ∧ h.OnCycle c.writtenSlots o
  clear : w.result = .ok () → ∀ o, h.Reach c.writtenSlots v o → ¬ h.OnCycle c.writtenSlots o

theorem tellsCycles_runWrite {out : Output} {v : Value} {body : WriteM Unit}
    (hends : (c.runWrite out body).result ≠ .error .tooDeep)
    (hbody : c.Traces h [] (h.Reach c.writtenSlots v) body) :
    c.TellsCycles h v (c.runWrite out body) := by
  have hb := hbody ⟨out, .empty, [], ⟨.empty, c.cells⟩⟩ rfl
  simp only [Meets] at hb
  rcases hrun : body ⟨out, .empty, [], ⟨.empty, c.cells⟩⟩ with ⟨e | ⟨⟩, st⟩ <;>
    rw [hrun] at hb <;> refine ⟨hends, ?_, ?_⟩ <;> rw [runWrite_of_run hrun]
  · intro y owner hy hroot
    cases hy
    obtain ⟨o, ho, howner, hcycle⟩ := hb.2 y owner rfl hroot
    exact ⟨o, ho, howner, hcycle.resolve_left List.not_mem_nil⟩
  · intro hok
    cases hok
  · intro y owner hy
    cases hy
  · exact fun _ o ho => (hb.2 o ho).2

theorem runWrite_of_agrees {out : Output} {body body' : WriteM Unit}
    (hb : Agrees (WriteState.Matches Eq []) body body') :
    c.runWrite out body' = c.runWrite out body := by
  obtain ⟨h₁, h₂⟩ := hb ⟨out, .empty, [], ⟨.empty, c.cells⟩⟩ _ ⟨rfl, rfl, rfl, rfl, rfl, rfl⟩
  rcases hrun : body ⟨out, .empty, [], ⟨.empty, c.cells⟩⟩ with ⟨x, st⟩
  rw [hrun] at h₁ h₂
  rw [runWrite_of_run hrun, runWrite_of_run (Prod.ext h₁ h₂.eq)]

/-- **Without references, writing tells exactly whether there is a cycle.**  It ends, and an object
of the class that it complains about is below the value and on a cycle of written slots; if it ends
well there is no such cycle below the value.  No object ever stands twice on the path, and behind
every value, written or not, the path is what it was in front of it. -/
theorem writeValue_cycles (hc : c.Standard) (hr : c.references = false) (h : Heap) (out : Output)
    (v : Value) (args : List ConcreteType) :
    c.TellsCycles h v (c.writeValue h out v) ∧
      c.TellsCycles h v (c.writeUntagged h out v args) ∧
      (∀ x, c.runWrite out (c.writeTagged h (c.writeWatched h x (writeDepth h)) v) =
        c.writeValue h out v) ∧
      (∀ x, c.runWrite out (c.writeFlat h (c.writeWatched h x (writeDepth h)) v args) =
        c.writeUntagged h out v args) ∧
      ∀ depth f w st, c.serializer f.type = .ok f.serializer →
        ((c.writeFramed h depth f w) st).2.path = st.path := by
  obtain ⟨rs, hc⟩ := hc.lists
  have htraces : ∀ f w, Served rs f.type f.serializer → c.Traces h []
      (h.Reach c.writtenSlots w) (c.writeFramed h (writeDepth h) f w) :=
    fun f w hf => traces_writeFramed hc hr _ hf w
  have hwatched : ∀ x f w, Served rs f.type f.serializer → Agrees (WriteState.Matches Eq [])
      (c.writeFramed h (writeDepth h) f w) (c.writeWatched h x (writeDepth h) f w) :=
    fun x f w hf => agrees_writeWatched hc x _ List.nodup_nil hf w
  refine ⟨?_, ?_, fun x => ?_, fun x => ?_, ?_⟩
  · exact tellsCycles_runWrite (hc.writeValue_ends h out v) (traces_writeTagged hc htraces v)
  · have hends := hc.writeUntagged_ends h out v args
    rw [writeUntagged_eq] at hends ⊢
    exact tellsCycles_runWrite hends (traces_writeFlat hc htraces v args)
  · exact runWrite_of_agrees (agrees_writeTagged hc (hwatched x) v)
  · exact runWrite_of_agrees (agrees_writeFlat hc (hwatched x) v args)
  · intro depth f w st hf
    have hw := traces_writeFramed (h := h) hc hr depth (hc.served_of_serializer hf) w st rfl
    simp only [Meets] at hw
    rcases hrun : c.writeFramed h depth f w st with ⟨e | a, st'⟩ <;> rw [hrun] at hw <;> exact hw.1

/-- Without references, a link to itself cannot be written. -/
theorem writeValue_cycles_links :
    let c := links.setReferences false
    let h : Heap := ⟨#[⟨link, [.object 0, .int 5]⟩]⟩
    (c.writeValue h .empty (.object 0)).result =
        .error (.error (.inField link.id "next" (.encode (.cycle link.id)))) ∧
      ∃ o, h.Reach c.writtenSlots (.object 0) o ∧ (h.get o).owner = link.id ∧
        h.OnCycle c.writtenSlots o := by
  intro c h
  have hresult : (c.writeValue h .empty (.object 0)).result =
      .error (.error (.inField link.id "next" (.encode (.cycle link.id)))) := by decide +kernel
  exact ⟨hresult, (writeValue_cycles (standard_links.setReferences false) rfl h .empty
    (.object 0) []).1.found _ _ hresult rfl⟩

end Codec

end GraphCodec
