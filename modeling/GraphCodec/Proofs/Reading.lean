import GraphCodec.Proofs.Steps

/-!
# Reading — what every pass of reading keeps

Whatever the bytes are and however a pass of reading ends, it has taken out all the type arguments
that it left for record serializers, and the objects that were in the heap before are still there
with their classes (`keeps_readFramed`).  All this holds of any way to look up the object of a
number.
-/

namespace GraphCodec

/-! ### Classes -/

/-- The objects of `g` are there in `h`, with the classes that they have in `g`. -/
structure Heap.Widens (g h : Heap) : Prop where
  size : g.size ≤ h.size
  owner : ∀ o < g.size, (h.get o).owner = (g.get o).owner

namespace Heap.Widens

variable {g h k : Heap}

theorem refl (h : Heap) : Widens h h := ⟨le_rfl, fun _ _ => rfl⟩

theorem trans (h₁ : Widens g h) (h₂ : Widens h k) : Widens g k :=
  ⟨h₁.size.trans h₂.size, fun o ho =>
    (h₂.owner o (Nat.lt_of_lt_of_le ho h₁.size)).trans (h₁.owner o ho)⟩

theorem alloc (h : Heap) (x : Object) : Widens h (h.alloc x).2 :=
  ⟨by rw [size_alloc]; omega, fun o ho => by rw [get_alloc_of_lt x ho]⟩

theorem store (h : Heap) (o : ObjectId) (i : Nat) (v : Value) : Widens h (h.store o i v) := by
  refine ⟨(size_store h o i v).ge, fun p hp => ?_⟩
  by_cases hpo : p = o
  · subst hpo
    rw [get_store_self i v hp]
    rfl
  · rw [get_store_of_ne i v hpo]

theorem typeOf (h₁ : Widens g h) {v : Value} (hv : v.Within (· < g.size)) :
    h.typeOf v = g.typeOf v := by
  cases v with
  | object o => exact congrArg (fun c => some (ValueType.object c)) (h₁.owner o (hv o rfl))
  | _ => rfl

end Heap.Widens

theorem Slot.eq_store_of_set {s : Slot} {h g : Heap} {o : ObjectId} {v old : Value}
    (hs : s.set h o v = .ok (old, g)) : g = h.store o s.index v := by
  simp only [set, setWhile] at hs
  cases hc : s.check (h.get o) <;> rw [hc] at hs
  · cases hs
  · cases hx : (h.get o).slots[s.index]? <;> rw [hx] at hs <;> cases hs
    rfl

/-! ### The invariant -/

/-- The cells are quiet, and the objects of `g` are there with their classes. -/
structure ReadState.Quiet (rs : List RecordSerializer) (g : Heap) (st : ReadState) : Prop where
  cells : st.typing.cells.Quiet rs
  widens : g.Widens st.heap

namespace Codec

open Pass

variable {α : Type} {c : Codec} {rs : List RecordSerializer} {g : Heap}

/-! ### Runs -/

theorem inScope_eq_ok {scope : Option TypeScope} {m : ReadM α} {st st' : ReadState} {a : α} :
    ReadM.inScope scope m st = (.ok a, st') ↔
      ∃ st₁, m { st with typing := st.typing.enter scope } = (.ok a, st₁) ∧
        { st₁ with typing := st₁.typing.leave scope } = st' := by
  simp only [ReadM.inScope]
  rcases m { st with typing := st.typing.enter scope } with ⟨x, st₁⟩
  constructor
  · rintro ⟨⟩
    exact ⟨st₁, rfl, rfl⟩
  · rintro ⟨_, ⟨⟩, rfl⟩
    rfl

theorem setSlot_run {s : Slot} {o : ObjectId} {st : ReadState} {v old : Value} {h : Heap}
    (hv : s.set st.heap o v = .ok (old, h)) :
    ReadM.setSlot s o v st = (.ok ⟨⟩, { st with heap := h }) := by
  show (Pass.ofExcept ((s.set st.heap o v).mapError CodecError.ofAccess) >>= fun x =>
    modify fun st => { st with heap := x.2 } : ReadM Unit) st = _
  rw [hv]
  rfl

theorem readInstance_eq (hc : c.Lists rs) {r : RecordSerializer} (hr : r ∈ rs) (st : ReadState) :
    c.readInstance r st =
      if r.decl.constructible then
        (.ok st.heap.size, { st with heap := (st.heap.alloc (.fresh r.decl)).2 })
      else
        (.error (.error (.construction r.decl.id "class has no zero-argument construction")),
          st) := by
  simp only [readInstance]
  rw [(hc.plain r hr).hooks]
  show (Pass.ofExcept (c.newInstance r.decl.id) >>= fun x => do
    let o ← ReadM.alloc x
    ReadM.setFields o []
    pure o : ReadM ObjectId) st = _
  rw [hc.newInstance_eq hr]
  split <;> rfl

theorem readInstance_run (hc : c.Lists rs) {r : RecordSerializer} (hr : r ∈ rs)
    (hd : r.decl.constructible = true) (st : ReadState) :
    c.readInstance r st =
      (.ok st.heap.size, { st with heap := (st.heap.alloc (.fresh r.decl)).2 }) := by
  rw [readInstance_eq hc hr, if_pos hd]

theorem constructible_of_readInstance (hc : c.Lists rs) {r : RecordSerializer} (hr : r ∈ rs)
    {o : ObjectId} (ho : CanReturn (c.readInstance r) o) : r.decl.constructible = true := by
  obtain ⟨st, st', ho⟩ := ho
  by_contra hd
  rw [readInstance_eq hc hr, if_neg hd] at ho
  cases ho

/-! ### Items and slots -/

theorem keeps_take (x : Read α) : Keeps (ReadState.Quiet rs g) (ReadM.take x) := by
  intro st h
  simp only [ReadM.take]
  rcases x.onInput st.input with ⟨_ | _, _⟩ <;> exact ⟨h.cells, h.widens⟩

theorem keeps_setSlot (s : Slot) (o : ObjectId) (v : Value) :
    Keeps (ReadState.Quiet rs g) (ReadM.setSlot s o v) := by
  intro st h
  show ReadState.Quiet rs g ((Pass.ofExcept ((s.set st.heap o v).mapError CodecError.ofAccess) >>=
    fun x => modify fun st => { st with heap := x.2 } : ReadM Unit) st).2
  cases hs : s.set st.heap o v with
  | error e => exact h
  | ok x =>
      refine ⟨h.cells, ?_⟩
      show g.Widens x.2
      rw [Slot.eq_store_of_set hs]
      exact h.widens.trans (.store _ _ _ _)

theorem keeps_known (number : Nat) : Keeps (ReadState.Quiet rs g) (ReadM.known number) :=
  keeps_get_bind fun st _ => by
    cases st.reservations.get? number with
    | some o => exact keeps_pure _
    | none => exact keeps_fail _

theorem keeps_supply_stock (s : Stock) (args : List ConcreteType) :
    Keeps (ReadState.Quiet rs g) (ReadM.supply (.stock s) args) := by
  intro st h
  rwa [ReadM.supply_stock_run]

theorem keeps_inScope (scope : Option TypeScope) {body : ReadM α}
    (hb : Keeps (ReadState.Quiet rs g) body) :
    Keeps (ReadState.Quiet rs g) (ReadM.inScope scope body) := by
  intro st h
  have hst := hb { st with typing := st.typing.enter scope } { h with }
  exact { hst with }

theorem keeps_numbered {body : ReadM Value} (hb : Keeps (ReadState.Quiet rs g) body) :
    Keeps (ReadState.Quiet rs g) (ReadM.numbered body) := by
  intro st h
  have hst := hb { st with reservations := st.reservations.reserve } { h with }
  simp only [ReadM.numbered]
  rcases hr : body { st with reservations := st.reservations.reserve } with ⟨_ | _, _⟩ <;>
    rw [hr] at hst <;> exact { hst with }

theorem keeps_readTag : Keeps (ReadState.Quiet rs g) c.readTag :=
  keeps_get_bind fun _ _ => keeps_bind (keeps_take _) fun n _ => by
    cases n with
    | zero => exact keeps_pure _
    | succ n =>
        simp only
        split
        · exact keeps_pure _
        · exact keeps_fail _

/-- A tag stands for a registration. -/
theorem registrationAt?_of_readTag {x : Registration} (hx : CanReturn c.readTag (some x)) :
    ∃ n, c.registrationAt? n = some x := by
  obtain ⟨st, st', hx⟩ := hx
  obtain ⟨_, _, -, hx⟩ := bind_eq_ok.mp hx
  obtain ⟨n, _, -, hx⟩ := bind_eq_ok.mp hx
  cases n with
  | zero => cases hx
  | succ n =>
      cases hr : c.registrationAt? n <;> simp only [hr] at hx
      · cases hx
      · cases hx
        exact ⟨n, hr⟩

/-! ### Fields and objects -/

theorem keeps_number (e : FieldEntry) (r : Read α) (f : α → Value) :
    Keeps (ReadState.Quiet rs g)
      (do if ← readPresence e then return f (← ReadM.take r) else return .null) := by
  have hpresence : Keeps (ReadState.Quiet rs g) (readPresence e) := by
    simp only [readPresence]
    split
    · exact keeps_take _
    · exact keeps_pure _
  refine keeps_bind hpresence fun b _ => ?_
  split
  · exact keeps_bind (keeps_take _) fun _ _ => keeps_pure _
  · exact keeps_pure _

section

variable (hc : c.Lists rs) {nested : Frame → ReadM Value}
  (hn : ∀ f, Served rs f.type f.serializer → Keeps (ReadState.Quiet rs g) (nested f))
include hc hn

theorem keeps_readTagged : Keeps (ReadState.Quiet rs g) (c.readTagged nested) :=
  keeps_bind keeps_readTag fun x hx => by
    cases x with
    | none => exact keeps_pure _
    | some x =>
        obtain ⟨n, hx⟩ := registrationAt?_of_readTag hx
        exact hn _ (hc.served_of_registrationAt? hx)

theorem keeps_readPlanned {e : FieldEntry} (he : e.serializer = none)
    {resolved : Option ConcreteType} {p : Plan} (hp : e.plan c resolved = .ok p) :
    Keeps (ReadState.Quiet rs g) (c.readPlanned nested e p) := by
  cases p with
  | dynamic => exact keeps_readTagged hc hn
  | known f => exact hn f (hc.served_of_plan he hp).1
  | int => exact keeps_number e _ Value.int
  | long => exact keeps_number e _ Value.long

theorem keeps_readFieldValue {e : FieldEntry} (he : e.serializer = none)
    (resolved : Option ConcreteType) :
    Keeps (ReadState.Quiet rs g) (c.readFieldValue nested e resolved) := by
  rw [readFieldValue_eq]
  exact keeps_bind (keeps_ofExcept _) fun p hp => keeps_readPlanned hc hn he hp.ofExcept

theorem keeps_readField {e : FieldEntry} (he : e.serializer = none) (o : ObjectId)
    (resolved : Option ConcreteType) :
    Keeps (ReadState.Quiet rs g) (c.readField nested e o resolved) := by
  refine keeps_bind (keeps_readFieldValue hc hn he resolved) fun v _ => ?_
  split
  · exact keeps_fail _
  · exact keeps_setSlot _ _ _

theorem keeps_readFields {r : RecordSerializer} (hr : r ∈ rs) (own : Option Resolution)
    (o : ObjectId) {t : FieldTable} (ht : ∀ e ∈ t, e ∈ r.entries) (index : Nat) :
    Keeps (ReadState.Quiet rs g) (c.readFields nested r own o index t) := by
  induction t generalizing index with
  | nil => exact keeps_pure _
  | cons e t ih =>
      obtain ⟨he, ht⟩ := List.forall_mem_cons.mp ht
      have hbare := (hc.plain r hr).follows.bare e he
      simp only [readFields]
      split
      · refine keeps_get_bind fun st _ => ?_
        exact keeps_bind (keeps_inField (keeps_readField hc hn hbare o _)) fun _ _ => ih ht _
      · exact ih ht _

omit hn in
theorem keeps_readInstance {r : RecordSerializer} (hr : r ∈ rs) :
    Keeps (ReadState.Quiet rs g) (c.readInstance r) := by
  intro st h
  rw [readInstance_eq hc hr]
  split
  · exact ⟨h.cells, h.widens.trans (.alloc _ _)⟩
  · exact h

theorem keeps_readBody {f : Frame} (hf : Served rs f.type f.serializer) :
    Keeps (ReadState.Quiet rs g) (c.readBody nested f) := by
  obtain ⟨t, s, args, nullable⟩ := f
  cases hf with
  | stock hs =>
      refine keeps_bind (keeps_supply_stock _ _) fun _ _ => ?_
      · cases t <;> cases hs <;> exact keeps_bind (keeps_take _) fun _ _ => keeps_pure _
  | record hr =>
      next r =>
      intro st h
      -- the arguments that are left right before the record is read are taken out at its start
      obtain ⟨cells, hq, hrun⟩ := ReadM.supply_takeArguments (α := Value) hr args h.cells
      simp only [readBody, readWith, readRecord]
      rw [hrun]
      refine keeps_bind (keeps_ofExcept _) (fun own _ => ?_) _ ⟨hq, h.widens⟩
      refine keeps_inScope _ (keeps_bind (keeps_readInstance hc hr) fun o _ => ?_)
      refine keeps_bind (keeps_modify fun _ h => { h with }) fun _ _ => ?_
      exact keeps_bind (keeps_readFields hc hn hr own o (fun _ he => he) 0)
        fun _ _ => keeps_pure _

theorem keeps_readFrame {back : ValueType → Nat → ReadM Value}
    (hback : ∀ t number, Keeps (ReadState.Quiet rs g) (back t number)) {f : Frame}
    (hf : Served rs f.type f.serializer) :
    Keeps (ReadState.Quiet rs g) (c.readFrame nested back f) := by
  have hbody := keeps_readBody hc hn hf
  simp only [readFrame]
  split
  · refine keeps_bind (keeps_take _) fun code _ => ?_
    split
    · split
      · exact keeps_pure _
      · exact keeps_fail _
    · exact hback _ _
    · exact keeps_numbered hbody
  · split
    · refine keeps_bind (keeps_take _) fun b _ => ?_
      split
      · exact hbody
      · exact keeps_pure _
    · exact hbody

end

theorem keeps_readFramed (hc : c.Lists rs) (n : Nat) (f : Frame)
    (hf : Served rs f.type f.serializer) : Keeps (ReadState.Quiet rs g) (c.readFramed n f) := by
  induction n generalizing f with
  | zero => exact fun _ h => h
  | succ n ih =>
      rw [readFramed_succ]
      exact keeps_readFrame hc ih (fun _ => keeps_known) hf

end Codec

end GraphCodec
