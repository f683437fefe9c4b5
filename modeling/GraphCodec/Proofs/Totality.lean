import GraphCodec.Proofs.Closed

/-!
# Reading — any bytes

Where objects keep their identity, the reader of a closed codec can handle any bytes
(`copes_readDirect`): it fails only because of them, or because a type tag asks for a class
without instances.  The marker in front of each new object pays for the object: the objects in the
heap and the bytes that are left do not become more (`ReadState.Proceeds`).  It also bounds the
depth, so that one level more than there are bytes is deep enough.
-/

namespace GraphCodec

/-- The objects of `g` are there in `h`, of their classes and with as many slots. -/
structure Heap.Enlarges (g h : Heap) : Prop extends Widens g h where
  length : ∀ o < g.size, (h.get o).slots.length = (g.get o).slots.length

namespace Heap.Enlarges

variable {g h k : Heap}

theorem refl (h : Heap) : Enlarges h h := ⟨.refl h, fun _ _ => rfl⟩

theorem trans (h₁ : Enlarges g h) (h₂ : Enlarges h k) : Enlarges g k :=
  ⟨h₁.toWidens.trans h₂.toWidens, fun o ho =>
    (h₂.length o (ho.trans_le h₁.size)).trans (h₁.length o ho)⟩

theorem alloc (h : Heap) (x : Object) : Enlarges h (h.alloc x).2 :=
  ⟨.alloc h x, fun o ho => by rw [get_alloc_of_lt x ho]⟩

theorem store (h : Heap) (o : ObjectId) (i : Nat) (v : Value) : Enlarges h (h.store o i v) := by
  refine ⟨.store h o i v, fun p hp => ?_⟩
  by_cases hpo : p = o
  · subst hpo
    rw [get_store_self i v hp]
    exact List.length_set
  · rw [get_store_of_ne i v hpo]

end Heap.Enlarges

/-- Reading has gone from `st` to `st'`: bytes were taken, and the objects in the heap together with
the bytes that are left have become more by at most `b`. -/
structure ReadState.Proceeds (b : Nat) (st st' : ReadState) : Prop where
  taken : st.input.Leaves st'.input
  created : st'.heap.size + st'.input.rest.length ≤ st.heap.size + st.input.rest.length + b
  heap : st.heap.Enlarges st'.heap
  scopes : st'.typing.scopes = st.typing.scopes

/-- All that is bound is bound to sound types, and fewer than `n` bytes are left. -/
structure ReadState.Ready (c : Codec) (n : Nat) (st : ReadState) : Prop where
  scopes : st.typing.scopes.Sound c
  left : st.input.rest.length < n

namespace ReadState

variable {c : Codec} {b b' n : Nat} {st st' st'' : ReadState}

theorem Proceeds.refl (st : ReadState) : Proceeds 0 st st := ⟨.refl _, le_rfl, .refl _, rfl⟩

theorem Proceeds.trans (h₁ : Proceeds b st st') (h₂ : Proceeds b' st' st'') {n : Nat}
    (hn : b + b' ≤ n) : Proceeds n st st'' where
  taken := h₁.taken.trans h₂.taken
  created := by
    have h₁ := h₁.created
    have h₂ := h₂.created
    omega
  heap := h₁.heap.trans h₂.heap
  scopes := h₂.scopes.trans h₁.scopes

/-- Each new object took a byte. -/
theorem Proceeds.bounds (h : Proceeds 0 st st') :
    ∃ taken, st.input.rest = taken ++ st'.input.rest ∧
      st'.input.position = st.input.position + taken.length ∧
      st.heap.size ≤ st'.heap.size ∧ st'.heap.size ≤ st.heap.size + taken.length := by
  obtain ⟨taken, hb, hpos⟩ := h.taken
  have hcreated := h.created
  rw [hb, List.length_append] at hcreated
  exact ⟨taken, hb, hpos, h.heap.size, by omega⟩

theorem Ready.proceeds (h : Ready c n st) (hp : Proceeds b st st') : Ready c n st' :=
  ⟨hp.scopes ▸ h.scopes, hp.taken.length_le.trans_lt h.left⟩

end ReadState

namespace Codec

open Pass

variable {α β : Type} {c : Codec} {rs : List RecordSerializer} {b b' n : Nat} {st st' : ReadState}

/-- The error is that there are no instances of a registered class. -/
def Unmakeable (c : Codec) (e : CodecError) : Prop :=
  ∃ owner reason r, e.root = .construction owner reason ∧ c.record (.object owner) = .ok r ∧
    r.decl.constructible = false

/-- The bytes are to blame, or there are no instances of a class. -/
def Expected (c : Codec) (e : Failure) : Prop :=
  ∃ x, e = .error x ∧ (x.kind = .decode ∨ c.Unmakeable x)

/-- The run from `st` proceeds, and fails in an expected way only. -/
def Copes (c : Codec) (b : Nat) (m : ReadM α) (st : ReadState) : Prop :=
  Meets m st (fun _ st' => st.Proceeds b st') (fun e st' => st.Proceeds b st' ∧ c.Expected e)

/-! ### How parts of reading compose -/

theorem copes_pure (a : α) : c.Copes 0 (pure a) st := ReadState.Proceeds.refl st

theorem copes_fail (e : DecodeError) : c.Copes 0 (fail (.decode e) : ReadM α) st :=
  ⟨.refl st, _, rfl, .inl rfl⟩

/-- A run from a later state, seen from an earlier one. -/
theorem Copes.since {m : ReadM α} (hm : c.Copes b' m st')
    (hp : ∀ st'', st'.Proceeds b' st'' → st.Proceeds b st'') :
    Meets m st' (fun _ st'' => st.Proceeds b st'')
      (fun e st'' => st.Proceeds b st'' ∧ c.Expected e) := by
  simp only [Copes, Meets] at hm ⊢
  rcases hr : m st' with ⟨e | a, st''⟩ <;> rw [hr] at hm
  · exact ⟨hp st'' hm.1, hm.2⟩
  · exact hp st'' hm

theorem copes_bind {m : ReadM β} {k : β → ReadM α} (hm : c.Copes 0 m st)
    (hk : ∀ a st', CanReturn m a → st.Proceeds 0 st' → c.Copes b (k a) st') :
    c.Copes b (m >>= k) st := by
  simp only [Copes, Meets] at hm
  simp only [Copes]
  rcases hr : m st with ⟨e | a, st'⟩ <;> rw [hr] at hm
  · refine meets_bind_of_error hr ⟨hm.1.trans (.refl _) (Nat.zero_le b), hm.2⟩
  · refine meets_bind_of_ok hr ?_
    exact (hk a st' ⟨st, st', hr⟩ hm).since fun _ hp => hm.trans hp (Nat.zero_add b).le

theorem copes_inField {owner : ClassId} {field : String} {m : ReadM α}
    (hm : c.Copes b m st) : c.Copes b (inField owner field m) st := by
  refine meets_inField hm ?_
  rintro _ st' ⟨hp, x, rfl, hx⟩
  exact ⟨hp, .inField owner field x, rfl, hx⟩

theorem copes_take {r : Read α} (hr : r.Advances) : c.Copes 0 (ReadM.take r) st := by
  have hp : ∀ input, st.input.Leaves input → st.Proceeds 0 { st with input := input } :=
    fun input hi => ⟨hi, Nat.add_le_add_left hi.length_le _, .refl _, rfl⟩
  simp only [Copes, Meets, ReadM.take]
  rcases h : r.onInput st.input with ⟨e | a, input⟩
  · exact ⟨hp input (hr.of_run h), _, rfl, .inl rfl⟩
  · exact hp input (hr.of_run h)

/-- A number that was read has taken a byte, which pays for an object. -/
theorem copes_varU32_bind {k : Nat → ReadM α}
    (hk : ∀ n input, st.input.Leaves input → input.rest.length < st.input.rest.length →
      c.Copes 1 (k n) { st with input := input }) :
    c.Copes 0 (ReadM.take Read.varU32 >>= k) st := by
  rcases h : Read.varU32.onInput st.input with ⟨e | n, input⟩ <;>
    have hleaves := (Read.advances_varint 32).of_run h
  · have hr : ReadM.take Read.varU32 st =
        (.error (.error (.decode e)), { st with input := input }) := by
      simp [ReadM.take, h]
    exact meets_bind_of_error hr
      ⟨⟨hleaves, Nat.add_le_add_left hleaves.length_le _, .refl _, rfl⟩, _, rfl, .inl rfl⟩
  · have hr : ReadM.take Read.varU32 st = (.ok n, { st with input := input }) := by
      simp [ReadM.take, h]
    have hlt := Read.length_lt_of_varU32 h
    refine meets_bind_of_ok hr ((hk n input hleaves hlt).since fun st'' hp => ?_)
    refine ⟨hleaves.trans hp.taken, ?_, hp.heap, hp.scopes⟩
    have hcreated : st''.heap.size + st''.input.rest.length ≤
      st.heap.size + input.rest.length + 1 := hp.created
    omega

theorem copes_inScope (scope : Option TypeScope) {m : ReadM α}
    (hm : c.Copes b m { st with typing := st.typing.enter scope }) :
    c.Copes b (ReadM.inScope scope m) st := by
  simp only [Copes, Meets, ReadM.inScope] at hm ⊢
  have hleave : ∀ st', ReadState.Proceeds b { st with typing := st.typing.enter scope } st' →
      st.Proceeds b { st' with typing := st'.typing.leave scope } := by
    intro st' hp
    refine ⟨hp.taken, hp.created, hp.heap, ?_⟩
    show st'.typing.scopes.leave scope = _
    rw [hp.scopes]
    exact ScopeStack.leave_enter _ _
  rcases hr : m { st with typing := st.typing.enter scope } with ⟨e | a, st'⟩ <;> rw [hr] at hm
  · exact ⟨hleave st' hm.1, hm.2⟩
  · exact hleave st' hm

theorem copes_numbered {m : ReadM Value}
    (hm : c.Copes b m { st with reservations := st.reservations.reserve }) :
    c.Copes b (ReadM.numbered m) st := by
  simp only [Copes, Meets, ReadM.numbered] at hm ⊢
  rcases hr : m { st with reservations := st.reservations.reserve } with ⟨e | a, st'⟩ <;>
    rw [hr] at hm
  · exact ⟨{ hm.1 with }, hm.2⟩
  · exact { hm with }

theorem copes_known (number : Nat) : c.Copes 0 (ReadM.known number) st := by
  refine meets_bind_of_ok (get_run st) ?_
  cases st.reservations.get? number with
  | none => exact copes_fail _
  | some o => exact copes_pure _

/-! ### Fields -/

theorem copes_readTag : c.Copes 0 c.readTag st := by
  refine meets_bind_of_ok (get_run st) ?_
  refine copes_bind (copes_take (Read.advances_varint 32)) fun n st' _ _ => ?_
  cases n with
  | zero => exact copes_pure _
  | succ n =>
      simp only
      split
      · exact copes_pure _
      · exact copes_fail _

theorem copes_number (e : FieldEntry) {r : Read α} (hr : r.Advances) (f : α → Value) :
    c.Copes 0 (do if ← readPresence e then return f (← ReadM.take r) else return .null) st := by
  have hpresence : c.Copes 0 (readPresence e) st := by
    simp only [readPresence]
    split
    · exact copes_take Read.advances_bool
    · exact copes_pure _
  refine copes_bind hpresence fun b st' _ _ => ?_
  split
  · exact copes_bind (copes_take hr) fun _ _ _ _ => copes_pure _
  · exact copes_pure _

theorem copes_readStock {nested : Frame → ReadM Value} {t : ValueType} {s : Stock}
    (hs : t.stock? = some s) : c.Copes 0 (c.readStock nested t s) st := by
  cases t <;> cases hs <;> refine copes_bind (copes_take ?_) fun _ _ _ _ => copes_pure _
  · exact Read.advances_bool
  · exact Read.advances_varI32 false
  · exact Read.advances_varI64 false
  · exact Read.advances_word32
  · exact Read.advances_word64
  · exact Read.advances_string

/-- The object has the slots of the class of the record serializer. -/
def InstanceOf (r : RecordSerializer) (h : Heap) (o : ObjectId) : Prop :=
  o < h.size ∧ (h.get o).owner = r.decl.id ∧ (h.get o).slots.length = r.decl.fields.length

theorem InstanceOf.enlarges {r : RecordSerializer} {g h : Heap} {o : ObjectId}
    (ho : InstanceOf r g o) (hg : g.Enlarges h) : InstanceOf r h o :=
  ⟨ho.1.trans_le hg.size, (hg.owner o ho.1).trans ho.2.1, (hg.length o ho.1).trans ho.2.2⟩

theorem instanceOf_alloc (r : RecordSerializer) (h : Heap) :
    InstanceOf r (h.alloc (.fresh r.decl)).2 h.size := by
  refine ⟨by rw [Heap.size_alloc]; exact Nat.lt_succ_self _, ?_, ?_⟩ <;> rw [Heap.get_alloc_self]
  · rfl
  · simp [Object.fresh]

/-- A slot of an instance can be set. -/
theorem InstanceOf.setSlot_run (hc : c.Lists rs) {r : RecordSerializer} (hr : r ∈ rs)
    {e : FieldEntry} (he : e ∈ r.entries) {o : ObjectId} (ho : InstanceOf r st.heap o) (v : Value) :
    ReadM.setSlot e.slot o v st =
      (.ok ⟨⟩, { st with heap := st.heap.store o e.slot.index v }) := by
  have hfollows := (hc.plain r hr).follows
  obtain ⟨old, hset⟩ := Slot.set_of_owner (ho.2.1.trans (hfollows.owner he).symm)
    (ho.2.2 ▸ hfollows.index_lt he) v
  exact Codec.setSlot_run hset

theorem copes_setSlot (hc : c.Lists rs) {r : RecordSerializer} (hr : r ∈ rs) {e : FieldEntry}
    (he : e ∈ r.entries) {o : ObjectId} (ho : InstanceOf r st.heap o) (v : Value) :
    c.Copes 0 (ReadM.setSlot e.slot o v) st := by
  refine meets_of_ok (ho.setSlot_run hc hr he v) ⟨.refl _, ?_, .store _ _ _ _, rfl⟩
  rw [Heap.size_store]
  exact le_rfl

section

variable (hc : c.Lists rs) (hcl : c.Closed) {nested : Frame → ReadM Value}
  (hn : ∀ f st, Served rs f.type f.serializer → ConcreteType.Sound c ⟨f.type, f.args⟩ →
    st.Ready c n → c.Copes 0 (nested f) st)
include hc hn

theorem copes_readTagged (hst : st.Ready c n) : c.Copes 0 (c.readTagged nested) st := by
  refine copes_bind copes_readTag fun x st' hx hp => ?_
  cases x with
  | none => exact copes_pure _
  | some x =>
      obtain ⟨n, hx⟩ := registrationAt?_of_readTag hx
      have hserved := hc.served_of_registrationAt? hx
      refine hn x.frame st' hserved ?_ (hst.proceeds hp)
      -- behind a tag there are no type arguments
      refine .intro (fun owner ho => ?_) nofun
      obtain ⟨t, s, exposed⟩ := x
      cases hserved with
      | stock hs =>
          cases ho
          cases hs
      | record hr =>
          cases ho
          exact ⟨_, hc.record_eq hr, .inl rfl⟩

include hcl

theorem copes_readFieldValue {r : RecordSerializer} (hr : r ∈ rs) {e : FieldEntry}
    (he : e ∈ r.entries) (hst : st.Ready c n) {resolved : Option ConcreteType}
    (hres : ∀ k, resolved = some k → k.Sound c) :
    c.Copes 0 (c.readFieldValue nested e resolved) st := by
  obtain ⟨p, hp, hframe⟩ := hcl.plan hc hr he hres
  rw [readFieldValue_eq, hp]
  simp only [Pass.ofExcept, pure_bind]
  cases p with
  | dynamic => exact copes_readTagged hc hn hst
  | known f =>
      obtain ⟨hserved, hsound⟩ := hframe f rfl
      exact hn f st hserved hsound hst
  | int =>
      refine copes_number e ?_ Value.int
      split
      · exact Read.advances_varI32 _
      · exact Read.advances_i32
  | long =>
      refine copes_number e ?_ Value.long
      split
      · exact Read.advances_varI64 _
      · exact Read.advances_i64

theorem copes_readField {r : RecordSerializer} (hr : r ∈ rs) {e : FieldEntry}
    (he : e ∈ r.entries) (hst : st.Ready c n) {o : ObjectId} (ho : InstanceOf r st.heap o)
    {resolved : Option ConcreteType} (hres : ∀ k, resolved = some k → k.Sound c) :
    c.Copes 0 (c.readField nested e o resolved) st := by
  refine copes_bind (copes_readFieldValue hc hcl hn hr he hst hres) fun v st' _ hp => ?_
  split
  · exact copes_fail _
  · exact copes_setSlot hc hr he (ho.enlarges hp.heap) v

theorem copes_readFieldsDirect {r : RecordSerializer} (hr : r ∈ rs) {own : Option TypeScope}
    (hown : ∀ x, own = some x → x.Sound c) {t : FieldTable} (ht : ∀ e ∈ t, e ∈ r.entries)
    (hst : st.Ready c n) {o : ObjectId} (ho : InstanceOf r st.heap o) :
    c.Copes 0 (c.readFieldsDirect nested r own o t) st := by
  induction t generalizing st with
  | nil => exact copes_pure _
  | cons e t ih =>
      obtain ⟨he, ht⟩ := List.forall_mem_cons.mp ht
      simp only [readFieldsDirect]
      split
      · refine meets_bind_of_ok (get_run st) ?_
        refine copes_bind (copes_inField (copes_readField hc hcl hn hr he hst ho ?_))
          fun _ st' _ hp => ih ht (hst.proceeds hp) (ho.enlarges hp.heap)
        exact fun k hk => hcl.sound_fieldType hc hr he hown hst.scopes hk
      · exact ih ht hst ho

/-- Reading an object creates it, beyond what the bytes in it pay for. -/
theorem copes_readRecordDirect {r : RecordSerializer} (hr : r ∈ rs) {args : List ConcreteType}
    (hargs : ConcreteType.Sound c ⟨r.decl.type, args⟩) (hst : st.Ready c n) :
    c.Copes 1 (c.readRecordDirect nested r args) st := by
  obtain ⟨own, hown, hsound⟩ := hargs.bindings (hc.record_eq hr)
  simp only [readRecordDirect, hown, Except.mapError, Pass.ofExcept, pure_bind]
  refine copes_inScope own ?_
  have hst : ReadState.Ready c n { st with typing := st.typing.enter own } :=
    ⟨hst.scopes.enter hsound, hst.left⟩
  cases hd : r.decl.constructible with
  | false =>
      refine meets_bind_of_error (by rw [readInstance_eq hc hr, hd]; rfl) ?_
      refine ⟨(ReadState.Proceeds.refl _).trans (.refl _) (Nat.zero_le 1), _, rfl, .inr ?_⟩
      exact ⟨_, _, r, rfl, hc.record_eq hr, hd⟩
  | true =>
      refine meets_bind_of_ok (readInstance_run hc hr hd _) ?_
      have hp : ∀ reservations : Reservations,
          ReadState.Proceeds 1 { st with typing := st.typing.enter own }
            { st with
              typing := st.typing.enter own
              heap := (st.heap.alloc (.fresh r.decl)).2
              reservations := reservations } := fun _ =>
        ⟨.refl _, by rw [Heap.size_alloc, Nat.add_right_comm], .alloc _ _, rfl⟩
      refine meets_bind_of_ok (modify_run _ _) ?_
      refine Copes.since (show c.Copes 0 _ _ from ?_) fun _ hp' => (hp _).trans hp' le_rfl
      exact copes_bind (copes_readFieldsDirect hc hcl hn hr hsound (fun _ he => he)
        (hst.proceeds (hp _)) (instanceOf_alloc r st.heap)) fun _ _ _ _ => copes_pure _

end

theorem copes_readDirect (hc : c.Lists rs) (hcl : c.Closed) (href : c.references = true) (f : Frame)
    (hf : Served rs f.type f.serializer) (hsound : ConcreteType.Sound c ⟨f.type, f.args⟩)
    (hst : st.Ready c n) : c.Copes 0 (c.readDirect n f) st := by
  induction n generalizing f st with
  | zero => exact absurd hst.left (Nat.not_lt_zero _)
  | succ n ih =>
      obtain ⟨t, s, args, nullable⟩ := f
      simp only [readDirect, readAround, href, Bool.and_true]
      cases hf with
      | stock hs =>
          have ht : t.isReference = false := ValueType.isReference_of_stock? hs
          rw [ht]
          simp only [Bool.false_eq_true, if_false, readWithDirect]
          split
          · refine copes_bind (copes_take Read.advances_bool) fun b st' _ _ => ?_
            split
            · exact copes_readStock hs
            · exact copes_pure _
          · exact copes_readStock hs
      | @record r hr =>
          simp only [ValueType.isReference, if_true, readWithDirect]
          refine copes_varU32_bind fun code input hleaves hlt => ?_
          -- behind the marker there is a byte less, and the depth is less by one
          have hst : ReadState.Ready c n { st with input := input } :=
            ⟨hst.scopes, Nat.lt_of_lt_of_le hlt (Nat.le_of_lt_succ hst.left)⟩
          have hweak : ∀ {m : ReadM Value} {st}, c.Copes 0 m st → c.Copes 1 m st :=
            fun hm => hm.since fun _ hp => hp.trans (.refl _) (Nat.zero_le 1)
          split
          · split
            · exact hweak (copes_pure _)
            · exact hweak (copes_fail _)
          · exact hweak (copes_known _)
          · refine copes_numbered ?_
            exact copes_readRecordDirect hc hcl (fun f st hf hs hst => ih f hf hs hst) hr hsound
              { hst with }

/-- A pass that agrees with one that proceeds does so too. -/
theorem Copes.of_agrees {P : ArgumentCells → ArgumentCells → Prop} {k : Nat} {m m' : ReadM α}
    (hm' : c.Copes b m' st) (hm : Agrees (ReadState.Matches P k) m m')
    (hst : ReadState.Matches P k st st) : c.Copes b m st := by
  obtain ⟨h₁, h₂⟩ := hm st st hst
  simp only [Copes, Meets] at hm' ⊢
  have hproceeds : st.Proceeds b (m' st).2 → st.Proceeds b (m st).2 := fun hp =>
    ⟨h₂.input ▸ hp.taken, by rw [← h₂.input, ← h₂.heap]; exact hp.created, h₂.heap ▸ hp.heap,
      h₂.scopes.symm.trans hp.scopes⟩
  rcases hr : m st with ⟨e | a, t⟩ <;> rcases hr' : m' st with ⟨e' | a', t'⟩ <;>
    rw [hr, hr'] at h₁ hproceeds <;> rw [hr'] at hm' <;> cases h₁
  · exact ⟨hproceeds hm'.1, hm'.2⟩
  · exact hproceeds hm'

theorem copes_readValue (hc : c.Lists rs) (hcl : c.Closed) (href : c.references = true) (g : Heap)
    {input : Input} (hd : input.rest.length < n) :
    c.Copes 0 (c.readTagged (c.readFramed n)) ⟨input, g, .empty, ⟨.empty, c.cells⟩⟩ := by
  have hdirect : c.Copes 0 (c.readTagged (c.readDirect n))
      ⟨input, g, .empty, ⟨.empty, c.cells⟩⟩ :=
    copes_readTagged hc (fun f st hf hs hst => copes_readDirect hc hcl href f hf hs hst)
      ⟨nofun, hd⟩
  exact hdirect.of_agrees (agrees_readTagged hc fun f => agrees_readDirect hc c.cells n f)
    (matches_start hc g input)

end Codec

end GraphCodec
