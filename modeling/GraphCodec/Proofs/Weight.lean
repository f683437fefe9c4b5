import GraphCodec.Proofs.Openings

/-!
# Reading — what an object weighs

Without references, an object that was read has taken a byte, or it is weightless
(`takes_readDirect`).  The other way round, nothing in the input has an influence on reading a
weightless object: it ends well, unless the pass may not go deep enough (`floats_readDirect`).  So
an object that falls on and on is never read, however deep the pass may go (`sinks_readDirect`).
-/

namespace GraphCodec

namespace Codec

open Pass

variable {α β : Type} {c : Codec} {rs : List RecordSerializer} {st : ReadState} {s s' : Opening}
  {own : Option TypeScope} {e : FieldEntry}

/-- Without references a frame is a presence byte, where null may stand, and what stands inside. -/
theorem readDirect_succ (hr : c.references = false) (n : Nat) (f : Frame) :
    c.readDirect (n + 1) f =
      if f.nullable then (do
        if ← ReadM.take Read.bool then
          c.readWithDirect (c.readDirect n) f.type f.args f.serializer
        else return .null)
      else c.readWithDirect (c.readDirect n) f.type f.args f.serializer := by
  simp only [readDirect, readAround, hr, Bool.and_false]
  rfl

theorem readWithDirect_of_opens {f : Frame} {scopes : ScopeStack} (hf : f.Opens scopes s)
    (nested : Frame → ReadM Value) :
    c.readWithDirect nested f.type f.args f.serializer =
      c.readRecordDirect nested s.record s.args := by
  rw [hf.serializer, hf.args]
  rfl

/-- Puts a value that was read into the slot of its field. -/
def putField (e : FieldEntry) (o : ObjectId) (v : Value) : ReadM Unit := do
  if v.isNull && !e.nullable then Pass.fail (.decode .unexpectedNull)
  ReadM.setSlot e.slot o v

/-- A field of the object is read as it is planned there. -/
theorem readField_eq_planIn (nested : Frame → ReadM Value) (o : ObjectId)
    (hst : st.typing.scopes = s.scopes.enter own) :
    c.readField nested e o (s.record.fieldType own st.typing.scopes e) =
      (Pass.ofExcept (c.planIn s own e) >>= c.readPlanned nested e) >>= putField e o := by
  rw [hst]
  exact congrArg (· >>= putField e o) (readFieldValue_eq c nested e _)

/-! ### What was taken -/

/-- When the pass ends well, it is back in the scopes in which it started, and it has taken a byte,
or none, and then `W` holds. -/
def Takes (W : Prop) (m : ReadM α) (st : ReadState) : Prop :=
  ∀ a st', m st = (.ok a, st') → st'.typing.scopes = st.typing.scopes ∧
    (st'.input.rest.length < st.input.rest.length ∨ st'.input = st.input ∧ W)

section

variable {W X : Prop}

theorem takes_mono {m : ReadM α} (hm : Takes W m st) (h : W → X) : Takes X m st :=
  fun a st' hr => (hm a st' hr).imp_right fun ht => ht.imp_right (And.imp_right h)

theorem takes_pure (a : α) : Takes True (pure a) st := by
  rintro _ _ ⟨⟩
  exact ⟨rfl, .inr ⟨rfl, trivial⟩⟩

theorem takes_fail (e : CodecError) : Takes W (fail e : ReadM α) st := nofun

theorem takes_take {r : Read α} (hr : r.Bites) : Takes False (ReadM.take r) st := by
  intro a st' h
  simp only [ReadM.take] at h
  rcases hx : r.onInput st.input with ⟨_ | a, j⟩ <;> rw [hx] at h <;> cases h
  exact ⟨rfl, .inl (hr hx)⟩

theorem takes_bind {m : ReadM β} {k : β → ReadM α} (hm : Takes W m st)
    (hk : ∀ b st', m st = (.ok b, st') → st'.typing.scopes = st.typing.scopes →
      Takes X (k b) st') : Takes (W ∧ X) (m >>= k) st := by
  intro a st' h
  obtain ⟨b, st₁, h₁, h₂⟩ := bind_eq_ok.mp h
  obtain ⟨hs₁, ht₁⟩ := hm b st₁ h₁
  obtain ⟨hs₂, ht₂⟩ := hk b st₁ h₁ hs₁ a st' h₂
  refine ⟨hs₂.trans hs₁, ?_⟩
  rcases ht₁ with hlt₁ | ⟨hi₁, hW⟩ <;> rcases ht₂ with hlt₂ | ⟨hi₂, hX⟩
  · exact .inl (hlt₂.trans hlt₁)
  · exact .inl (hi₂ ▸ hlt₁)
  · exact .inl (hi₁ ▸ hlt₂)
  · exact .inr ⟨hi₂.trans hi₁, hW, hX⟩

/-- What the second part takes need not be known. -/
theorem takes_bind_left {m : ReadM β} {k : β → ReadM α} (hm : Takes W m st)
    (hk : ∀ b st', m st = (.ok b, st') → Takes True (k b) st') : Takes W (m >>= k) st :=
  takes_mono (takes_bind hm fun b st' h _ => hk b st' h) And.left

theorem takes_get_bind {k : ReadState → ReadM α} (hk : Takes W (k st) st) :
    Takes W (get >>= k) st := hk

theorem takes_inField {owner : ClassId} {field : String} {m : ReadM α} (hm : Takes W m st) :
    Takes W (inField owner field m) st :=
  fun a st' h => hm a st' (inField_eq_ok.mp h)

theorem takes_inScope (scope : Option TypeScope) {m : ReadM α}
    (hm : Takes W m { st with typing := st.typing.enter scope }) :
    Takes W (ReadM.inScope scope m) st := by
  intro a st' h
  obtain ⟨st₁, h₁, rfl⟩ := inScope_eq_ok.mp h
  obtain ⟨hs, ht⟩ := hm a st₁ h₁
  refine ⟨?_, ht⟩
  show st₁.typing.scopes.leave scope = _
  rw [hs]
  exact ScopeStack.leave_enter _ _

theorem takes_ofExcept (x : Except CodecError α) : Takes True (Pass.ofExcept x : ReadM α) st := by
  cases x with
  | error e => exact takes_fail e
  | ok a => exact takes_pure a

end

/-- A value for which something is read takes a byte. -/
theorem takes_take_return {r : Read α} (hr : r.Bites) (f : α → Value) :
    Takes False (do return f (← ReadM.take r) : ReadM Value) st :=
  takes_bind_left (takes_take hr) fun _ _ _ => takes_pure _

theorem takes_readTag : Takes False c.readTag st := by
  refine takes_get_bind (takes_bind_left (takes_take (Read.bites_varint 32)) fun n st' _ => ?_)
  cases n with
  | zero => exact takes_pure _
  | succ n =>
      simp only
      split
      · exact takes_pure _
      · exact takes_fail _

theorem takes_number (e : FieldEntry) {r : Read α} (hr : r.Bites) (f : α → Value) :
    Takes False (do if ← readPresence e then return f (← ReadM.take r) else return .null) st := by
  simp only [readPresence]
  split
  · refine takes_bind_left (takes_take Read.bites_bool) fun b _ _ => ?_
    split
    · exact takes_mono (takes_take_return hr f) False.elim
    · exact takes_pure _
  · simp only [pure_bind]
    exact takes_take_return hr f

theorem takes_readStock {nested : Frame → ReadM Value} {t : ValueType} {x : Stock}
    (hx : t.stock? = some x) : Takes False (c.readStock nested t x) st := by
  cases t <;> cases hx
  · exact takes_take_return Read.bites_bool _
  · exact takes_take_return (Read.bites_varI32 _) _
  · exact takes_take_return (Read.bites_varI64 _) _
  · exact takes_take_return Read.bites_word32 _
  · exact takes_take_return Read.bites_word64 _
  · exact takes_take_return Read.bites_string _

theorem takes_setSlot (slot : Slot) (o : ObjectId) (v : Value) :
    Takes True (ReadM.setSlot slot o v) st := by
  intro _ st'' h
  obtain ⟨x, st₁, h₁, h₂⟩ := bind_eq_ok.mp h
  cases h₁
  obtain ⟨y, st₂, h₃, h₄⟩ := bind_eq_ok.mp h₂
  obtain ⟨-, rfl⟩ := ofExcept_eq_ok.mp h₃
  cases h₄
  exact ⟨rfl, .inr ⟨rfl, trivial⟩⟩

theorem takes_putField (e : FieldEntry) (o : ObjectId) (v : Value) :
    Takes True (putField e o v) st := by
  simp only [putField]
  split
  · exact takes_fail _
  · exact takes_setSlot _ _ _

/-- The frame has no byte of its own, and it is one for a weightless object. -/
def WeighsNothing (c : Codec) (f : Frame) (scopes : ScopeStack) : Prop :=
  f.nullable = false ∧ ∃ s, f.Opens scopes s ∧ c.Weightless s

section

variable (hc : c.Lists rs) {nested : Frame → ReadM Value}
  (hn : ∀ f st, Served rs f.type f.serializer →
    Takes (c.WeighsNothing f st.typing.scopes) (nested f) st)
include hc hn

theorem takes_readTagged : Takes False (c.readTagged nested) st := by
  refine takes_bind_left takes_readTag fun x st' hx => ?_
  cases x with
  | none => exact takes_pure _
  | some x =>
      obtain ⟨n, hx⟩ := registrationAt?_of_readTag ⟨st, st', hx⟩
      exact takes_mono (hn _ _ (hc.served_of_registrationAt? hx)) fun _ => trivial

theorem takes_readPlanned (hs : s.record ∈ rs) (he : e ∈ s.record.entries)
    (hst : st.typing.scopes = s.scopes.enter own) {p : Plan} (hplan : c.planIn s own e = .ok p) :
    Takes (c.HoldsWeightless s own e) (c.readPlanned nested e p) st := by
  cases p with
  | dynamic => exact takes_mono (takes_readTagged hc hn) False.elim
  | known f =>
      refine takes_mono (hn f st (served_of_planIn hc hs he hplan).1) ?_
      rintro ⟨hnull, s', hf, hw⟩
      exact ⟨s', ⟨f, hplan, hnull, hst ▸ hf⟩, hw⟩
  | int =>
      refine takes_mono (takes_number e ?_ Value.int) False.elim
      split
      · exact Read.bites_varI32 _
      · exact Read.bites_i32
  | long =>
      refine takes_mono (takes_number e ?_ Value.long) False.elim
      split
      · exact Read.bites_varI64 _
      · exact Read.bites_i64

theorem takes_readField (hs : s.record ∈ rs) (he : e ∈ s.record.entries)
    (hst : st.typing.scopes = s.scopes.enter own) (o : ObjectId) :
    Takes (c.HoldsWeightless s own e)
      (c.readField nested e o (s.record.fieldType own st.typing.scopes e)) st := by
  rw [readField_eq_planIn nested o hst]
  refine takes_bind_left ?_ fun v _ _ => takes_putField e o v
  refine takes_mono (takes_bind (takes_ofExcept _) fun p st' hp _ => ?_) And.right
  obtain ⟨hplan, rfl⟩ := ofExcept_eq_ok.mp hp
  exact takes_readPlanned hc hn hs he hst hplan

theorem takes_readFieldsDirect (hs : s.record ∈ rs) {t : FieldTable}
    (ht : ∀ e ∈ t, e ∈ s.record.entries) (hst : st.typing.scopes = s.scopes.enter own)
    (o : ObjectId) :
    Takes (∀ e ∈ t, e.serialized = true → c.HoldsWeightless s own e)
      (c.readFieldsDirect nested s.record own o t) st := by
  induction t generalizing st with
  | nil => exact takes_mono (takes_pure _) fun _ => nofun
  | cons e t ih =>
      obtain ⟨he, ht⟩ := List.forall_mem_cons.mp ht
      simp only [readFieldsDirect]
      split
      · refine takes_get_bind (takes_mono (takes_bind (takes_inField
          (takes_readField hc hn hs he hst o)) fun _ st' _ hscopes => ih ht (hscopes.trans hst)) ?_)
        rintro ⟨hfield, hfields⟩
        exact List.forall_mem_cons.mpr ⟨fun _ => hfield, hfields⟩
      · next hser =>
        refine takes_mono (ih ht hst) fun hfields => ?_
        exact List.forall_mem_cons.mpr ⟨fun h => absurd h hser, hfields⟩

theorem takes_readRecordDirect (hs : s.record ∈ rs) (hst : st.typing.scopes = s.scopes) :
    Takes (c.Weightless s) (c.readRecordDirect nested s.record s.args) st := by
  simp only [readRecordDirect]
  cases hown : s.record.bindings s.args with
  | error x => exact takes_fail _
  | ok own =>
      simp only [Except.mapError, Pass.ofExcept, pure_bind]
      refine takes_inScope own ?_
      have hinstance : ∀ {st}, Takes (s.record.decl.constructible = true) (c.readInstance s.record)
          st := by
        intro st o st' h
        rw [readInstance_eq hc hs] at h
        split at h <;> cases h
        next hmade => exact ⟨rfl, .inr ⟨rfl, hmade⟩⟩
      have hreference : ∀ {st} o, Takes True (ReadM.reference o) st := by
        rintro st o _ _ ⟨⟩
        exact ⟨rfl, .inr ⟨rfl, trivial⟩⟩
      have hfields : ∀ {st : ReadState} o, st.typing.scopes = s.scopes.enter own →
          Takes (∀ e ∈ s.record.entries, e.serialized = true → c.HoldsWeightless s own e)
            (c.readFieldsDirect nested s.record own o s.record.entries) st :=
        fun o h => takes_readFieldsDirect hc hn hs (fun _ he => he) h o
      refine takes_mono (takes_bind hinstance fun o st₁ _ h₁ =>
        takes_bind (hreference o) fun _ st₂ _ h₂ => takes_bind (hfields o ?_)
          fun _ _ _ _ => takes_pure _) ?_
      · rw [h₂, h₁]
        exact congrArg (ScopeStack.enter · own) hst
      · rintro ⟨hmade, -, hfields, -⟩
        -- each field has an opening of its own
        have hnext : ∀ e, ∃ s', e ∈ s.record.entries → e.serialized = true →
            c.HoldsBare s own e s' ∧ c.Weightless s' := by
          intro e
          by_cases he : e ∈ s.record.entries ∧ e.serialized = true
          · obtain ⟨s', h⟩ := hfields e he.1 he.2
            exact ⟨s', fun _ _ => h⟩
          · exact ⟨s, fun h₁ h₂ => absurd ⟨h₁, h₂⟩ he⟩
        choose next hnext using hnext
        exact .intro next hown hmade (fun e he h => (hnext e he h).1)
          fun e he h => (hnext e he h).2

end

/-- **An object that was read without a byte is weightless.** -/
theorem takes_readDirect (hc : c.Lists rs) (hr : c.references = false) (n : Nat) (f : Frame)
    (st : ReadState) (hf : Served rs f.type f.serializer) :
    Takes (c.WeighsNothing f st.typing.scopes) (c.readDirect n f) st := by
  induction n generalizing f st with
  | zero => exact nofun
  | succ n ih =>
      have hbody : ∀ {st : ReadState}, Takes (∃ s, f.Opens st.typing.scopes s ∧ c.Weightless s)
          (c.readWithDirect (c.readDirect n) f.type f.args f.serializer) st := by
        intro st
        rcases f.stock_or_opens hf st.typing.scopes with ⟨x, hx, hser⟩ | ⟨s, hopens, hs⟩
        · rw [hser]
          exact takes_mono (takes_readStock hx) False.elim
        · rw [readWithDirect_of_opens hopens]
          exact takes_mono (takes_readRecordDirect hc ih hs hopens.scopes.symm)
            fun hw => ⟨s, hopens, hw⟩
      rw [readDirect_succ hr]
      cases hnull : f.nullable with
      | true =>
          refine takes_mono (takes_bind_left (takes_take Read.bites_bool) fun b st' _ => ?_)
            False.elim
          split
          · exact takes_mono hbody fun _ => trivial
          · exact takes_pure _
      | false => exact takes_mono hbody fun h => ⟨hnull, h⟩

/-! ### What is never reached -/

/-- Whatever the input is, the pass ends well with an answer as in `P`, or it gets too deep. -/
def Floats (P : α → Prop) (m : ReadM α) (st : ReadState) : Prop :=
  (m st).1 = .error .tooDeep ∨ ∃ a st', m st = (.ok a, st') ∧ P a ∧
    st'.typing.scopes = st.typing.scopes ∧ st.heap.Enlarges st'.heap

/-- The pass gets too deep. -/
def Sinks (m : ReadM α) (st : ReadState) : Prop := (m st).1 = .error .tooDeep

section

variable {P : α → Prop} {Q : β → Prop}

theorem floats_of_ok {m : ReadM α} {a : α} {st' : ReadState} (h : m st = (.ok a, st')) (ha : P a)
    (hs : st'.typing.scopes = st.typing.scopes) (hh : st.heap.Enlarges st'.heap) :
    Floats P m st :=
  .inr ⟨a, st', h, ha, hs, hh⟩

theorem sinks_bind {m : ReadM β} (hm : Sinks m st) (k : β → ReadM α) : Sinks (m >>= k) st := by
  unfold Sinks at hm ⊢
  rcases h : m st with ⟨e | b, st'⟩ <;> rw [h] at hm <;> cases hm
  rw [bind_of_error h]

theorem floats_bind {m : ReadM β} {k : β → ReadM α} (hm : Floats Q m st)
    (hk : ∀ b st', Q b → st'.typing.scopes = st.typing.scopes → st.heap.Enlarges st'.heap →
      Floats P (k b) st') : Floats P (m >>= k) st := by
  rcases hm with hdeep | ⟨b, st', h, hb, hs, hh⟩
  · exact .inl (sinks_bind hdeep k)
  · rcases hk b st' hb hs hh with hdeep | ⟨a, st'', h', ha, hs', hh'⟩
    · exact .inl (by rw [bind_of_ok h, hdeep])
    · exact .inr ⟨a, st'', (bind_of_ok h k).trans h', ha, hs'.trans hs, hh.trans hh'⟩

theorem sinks_bind_of_floats {m : ReadM β} {k : β → ReadM α} (hm : Floats Q m st)
    (hk : ∀ b st', Q b → st'.typing.scopes = st.typing.scopes → st.heap.Enlarges st'.heap →
      Sinks (k b) st') : Sinks (m >>= k) st := by
  rcases hm with hdeep | ⟨b, st', h, hb, hs, hh⟩
  · exact sinks_bind hdeep k
  · rw [Sinks, bind_of_ok h]
    exact hk b st' hb hs hh

theorem sinks_get_bind {k : ReadState → ReadM α} (hk : Sinks (k st) st) :
    Sinks (get >>= k) st := hk

theorem floats_get_bind {k : ReadState → ReadM α} (hk : Floats P (k st) st) :
    Floats P (get >>= k) st := hk

theorem Sinks.of_run {m m' : ReadM α} {st₁ : ReadState} (h : m st = m' st₁) (hm : Sinks m' st₁) :
    Sinks m st := by
  rwa [Sinks, h]

theorem Floats.of_run {m m' : ReadM α} {st₁ : ReadState} (h : m st = m' st₁)
    (hm : Floats P m' st₁) (hh : st.heap.Enlarges st₁.heap)
    (hs : st₁.typing.scopes = st.typing.scopes) : Floats P m st := by
  rcases hm with hdeep | ⟨a, st', hr, ha, hs', hh'⟩
  · exact .inl (by rw [h, hdeep])
  · exact .inr ⟨a, st', h.trans hr, ha, hs'.trans hs, hh.trans hh'⟩

theorem sinks_inField (owner : ClassId) (field : String) {m : ReadM α} (hm : Sinks m st) :
    Sinks (inField owner field m) st := by
  unfold Sinks at hm ⊢
  simp only [inField]
  rcases h : m st with ⟨e | a, st'⟩ <;> rw [h] at hm <;> cases hm
  rfl

theorem floats_inField (owner : ClassId) (field : String) {m : ReadM α} (hm : Floats P m st) :
    Floats P (inField owner field m) st := by
  rcases hm with hdeep | ⟨a, st', h, hrest⟩
  · exact .inl (sinks_inField owner field hdeep)
  · exact .inr ⟨a, st', inField_eq_ok.mpr h, hrest⟩

theorem sinks_inScope (scope : Option TypeScope) {m : ReadM α}
    (hm : Sinks m { st with typing := st.typing.enter scope }) :
    Sinks (ReadM.inScope scope m) st := hm

theorem floats_inScope (scope : Option TypeScope) {m : ReadM α}
    (hm : Floats P m { st with typing := st.typing.enter scope }) :
    Floats P (ReadM.inScope scope m) st := by
  rcases hm with hdeep | ⟨a, st', h, ha, hs, hh⟩
  · exact .inl hdeep
  · refine .inr ⟨a, _, inScope_eq_ok.mpr ⟨st', h, rfl⟩, ha, ?_, hh⟩
    show st'.typing.scopes.leave scope = _
    rw [hs]
    exact ScopeStack.leave_enter _ _

end

section

variable (hc : c.Lists rs) {nested : Frame → ReadM Value} (hs : s.record ∈ rs)
include hc hs

/-- An object is put into the heap, and its slots are filled in there. -/
theorem readRecordDirect_run (hown : s.record.bindings s.args = .ok own)
    (hmade : s.record.decl.constructible = true) :
    c.readRecordDirect nested s.record s.args st =
      ReadM.inScope own
        (do
          c.readFieldsDirect nested s.record own st.heap.size s.record.entries
          return .object st.heap.size)
        ⟨st.input, (st.heap.alloc (.fresh s.record.decl)).2,
          st.reservations.bind st.heap.size, st.typing⟩ := by
  simp only [readRecordDirect, hown, Except.mapError, Pass.ofExcept, pure_bind, ReadM.inScope]
  rw [bind_of_ok (readInstance_run hc hs hmade _)]
  rfl

variable (nested) in
/-- A field that holds an object is read by reading the object, and putting it into its slot. -/
theorem readField_of_holdsBare (he : e ∈ s.record.entries)
    (hst : st.typing.scopes = s.scopes.enter own) (hbare : c.HoldsBare s own e s') (o : ObjectId) :
    ∃ f, f.nullable = false ∧ f.Opens st.typing.scopes s' ∧ s'.record ∈ rs ∧
      c.readField nested e o (s.record.fieldType own st.typing.scopes e) =
        nested f >>= putField e o := by
  obtain ⟨f, hplan, hnull, hopens⟩ := hbare
  have hserved := (served_of_planIn hc hs he hplan).1
  refine ⟨f, hnull, hst ▸ hopens, hopens.record_mem hserved, ?_⟩
  rw [readField_eq_planIn nested o hst, hplan]
  rfl

section

variable (hn : ∀ f st s', f.nullable = false → f.Opens st.typing.scopes s' → s'.record ∈ rs →
  c.Weightless s' → Floats (fun v => v.isNull = false) (nested f) st)
include hn

theorem floats_readField (he : e ∈ s.record.entries)
    (hst : st.typing.scopes = s.scopes.enter own) (hfield : c.HoldsWeightless s own e)
    {o : ObjectId} (ho : InstanceOf s.record st.heap o) :
    Floats (fun _ => True) (c.readField nested e o (s.record.fieldType own st.typing.scopes e))
      st := by
  obtain ⟨s', hbare, hw⟩ := hfield
  obtain ⟨f, hnull, hopens, hmem, hrun⟩ := readField_of_holdsBare hc nested hs he hst
    hbare o
  rw [hrun]
  refine floats_bind (hn f st s' hnull hopens hmem hw) fun v st' hv _ hh => ?_
  simp only [putField, hv, Bool.false_and, Bool.false_eq_true, if_false]
  exact floats_of_ok ((ho.enlarges hh).setSlot_run hc hs he v) trivial rfl (.store _ _ _ _)

theorem floats_readFieldsDirect {t : FieldTable} (ht : ∀ e ∈ t, e ∈ s.record.entries)
    (hfields : ∀ e ∈ t, e.serialized = true → c.HoldsWeightless s own e)
    (hst : st.typing.scopes = s.scopes.enter own) {o : ObjectId}
    (ho : InstanceOf s.record st.heap o) :
    Floats (fun _ => True) (c.readFieldsDirect nested s.record own o t) st := by
  induction t generalizing st with
  | nil => exact floats_of_ok rfl trivial rfl (.refl _)
  | cons e t ih =>
      obtain ⟨he, ht⟩ := List.forall_mem_cons.mp ht
      obtain ⟨hfield, hfields⟩ := List.forall_mem_cons.mp hfields
      simp only [readFieldsDirect]
      split
      · next hser =>
        refine floats_get_bind (floats_bind (floats_inField _ _
          (floats_readField hc hs hn he hst (hfield hser) ho)) fun _ st' _ hscopes hh => ?_)
        exact ih ht hfields (hscopes.trans hst) (ho.enlarges hh)
      · exact ih ht hfields hst ho

/-- A field that leads too deep, behind fields that hold weightless objects. -/
theorem sinks_readFieldsDirect {before after : FieldTable}
    (ht : ∀ e' ∈ before ++ e :: after, e' ∈ s.record.entries)
    (hfields : ∀ e' ∈ before, e'.serialized = true → c.HoldsWeightless s own e')
    (hser : e.serialized = true) (hbare : c.HoldsBare s own e s')
    (hn' : ∀ f st, f.nullable = false → f.Opens st.typing.scopes s' → s'.record ∈ rs →
      Sinks (nested f) st)
    (hst : st.typing.scopes = s.scopes.enter own) {o : ObjectId}
    (ho : InstanceOf s.record st.heap o) :
    Sinks (c.readFieldsDirect nested s.record own o (before ++ e :: after)) st := by
  induction before generalizing st with
  | nil =>
      obtain ⟨he, -⟩ := List.forall_mem_cons.mp ht
      obtain ⟨f, hnull, hopens, hmem, hrun⟩ := readField_of_holdsBare hc nested hs he
        hst hbare o
      simp only [List.nil_append, readFieldsDirect, hser, if_true]
      refine sinks_get_bind (sinks_bind (sinks_inField _ _ ?_) _)
      rw [hrun]
      exact sinks_bind (hn' f st hnull hopens hmem) _
  | cons e' before ih =>
      obtain ⟨he, ht⟩ := List.forall_mem_cons.mp ht
      obtain ⟨hfield, hfields⟩ := List.forall_mem_cons.mp hfields
      simp only [List.cons_append, readFieldsDirect]
      split
      · next hser' =>
        refine sinks_get_bind (sinks_bind_of_floats (floats_inField _ _
          (floats_readField hc hs hn he hst (hfield hser') ho)) fun _ st' _ hscopes hh => ?_)
        exact ih ht hfields (hscopes.trans hst) (ho.enlarges hh)
      · exact ih ht hfields hst ho

end

end

section

variable (hc : c.Lists rs) (hr : c.references = false) {f : Frame}
include hc hr

/-- **A weightless object is read whatever the input is**, unless the pass may not go deep
enough. -/
theorem floats_readDirect (n : Nat) (hnull : f.nullable = false)
    (hf : f.Opens st.typing.scopes s) (hs : s.record ∈ rs) (hw : c.Weightless s) :
    Floats (fun v => v.isNull = false) (c.readDirect n f) st := by
  induction n generalizing f st s with
  | zero => exact .inl rfl
  | succ n ih =>
      rw [readDirect_succ hr, hnull, readWithDirect_of_opens hf]
      cases hw with
      | @intro _ own next hown hmade holds fields =>
          have hst : (st.typing.enter own).scopes = s.scopes.enter own := by rw [hf.scopes]; rfl
          refine Floats.of_run (readRecordDirect_run hc hs hown hmade) (floats_inScope own ?_)
            (.alloc _ _) rfl
          have hfields : ∀ e ∈ s.record.entries, e.serialized = true →
              c.HoldsWeightless s own e :=
            fun e he hser => ⟨next e, holds e he hser, fields e he hser⟩
          refine floats_bind (floats_readFieldsDirect hc hs
            (fun f st s' hnull hf hs hw => ih hnull hf hs hw) (fun _ he => he) hfields hst
            (instanceOf_alloc _ _)) fun _ st' _ _ _ => ?_
          exact floats_of_ok rfl rfl rfl (.refl _)

/-- **An object that falls on and on is never read**, however deep the pass may go. -/
theorem sinks_readDirect (n : Nat) (hnull : f.nullable = false) (hf : f.Opens st.typing.scopes s)
    (hs : s.record ∈ rs) (hfall : ¬ Acc (fun a b => c.Falls b a) s) :
    Sinks (c.readDirect n f) st := by
  induction n generalizing f st s with
  | zero => rfl
  | succ n ih =>
      -- it falls into an object that falls on and on
      obtain ⟨s', hs', hfall'⟩ : ∃ s', c.Falls s s' ∧ ¬ Acc (fun a b => c.Falls b a) s' := by
        by_contra hno
        refine hfall ⟨s, fun s' hs' => ?_⟩
        by_contra hacc
        exact hno ⟨s', hs', hacc⟩
      obtain ⟨own, before, e, after, hown, hmade, hentries, hser, hbare, hfields⟩ := hs'
      have hst : (st.typing.enter own).scopes = s.scopes.enter own := by rw [hf.scopes]; rfl
      rw [readDirect_succ hr, hnull, readWithDirect_of_opens hf]
      refine Sinks.of_run (readRecordDirect_run hc hs hown hmade) (sinks_inScope own ?_)
      refine sinks_bind ?_ _
      rw [hentries]
      exact sinks_readFieldsDirect hc hs
        (fun f st s' hnull hf hs hw => floats_readDirect hc hr n hnull hf hs hw)
        (fun e' he' => hentries ▸ he') hfields hser hbare
        (fun f st hnull hf hs => ih hnull hf hs hfall') hst (instanceOf_alloc _ _)

end

end Codec

end GraphCodec
