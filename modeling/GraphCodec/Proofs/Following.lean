import GraphCodec.Proofs.Echo
import GraphCodec.Proofs.Reading

/-!
# Reading — alongside a pass of writing

A pass of reading follows a pass of writing through the same frames, from the same bytes.  Where
nothing but bytes is moved, this is all there is to it (`Exchanges`).  In general a `Following` says
what holds of the writer, of both sides side by side, and when a value has been read back; and
`Carries v m m'` says that `m'` reads back what `m` writes for `v`.  Tags, planned values, fields,
objects and frames without markers are carried in any `Following`: what it has to know about an
object whose slots are filled in one by one is laid down in its `Stages`.
-/

namespace GraphCodec

namespace Codec

open Pass

/-- What can be read back where objects do not keep their identity: values whose objects have
classes that the codec makes, with all the slots of the class, and with tags and lengths that fit
the words for them. -/
structure Legible (c : Codec) (h : Heap) (V : Value → Prop) : Prop where
  closed : ∀ o, V (.object o) → ∀ i, c.writtenSlots (h.get o).owner i → ∀ v,
    (h.get o).slots[i]? = some v → V v
  makes : ∀ o, V (.object o) → ∀ r, c.record (.object (h.get o).owner) = .ok r →
    r.decl.constructible = true
  size : ∀ o, V (.object o) → ∀ r, c.record (.object (h.get o).owner) = .ok r →
    (h.get o).slots.length = r.decl.fields.length
  tags : c.registrations.length < 2 ^ 32
  strings : ∀ s, V (.str s) → s.utf8ByteSize < 2 ^ 64

variable {α β κ ι : Type} {c : Codec} {rs : List RecordSerializer} {h : Heap} {V : Value → Prop}
  {v : Value}

/-! ### Passes that only move bytes -/

/-- Both sides change no more than the bytes, and where the writer has `b` the reader has `f b`. -/
def Exchanges (m : WriteM β) (m' : ReadM α) (f : β → α) : Prop :=
  ∀ wst, Appends m wst fun b wst' bytes => (∃ out, wst' = { wst with output := out }) ∧
    ∀ rst, Replays m' rst bytes fun a rst' => a = f b ∧ ∃ i, rst' = { rst with input := i }

theorem exchanges_pure (b : β) {a : α} {f : β → α} (h : a = f b) :
    Exchanges (pure b) (pure a) f :=
  fun _ => appends_pure ⟨⟨_, rfl⟩, fun _ => replays_pure ⟨h, _, rfl⟩⟩

theorem exchanges_fail (e : CodecError) (m' : ReadM α) (f : β → α) : Exchanges (fail e) m' f :=
  fun _ => appends_fail e

theorem exchanges_item {i : Item} {r : Read α} {a : α} (hr : Read.Reads r i.encode a) :
    Exchanges (WriteM.item i) (ReadM.take r) fun _ => a :=
  fun _ => appends_item ⟨⟨_, rfl⟩, fun _ => replays_take hr fun _ => ⟨rfl, _, rfl⟩⟩

/-- The reader may go on with what it has read. -/
theorem Exchanges.map {γ : Type} {m : WriteM β} {m' : ReadM α} {f : β → α}
    (hm : Exchanges m m' f) (g : α → γ) : Exchanges m (do return g (← m')) fun b => g (f b) := by
  intro wst
  refine appends_mono (hm wst) ?_
  rintro b _ bytes ⟨hw, hread⟩
  refine ⟨hw, fun rst => replays_bind_to_ok (hread rst) ?_⟩
  rintro _ rst' ⟨rfl, hi⟩
  exact ⟨_, rst', rfl, rfl, rfl, hi⟩

theorem registrationAt?_of_number? {t : ValueType} {n : Nat} {x : Registration}
    (hn : c.number? t = some n) (hx : c.registration? t = some x) :
    c.registrationAt? n = some x ∧ n < c.registrations.length := by
  simp only [number?] at hn
  simp only [registration?] at hx
  obtain ⟨hlt, hp, hbefore⟩ := List.findIdx?_eq_some_iff_getElem.mp hn
  refine ⟨?_, hlt⟩
  rw [registrationAt?, List.getElem?_eq_getElem hlt, ← hx, List.find?_eq_some_iff_getElem.mpr]
  exact ⟨hp, n, hlt, rfl, fun j hj => by simpa using hbefore j hj⟩

theorem replays_readTag {rst : ReadState} {n : Nat} (hn : n < 2 ^ 32) {x : Option Registration}
    (hx : n = 0 ∧ x = none ∨ ∃ k r, n = k + 1 ∧ c.registrationAt? k = some r ∧ x = some r) :
    Replays c.readTag rst (Varint.encode n)
      fun a rst' => a = x ∧ ∃ i, rst' = { rst with input := i } := by
  have hnumber : Replays (ReadM.take Read.varU32) rst (Varint.encode n)
      fun a st => a = n ∧ ∃ i, st = { rst with input := i } :=
    replays_take (Read.reads_varU32 hn) fun i => ⟨rfl, i, rfl⟩
  refine replays_bind_of_ok (get_run rst) rfl (replays_bind_to_ok hnumber ?_)
  rintro _ rst' ⟨rfl, i, rfl⟩
  rcases hx with ⟨rfl, rfl⟩ | ⟨k, r, rfl, hr, rfl⟩
  · exact ⟨_, _, rfl, rfl, rfl, i, rfl⟩
  · refine ⟨some r, { rst with input := i }, ?_, rfl, rfl, i, rfl⟩
    simp only [hr]
    rfl

theorem exchanges_tag (htags : c.registrations.length < 2 ^ 32) (v : Value) :
    Exchanges (c.writeTag h v) c.readTag id := by
  have hwrite : ∀ n (x : Option Registration), n < 2 ^ 32 →
      (n = 0 ∧ x = none ∨ ∃ k r, n = k + 1 ∧ c.registrationAt? k = some r ∧ x = some r) →
      Exchanges (do WriteM.varint n; return x) c.readTag id := by
    intro n x hn hx wst
    have hnumber : Appends (WriteM.varint n) wst fun _ st bytes =>
        (∃ out, st = { wst with output := out }) ∧ bytes = Varint.encode n :=
      appends_varint ⟨⟨_, rfl⟩, rfl⟩
    refine appends_bind hnumber ?_
    rintro _ st _ ⟨hst, rfl⟩
    refine appends_pure ⟨hst, fun rst => ?_⟩
    rw [List.append_nil]
    exact replays_readTag hn hx
  simp only [writeTag]
  cases h.typeOf v with
  | none => exact hwrite 0 none (by decide) (.inl ⟨rfl, rfl⟩)
  | some t =>
      cases hn : c.number? t <;> cases hx : c.registration? t <;> simp only [hn, hx] <;>
        try exact exchanges_fail _ _ _
      next n x =>
      obtain ⟨hat, hlt⟩ := registrationAt?_of_number? hn hx
      exact hwrite (n + 1) (some x) (by omega) (.inr ⟨n, x, rfl, hat, rfl⟩)

theorem exchanges_presence {e : FieldEntry} {v : Value} (hv : v.isNull → e.nullable = true) :
    Exchanges (writePresence e v) (readPresence e) fun _ => !v.isNull := by
  simp only [writePresence, readPresence]
  split
  · exact exchanges_item (Read.reads_bool _)
  · next hn =>
    refine exchanges_pure _ ?_
    cases hnull : v.isNull with
    | false => rfl
    | true => exact absurd (hv hnull) hn

/-- A value of a built-in type is read as it was written. -/
theorem exchanges_stock {t : ValueType} {s : Stock} (hs : t.stock? = some s) {v : Value}
    (hstr : ∀ s, v = .str s → s.utf8ByteSize < 2 ^ 64) (nested : Frame → Value → WriteM Unit)
    (nested' : Frame → ReadM Value) :
    Exchanges (c.writeStock h nested s v) (c.readStock nested' t s) fun _ => v := by
  cases t <;> cases hs <;> cases v <;> try exact exchanges_fail _ _ _
  · exact (exchanges_item (Read.reads_bool _)).map Value.bool
  · exact (exchanges_item (Read.reads_varI32 _ _)).map Value.int
  · exact (exchanges_item (Read.reads_varI64 _ _)).map Value.long
  · exact (exchanges_item (Read.reads_word32 _)).map Value.float
  · exact (exchanges_item (Read.reads_word64 _)).map Value.double
  · exact (exchanges_item (Read.reads_string (hstr _ rfl))).map Value.str

theorem exchanges_supply_stock (s : Stock) (args : List ConcreteType) :
    Exchanges (WriteM.supply (.stock s) args) (ReadM.supply (.stock s) args) fun _ => () := by
  intro wst
  have hw : WriteM.supply (.stock s) args wst = (pure () : WriteM Unit) wst :=
    WriteM.supply_stock_run s args wst
  refine appends_of_run hw rfl (appends_pure ⟨⟨_, rfl⟩, fun rst => ?_⟩)
  have hr : ReadM.supply (.stock s) args rst = (pure () : ReadM Unit) rst :=
    ReadM.supply_stock_run s args rst
  exact replays_of_run hr rfl (replays_pure ⟨rfl, _, rfl⟩)

/-! ### Both sides -/

/-- How a pass of reading follows a pass of writing.  `κ` is what is known beside the two states. -/
structure Following (rs : List RecordSerializer) (κ : Type) where
  /-- What holds of the writer. -/
  writer : WriteState → Prop
  /-- What holds of both sides before a value. -/
  beside : κ → WriteState → ReadState → Prop
  /-- How reading back a value ends: from both sides before the value to both sides after it. -/
  done : κ → WriteState → ReadState → Value → WriteState → Value → ReadState → Prop
  quiet : ∀ {wst}, writer wst → wst.typing.cells.Quiet rs
  writer_output : ∀ {wst} out, writer wst → writer { wst with output := out }
  writer_typing : ∀ {wst} typing, typing.cells.Quiet rs → writer wst →
    writer { wst with typing := typing }
  beside_bytes : ∀ {k wst rst} out i, beside k wst rst →
    beside k { wst with output := out } { rst with input := i }
  done_plain : ∀ {k wst rst v}, (∀ o, v ≠ .object o) → beside k wst rst →
    done k wst rst v wst v rst
  done_bytes : ∀ {k wst rst v wst' w rst'} out i,
    done k { wst with output := out } { rst with input := i } v wst' w rst' →
      done k wst rst v wst' w rst'

namespace Following

/-- What `m` writes for `v` is read back by `m'`. -/
def Carries (F : Following rs κ) (v : Value) (m : WriteM Unit) (m' : ReadM Value) : Prop :=
  ∀ wst, F.writer wst → Appends m wst fun _ wst' bytes => F.writer wst' ∧
    ∀ k rst, F.beside k wst rst →
      Replays m' rst bytes fun w rst' => F.done k wst rst v wst' w rst'

/-- The slots of an instance of the class of `r` are filled in, one after another, for those of the
object `o`.  `ι` is what is known when this starts: the instance is `place`, and `filled` holds of
both sides when the slots of some entries are filled in. -/
structure Stages (F : Following rs κ) (h : Heap) (o : ObjectId) (r : RecordSerializer)
    (ι : Type) where
  place : ι → ObjectId
  filled : ι → FieldTable → WriteState → ReadState → Prop
  scopes : ∀ {j done wst rst}, filled j done wst rst → rst.typing.scopes = wst.typing.scopes
  /-- One more value is read back, and put into its slot. -/
  field : ∀ {j done wst rst e v}, e ∈ r.entries →
    (∀ e' ∈ done, e'.slot.index ≠ e.slot.index) → (h.get o).slots[e.slot.index]? = some v →
    filled j done wst rst → ∃ k, F.beside k wst rst ∧ ∀ {wst' w rst'}, F.writer wst' →
      F.done k wst rst v wst' w rst' → w.isNull = v.isNull ∧ ∃ old heap,
        e.slot.set rst'.heap (place j) w = .ok (old, heap) ∧
          filled j (done ++ [e]) wst' { rst' with heap := heap }

/-- What `m` writes for fields of the object is read back by `m'` into its instance: the slots of
`done` are filled in before, and those of `done'` after. -/
def Stages.Fills {F : Following rs κ} {o : ObjectId} {r : RecordSerializer}
    (S : F.Stages h o r ι) (done done' : FieldTable) (m : WriteM Unit)
    (m' : ObjectId → ReadM Unit) : Prop :=
  ∀ wst, F.writer wst → Appends m wst fun _ wst' bytes => F.writer wst' ∧
    ∀ j rst, S.filled j done wst rst →
      Replays (m' (S.place j)) rst bytes fun _ rst' => S.filled j done' wst' rst'

variable {F : Following rs κ}

theorem carries_fail (e : CodecError) (m' : ReadM Value) : F.Carries v (fail e) m' :=
  fun _ _ => appends_fail e

end Following

/-- A value that is not an object needs no more than its bytes. -/
theorem Exchanges.carries {F : Following rs κ} {m : WriteM Unit} {m' : ReadM Value}
    (hm : Exchanges m m' fun _ => v) (hv : ∀ o, v ≠ .object o) : F.Carries v m m' := by
  intro wst hw
  refine appends_mono (hm wst) ?_
  rintro _ _ bytes ⟨⟨out, rfl⟩, hread⟩
  refine ⟨F.writer_output out hw, fun k rst hr => replays_mono (hread rst) ?_⟩
  rintro _ _ ⟨rfl, i, rfl⟩
  exact F.done_bytes out i (F.done_plain hv (F.beside_bytes out i hr))

theorem Exchanges.carries_bind {F : Following rs κ} {m : WriteM β} {m' : ReadM α} {f : β → α}
    {n : β → WriteM Unit} {n' : α → ReadM Value} (hm : Exchanges m m' f)
    (hn : ∀ b, CanReturn m b → F.Carries v (n b) (n' (f b))) :
    F.Carries v (m >>= n) (m' >>= n') := by
  intro wst hw a wst₂ hrun
  obtain ⟨b, wst₁, hr₁, hr₂⟩ := bind_eq_ok.mp hrun
  obtain ⟨bytes, hb, ⟨out, rfl⟩, hread⟩ := hm wst b wst₁ hr₁
  obtain ⟨bytes', hb', hw', hread'⟩ := hn b ⟨wst, _, hr₁⟩ _ (F.writer_output out hw) a wst₂ hr₂
  refine ⟨bytes ++ bytes', by rw [hb', hb, List.append_assoc], hw', fun k rst hr => ?_⟩
  refine replays_bind (hread rst) ?_
  rintro _ _ ⟨rfl, i, rfl⟩
  exact replays_mono (hread' k _ (F.beside_bytes out i hr)) fun _ _ hd => F.done_bytes out i hd

namespace Following

variable {F : Following rs κ}

/-- A type that is required is the one of the value, unless that is null. -/
theorem carries_requireType {t : ValueType} {m : WriteM Unit} {m' : ReadM Value}
    (hm : (∀ u, h.typeOf v = some u → u = t) → F.Carries v m m') :
    F.Carries v (requireType h t v >>= fun _ => m) m' := by
  simp only [requireType]
  cases hv : h.typeOf v with
  | none => exact hm (by simp [hv])
  | some u =>
      by_cases hu : u = t
      · simp only [hu, if_true]
        exact hm (by simp [hv, hu])
      · simp only [hu, if_false]
        exact carries_fail _ _

section

variable (hc : c.Lists rs) (hV : c.Legible h V) {nested : Frame → Value → WriteM Unit}
  {nested' : Frame → ReadM Value}
  (hn : ∀ f v, Served rs f.type f.serializer → V v → F.Carries v (nested f v) (nested' f))
include hc hV hn

/-! ### Values -/

theorem carries_tagged (hv : V v) :
    F.Carries v (c.writeTagged h nested v) (c.readTagged nested') := by
  refine (exchanges_tag hV.tags v).carries_bind fun x hx => ?_
  rcases writeTag_returns hx with ⟨rfl, rfl⟩ | ⟨t, x, rfl, -, ht⟩
  · exact (exchanges_pure () rfl).carries (by simp)
  · obtain ⟨rfl, hx⟩ := hc.served_of_registration? ht
    exact hn _ _ hx hv

omit hV in
theorem carries_flat (hv : V v) {t : ValueType} (ht : h.typeOf v = some t)
    (args : List ConcreteType) :
    F.Carries v (c.writeFlat h nested v args) (c.readFlat nested' t args) := by
  simp only [writeFlat, readFlat, ht]
  cases hs : c.serializer t with
  | error e => exact carries_fail (.config e) _
  | ok s => exact hn ⟨t, s, args, false⟩ v (hc.served_of_serializer hs) hv

theorem carries_planned {e : FieldEntry} (he : e.serializer = none) (hv : V v)
    (hnull : v.isNull → e.nullable = true) {resolved : Option ConcreteType} {p : Plan}
    (hp : e.plan c resolved = .ok p) :
    F.Carries v (c.writePlanned h nested e v p) (c.readPlanned nested' e p) := by
  cases p with
  | dynamic => exact carries_tagged hc hV hn hv
  | known f => exact carries_requireType fun _ => hn f v (hc.served_of_plan he hp).1 hv
  | int =>
      refine carries_requireType fun ht => (exchanges_presence hnull).carries_bind fun _ _ => ?_
      cases v with
      | null => exact (exchanges_pure () rfl).carries (by simp)
      | int n =>
          refine Exchanges.carries ?_ (by simp)
          cases e.varInt
          · exact (exchanges_item (Read.reads_i32 n)).map Value.int
          · exact (exchanges_item (Read.reads_varI32 n _)).map Value.int
      | _ => cases ht _ rfl
  | long =>
      refine carries_requireType fun ht => (exchanges_presence hnull).carries_bind fun _ _ => ?_
      cases v with
      | null => exact (exchanges_pure () rfl).carries (by simp)
      | long n =>
          refine Exchanges.carries ?_ (by simp)
          cases e.varInt
          · exact (exchanges_item (Read.reads_i64 n)).map Value.long
          · exact (exchanges_item (Read.reads_varI64 n _)).map Value.long
      | _ => cases ht _ rfl

/-! ### Objects -/

section

variable {o : ObjectId} {r : RecordSerializer} (S : F.Stages h o r ι) (hr : r ∈ rs)
  (hid : (h.get o).owner = r.decl.id) (ho : V (.object o))
include hr hid ho

theorem fills_field {done : FieldTable} {e : FieldEntry} (he : e ∈ r.entries)
    (hp : e.serialized = true) (hnew : ∀ e' ∈ done, e'.slot.index ≠ e.slot.index)
    (resolved : Option ConcreteType) :
    S.Fills done (done ++ [e]) (c.writeField h nested e o resolved)
      fun p => c.readField nested' e p resolved := by
  have hlen := hV.size o ho r (hid ▸ hc.record_eq hr)
  obtain ⟨v, hget, hsel⟩ := hc.get_of_entry hr he hp hid hlen
  have hv := Slot.getElem?_of_get hget
  have hVv : V v := hV.closed o ho _ hsel v hv
  intro wst hw
  rw [writeField_of_get _ _ _ hget]
  by_cases hnull : (v.isNull && !e.nullable) = true
  · rw [if_pos hnull]
    exact appends_fail _
  · rw [if_neg hnull]
    refine appends_ofExcept_bind fun p hplan => ?_
    have hallowed : v.isNull → e.nullable = true := by
      intro hn
      rw [hn, Bool.true_and, Bool.not_eq_true, Bool.not_eq_false'] at hnull
      exact hnull
    have hbare := (hc.plain r hr).follows.bare e he
    refine appends_mono (carries_planned hc hV hn hbare hVv hallowed hplan wst hw) ?_
    rintro _ wst' bytes ⟨hw', hread⟩
    refine ⟨hw', fun j rst hfill => ?_⟩
    obtain ⟨k, hk, hstep⟩ := S.field he hnew hv hfill
    simp only [(handles_of_plan hplan).read]
    refine replays_bind_to_ok (hread k rst hk) ?_
    rintro w rst₁ hd
    -- what was read is null exactly if the value is, which the writer has let pass
    obtain ⟨hwnull, old, heap, hset, hfill'⟩ := hstep hw' hd
    refine ⟨⟨⟩, { rst₁ with heap := heap }, ?_, rfl, hfill'⟩
    rw [hwnull, if_neg hnull]
    exact setSlot_run hset

theorem fills_fields (own : Option Resolution) {t before : FieldTable}
    (ht : before ++ t = r.entries) (index : Nat) :
    S.Fills (before.filter FieldEntryOf.serialized) (r.entries.filter FieldEntryOf.serialized)
      (c.writeFields h nested r own o index t) fun p => c.readFields nested' r own p index t := by
  induction t generalizing before index with
  | nil =>
      rw [List.append_nil] at ht
      exact fun wst hw => appends_pure ⟨hw, fun j rst hfill => replays_pure (ht ▸ hfill)⟩
  | cons e t ih =>
      obtain ⟨he, hrest, hnew⟩ := (hc.plain r hr).follows.split ht FieldEntryOf.serialized
      have ih := ih hrest (index + 1)
      rw [List.filter_append] at ih
      intro wst hw
      simp only [writeFields]
      by_cases hp : e.serialized = true
      · have hfilter : [e].filter FieldEntryOf.serialized = [e] := by simp [hp]
        rw [hfilter] at ih
        have hfield := fills_field hc hV hn S hr hid ho he hp hnew
          (r.resolved own wst.typing.scopes index e) wst hw
        rw [if_pos hp]
        refine appends_get_bind (appends_bind (appends_inField hfield) ?_)
        rintro _ wst₁ bytes ⟨hw₁, hread⟩
        refine appends_mono (ih wst₁ hw₁) ?_
        rintro _ wst' bytes' ⟨hw', hread'⟩
        refine ⟨hw', fun j rst hfill => ?_⟩
        simp only [readFields]
        rw [if_pos hp]
        refine replays_bind_of_ok (get_run rst) rfl ?_
        -- the scopes are the same, so that both sides come to the same plan for the field
        simp only [S.scopes hfill]
        exact replays_bind (replays_inField (hread j rst hfill)) fun _ rst₁ hfill₁ =>
          hread' j rst₁ hfill₁
      · have hfilter : [e].filter FieldEntryOf.serialized = [] := by simp [hp]
        rw [hfilter, List.append_nil] at ih
        rw [if_neg hp]
        refine appends_mono (ih wst hw) ?_
        rintro _ wst' bytes ⟨hw', hread⟩
        refine ⟨hw', fun j rst hfill => ?_⟩
        simp only [readFields]
        rw [if_neg hp]
        exact hread j rst hfill

end

/-- An object is read back as a new instance, whose slots are filled in inside the same scope. -/
theorem appends_record {r : RecordSerializer} (S : ∀ o, F.Stages h o r ι) (hr : r ∈ rs) {f : Frame}
    (hf : f.serializer = .record r) (hv : V v) {wst : WriteState} (hw : F.writer wst) :
    Appends (c.writeBody h nested f v) wst fun _ wst' bytes =>
      ∃ o, v = .object o ∧ c.record (.object (h.get o).owner) = .ok r ∧
      ∃ (cells : ArgumentCells) (scope : Option TypeScope) (wst₁ : WriteState),
        F.writer wst₁ ∧ wst' = { wst₁ with typing := wst₁.typing.leave scope } ∧
        ∀ j rst, rst.typing.cells.Quiet rs → rst.heap.size = (S o).place j →
          (∀ cells' : ArgumentCells, cells'.Quiet rs → (S o).filled j []
            { wst with typing := Typing.enter ⟨wst.typing.scopes, cells⟩ scope }
            ⟨rst.input, (rst.heap.alloc (.fresh r.decl)).2,
              rst.reservations.bind rst.heap.size,
              Typing.enter ⟨rst.typing.scopes, cells'⟩ scope⟩) →
          Replays (c.readBody nested' f) rst bytes fun w rst' =>
            w = .object ((S o).place j) ∧
            ∃ rst₁, (S o).filled j (r.entries.filter FieldEntryOf.serialized) wst₁ rst₁ ∧
              rst' = { rst₁ with typing := rst₁.typing.leave scope } := by
  obtain ⟨t, s, args, nullable⟩ := f
  obtain rfl : s = .record r := hf
  -- the writer: type arguments, then the fields in their scope
  obtain ⟨cells, hq, hrun⟩ := WriteM.supply_takeArguments (α := Unit) hr args (F.quiet hw)
  refine appends_of_run (hrun _) rfl (appends_ofExcept_bind fun own hown =>
    appends_ofExcept_bind fun o ho => appends_inScope ?_)
  obtain ⟨rfl, hid⟩ := Heap.instanceOf_eq_ok.mp ho
  have hrec := hid ▸ hc.record_eq hr
  have hmade := hV.makes o hv r hrec
  have hfields := fills_fields hc hV hn (S o) hr hid hv own (List.nil_append _) 0 _
    (F.writer_typing (Typing.enter ⟨wst.typing.scopes, cells⟩ (own.map Resolution.scope)) hq hw)
  refine appends_mono hfields ?_
  rintro _ wst₁ bytes ⟨hw₁, hread⟩
  refine ⟨o, rfl, hrec, cells, own.map Resolution.scope, wst₁, hw₁, rfl, ?_⟩
  -- the reader: the same arguments, a new instance, and the fields
  intro j rst hquiet hsize hstart
  obtain ⟨cells', hq', hrun'⟩ := ReadM.supply_takeArguments (α := Value) hr args hquiet
  refine replays_of_run (hrun' _) rfl ?_
  rw [hown]
  refine replays_bind_of_ok rfl rfl (replays_inScope ?_)
  refine replays_bind_of_ok (readInstance_run hc hr hmade _) rfl ?_
  refine replays_bind_of_ok (modify_run _ _) rfl ?_
  have hread := hread j _ (hstart cells' hq')
  rw [← hsize] at hread ⊢
  refine replays_bind_to_ok hread ?_
  rintro _ rst₁ hfill
  exact ⟨_, rst₁, rfl, rfl, rfl, rst₁, hfill, rfl⟩

end

/-! ### Frames -/

/-- What stands inside a frame of a built-in type. -/
theorem carries_plain {f : Frame} (hf : Served rs f.type f.serializer)
    (ht : f.type.isReference = false) (hstr : ∀ s, v = .str s → s.utf8ByteSize < 2 ^ 64)
    (nested : Frame → Value → WriteM Unit) (nested' : Frame → ReadM Value) :
    F.Carries v (c.writeBody h nested f v) (c.readBody nested' f) := by
  obtain ⟨t, s, args, nullable⟩ := f
  cases hf with
  | record _ => cases ht
  | stock hs =>
      refine (exchanges_supply_stock _ args).carries_bind fun _ _ => ?_
      cases v with
      | object o => cases t <;> cases hs <;> exact carries_fail _ _
      | _ => exact (exchanges_stock hs hstr _ _).carries (by simp)

/-- A frame without a marker: a presence byte where null may stand, and what stands inside. -/
theorem carries_unmarked {f : Frame} (hf : (f.type.isReference && c.references) = false)
    {n m : Nat}
    (hbody : v.isNull = false → F.Carries v
      (match v.object? with
        | some o =>
          if c.references then c.writeBody h (c.writeFramed h n) f v
          else WriteM.onPath o (h.get o).owner (c.writeBody h (c.writeFramed h n) f v)
        | none => c.writeBody h (c.writeFramed h n) f v)
      (c.readBody (c.readFramed m) f)) :
    F.Carries v (c.writeFramed h (n + 1) f v) (c.readFramed (m + 1) f) := by
  rw [writeFramed_unmarked _ _ hf, readFramed_succ, readFrame_unmarked _ _ _ hf]
  by_cases hnull : v.isNull = true
  · rw [if_pos hnull]
    obtain rfl := Value.eq_null_of_isNull hnull
    by_cases hnullable : f.nullable = true
    · rw [if_pos hnullable, if_pos hnullable]
      refine Exchanges.carries (fun wst => appends_item ⟨⟨_, rfl⟩, fun rst => ?_⟩) (by simp)
      rw [← List.append_nil (Item.encode _)]
      exact replays_take_bind (Read.reads_bool false) fun i => replays_pure ⟨rfl, i, rfl⟩
    · rw [if_neg hnullable]
      exact carries_fail _ _
  · rw [if_neg hnull]
    have hbody := hbody (Bool.eq_false_iff.mpr hnull)
    by_cases hnullable : f.nullable = true
    · rw [if_pos hnullable, if_pos hnullable]
      exact (exchanges_item (Read.reads_bool true)).carries_bind fun _ _ => hbody
    · rw [if_neg hnullable, if_neg hnullable]
      exact hbody

end Following

end Codec

end GraphCodec
