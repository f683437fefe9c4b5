import GraphCodec.Proofs.Items
import GraphCodec.Proofs.Steps

/-!
# Codecs — writing and reading side by side

What a pass of writing adds to its output is what a pass of reading takes off its input.
`Appends m st T` says this of the first half: if `m` ends well from `st`, it has added some bytes,
and `T` holds of them.  `Replays m st bytes Q` says it of the second: when the input begins with
`bytes`, `m` takes exactly these and ends well as `Q` says.  A property `T` that speaks of
`Replays` ties the two together.
-/

namespace GraphCodec.Pass

variable {α β : Type}

/-! ### Writing -/

/-- Where the pass ends well, `T` holds of its answer, its last state and the bytes it added. -/
def Appends (m : WriteM α) (st : WriteState) (T : α → WriteState → List UInt8 → Prop) : Prop :=
  ∀ a st', m st = (.ok a, st') →
    ∃ bytes, st'.output.bytes.toList = st.output.bytes.toList ++ bytes ∧ T a st' bytes

section

variable {st : WriteState} {T : α → WriteState → List UInt8 → Prop}

theorem appends_pure {a : α} (h : T a st []) : Appends (pure a) st T := by
  rintro _ _ ⟨⟩
  exact ⟨[], (List.append_nil _).symm, h⟩

theorem appends_fail (e : CodecError) : Appends (fail e) st T := nofun

theorem appends_item {i : Item} {T : Unit → WriteState → List UInt8 → Prop}
    (h : T () { st with output := st.output.write i } i.encode) : Appends (WriteM.item i) st T := by
  rintro _ _ ⟨⟩
  exact ⟨_, st.output.toList_write i, h⟩

theorem appends_varint {n : Nat} {T : Unit → WriteState → List UInt8 → Prop}
    (h : T () { st with output := st.output.writeVarint n } (Varint.encode n)) :
    Appends (WriteM.varint n) st T := by
  rintro _ _ ⟨⟩
  exact ⟨_, st.output.toList_writeVarint n, h⟩

theorem appends_mono {m : WriteM α} {T' : α → WriteState → List UInt8 → Prop}
    (hm : Appends m st T') (h : ∀ a st' bytes, T' a st' bytes → T a st' bytes) :
    Appends m st T := by
  intro a st' hr
  obtain ⟨bytes, hb, hT⟩ := hm a st' hr
  exact ⟨bytes, hb, h a st' bytes hT⟩

theorem appends_bind {m : WriteM β} {k : β → WriteM α} {T₁ : β → WriteState → List UInt8 → Prop}
    (hm : Appends m st T₁)
    (hk : ∀ b st₁ bytes, T₁ b st₁ bytes →
      Appends (k b) st₁ fun a st' bytes' => T a st' (bytes ++ bytes')) :
    Appends (m >>= k) st T := by
  intro a st' hr
  obtain ⟨b, st₁, h₁, h₂⟩ := bind_eq_ok.mp hr
  obtain ⟨bytes, hb, hT₁⟩ := hm b st₁ h₁
  obtain ⟨bytes', hb', hT⟩ := hk b st₁ bytes hT₁ a st' h₂
  exact ⟨bytes ++ bytes', by rw [hb', hb, List.append_assoc], hT⟩

theorem appends_ofExcept_bind {x : Except CodecError β} {k : β → WriteM α}
    (hk : ∀ b, x = .ok b → Appends (k b) st T) : Appends (Pass.ofExcept x >>= k) st T := by
  cases x with
  | error e => exact appends_fail e
  | ok b => exact hk b rfl

theorem appends_get_bind {k : WriteState → WriteM α} (hk : Appends (k st) st T) :
    Appends (get >>= k) st T := hk

theorem appends_inField {owner : ClassId} {field : String} {m : WriteM α} (hm : Appends m st T) :
    Appends (inField owner field m) st T :=
  fun a st' hr => hm a st' (inField_eq_ok.mp hr)

theorem appends_of_run {m m' : WriteM α} {st₁ : WriteState} (hr : m st = m' st₁)
    (ho : st₁.output = st.output) (hm : Appends m' st₁ T) : Appends m st T := by
  intro a st' h
  obtain ⟨bytes, hb, hT⟩ := hm a st' (hr ▸ h)
  exact ⟨bytes, ho ▸ hb, hT⟩

theorem appends_inScope {scope : Option TypeScope} {m : WriteM α}
    (hm : Appends m { st with typing := st.typing.enter scope } fun a st' bytes =>
      T a { st' with typing := st'.typing.leave scope } bytes) :
    Appends (WriteM.inScope scope m) st T := by
  intro a st' hr
  simp only [WriteM.inScope] at hr
  rcases hb : m { st with typing := st.typing.enter scope } with ⟨x, st₁⟩
  rw [hb] at hr
  cases hr
  exact hm a st₁ hb

theorem appends_onPath {o : ObjectId} {owner : ClassId} {m : WriteM α}
    (hm : Appends m { st with path := o :: st.path } fun a st' bytes =>
      T a { st' with path := st'.path.erase o } bytes) :
    Appends (WriteM.onPath o owner m) st T := by
  by_cases ho : o ∈ st.path
  · rintro a st' hr
    rw [WriteM.onPath_of_mem ho] at hr
    cases hr
  · rintro a st' hr
    rw [WriteM.onPath_of_not_mem ho] at hr
    rcases hb : m { st with path := o :: st.path } with ⟨x, st₁⟩
    rw [hb] at hr
    cases hr
    exact hm a st₁ hb

end

/-! ### Reading -/

/-- With `bytes` at the front of the input, the pass takes them off and ends well as `Q` says. -/
def Replays (m : ReadM α) (st : ReadState) (bytes : List UInt8) (Q : α → ReadState → Prop) :
    Prop :=
  ∀ position rest, st.input = ⟨position, bytes ++ rest⟩ →
    ∃ a st', m st = (.ok a, st') ∧ st'.input = ⟨position + bytes.length, rest⟩ ∧ Q a st'

section

variable {st : ReadState} {bytes bytes' : List UInt8} {Q : α → ReadState → Prop}

theorem replays_pure {a : α} (h : Q a st) : Replays (pure a) st [] Q :=
  fun _ _ hi => ⟨a, st, rfl, hi, h⟩

theorem replays_take {r : Read α} {a : α} (hr : Read.Reads r bytes a)
    (h : ∀ i, Q a { st with input := i }) : Replays (ReadM.take r) st bytes Q := by
  intro position rest hi
  refine ⟨a, { st with input := ⟨position + bytes.length, rest⟩ }, ?_, rfl, h _⟩
  simp only [ReadM.take]
  rw [hi, hr position rest]

theorem replays_mono {m : ReadM α} {Q' : α → ReadState → Prop} (hm : Replays m st bytes Q')
    (h : ∀ a st', Q' a st' → Q a st') : Replays m st bytes Q := by
  intro position rest hi
  obtain ⟨a, st', hr, hi', hq⟩ := hm position rest hi
  exact ⟨a, st', hr, hi', h a st' hq⟩

theorem replays_bind {m : ReadM β} {k : β → ReadM α} {Q₁ : β → ReadState → Prop}
    (hm : Replays m st bytes Q₁) (hk : ∀ b st₁, Q₁ b st₁ → Replays (k b) st₁ bytes' Q) :
    Replays (m >>= k) st (bytes ++ bytes') Q := by
  intro position rest hi
  obtain ⟨b, st₁, hr, hi₁, hq⟩ := hm position (bytes' ++ rest) (by rw [hi, List.append_assoc])
  obtain ⟨a, st', hr', hi', hq'⟩ := hk b st₁ hq (position + bytes.length) rest hi₁
  refine ⟨a, st', (bind_of_ok hr k).trans hr', ?_, hq'⟩
  rw [hi', List.length_append, Nat.add_assoc]

theorem replays_take_bind {r : Read β} {k : β → ReadM α} {b : β} (hr : Read.Reads r bytes b)
    (hk : ∀ i, Replays (k b) { st with input := i } bytes' Q) :
    Replays (ReadM.take r >>= k) st (bytes ++ bytes') Q :=
  have htake : Replays (ReadM.take r) st bytes
      fun a st₁ => a = b ∧ ∃ i, st₁ = { st with input := i } :=
    replays_take hr fun i => ⟨rfl, i, rfl⟩
  replays_bind htake fun _ _ ⟨ha, i, hi⟩ => ha ▸ hi ▸ hk i

/-- A first part that reads nothing. -/
theorem replays_bind_of_ok {m : ReadM β} {k : β → ReadM α} {b : β} {st₁ : ReadState}
    (hm : m st = (.ok b, st₁)) (hi : st₁.input = st.input) (hk : Replays (k b) st₁ bytes Q) :
    Replays (m >>= k) st bytes Q := by
  intro position rest h
  obtain ⟨a, st', hr, hi', hq⟩ := hk position rest (hi.trans h)
  exact ⟨a, st', (bind_of_ok hm k).trans hr, hi', hq⟩

/-- A last part that reads nothing. -/
theorem replays_bind_to_ok {m : ReadM β} {k : β → ReadM α} {Q₁ : β → ReadState → Prop}
    (hm : Replays m st bytes Q₁)
    (hk : ∀ b st₁, Q₁ b st₁ → ∃ a st', k b st₁ = (.ok a, st') ∧ st'.input = st₁.input ∧ Q a st') :
    Replays (m >>= k) st bytes Q := by
  have h := replays_bind (k := k) (Q := Q) hm fun b st₁ hq => (fun position rest hi => by
    obtain ⟨a, st', hr, hi', hq'⟩ := hk b st₁ hq
    exact ⟨a, st', hr, hi'.trans hi, hq'⟩ : Replays (k b) st₁ [] Q)
  rwa [List.append_nil] at h

theorem replays_of_run {m m' : ReadM α} {st₁ : ReadState} (hr : m st = m' st₁)
    (hi : st₁.input = st.input) (hm : Replays m' st₁ bytes Q) : Replays m st bytes Q := by
  intro position rest h
  obtain ⟨a, st', hr', h'⟩ := hm position rest (hi.trans h)
  exact ⟨a, st', hr.trans hr', h'⟩

theorem replays_inScope {scope : Option TypeScope} {m : ReadM α}
    (hm : Replays m { st with typing := st.typing.enter scope } bytes fun a st' =>
      Q a { st' with typing := st'.typing.leave scope }) :
    Replays (ReadM.inScope scope m) st bytes Q := by
  intro position rest h
  obtain ⟨a, st', hr, hi, hq⟩ := hm position rest h
  refine ⟨a, { st' with typing := st'.typing.leave scope }, ?_, hi, hq⟩
  simp only [ReadM.inScope]
  rw [hr]

theorem replays_numbered {m : ReadM Value} {Q : Value → ReadState → Prop}
    (hm : Replays m { st with reservations := st.reservations.reserve } bytes fun w st' =>
      Q w { st' with reservations := st'.reservations.finish w }) :
    Replays (ReadM.numbered m) st bytes Q := by
  intro position rest h
  obtain ⟨w, st', hr, hi, hq⟩ := hm position rest h
  refine ⟨w, { st' with reservations := st'.reservations.finish w }, ?_, hi, hq⟩
  simp only [ReadM.numbered]
  rw [hr]

theorem replays_inField {owner : ClassId} {field : String} {m : ReadM α}
    (hm : Replays m st bytes Q) : Replays (inField owner field m) st bytes Q := by
  intro position rest hi
  obtain ⟨a, st', hr, hi', hq⟩ := hm position rest hi
  exact ⟨a, st', inField_eq_ok.mpr hr, hi', hq⟩

end

end GraphCodec.Pass
