import GraphCodec.Proofs.Advance
import GraphCodec.Proofs.Reading

/-!
# Reading — input that ends early

Compare a run of reading with the run on the same input with more bytes appended.  The two are the
same step by step, up to the bytes that are left, unless the shorter input ends in the middle of a
read.  There the first run fails because bytes are missing, and it says how many at least: if the
second run ends well, it has taken as many of the bytes that were appended (`Read.Senses`,
`Pass.Senses`).

Nothing but the reads themselves looks at the bytes, so that this goes through every pass of
reading, whatever stands in the input and at any depth (`senses_readFramed`).
-/

namespace GraphCodec

/-- The input with more bytes at its end. -/
def Input.extend (i : Input) (more : List UInt8) : Input := ⟨i.position, i.rest ++ more⟩

/-! ### Reads -/

namespace Read

variable {α β : Type}

/-- Appended bytes change nothing, unless bytes are missing; then a read that ends well with the
appended ones takes at least as many of them as are said to be missing. -/
structure Senses (r : Read α) : Prop where
  ok : ∀ {i a j} more, r.onInput i = (.ok a, j) →
    r.onInput (i.extend more) = (.ok a, j.extend more)
  error : ∀ {i e j} more, r.onInput i = (.error e, j) →
    r.onInput (i.extend more) = (.error e, j.extend more) ∨
      ∃ position needed, e = .unexpectedEnd position needed ∧ 1 ≤ needed ∧
        ∀ a k, r.onInput (i.extend more) = (.ok a, k) → k.rest.length + needed ≤ more.length

theorem senses_map (f : α → β) {r : Read α} (hr : Senses r) : Senses (do return f (← r)) := by
  refine ⟨?_, ?_⟩ <;> intro i x j more h <;> rw [map_onInput] at h ⊢ <;>
    rcases hx : r.onInput i with ⟨e | a, j'⟩ <;> rw [hx] at h <;> cases h
  · rw [hr.ok more hx]
    rfl
  · refine (hr.error more hx).imp (fun h => by rw [h]; rfl) ?_
    rintro ⟨position, needed, he, hn, hok⟩
    refine ⟨position, needed, he, hn, fun b k h => ?_⟩
    rcases hy : r.onInput (i.extend more) with ⟨_ | a, k'⟩ <;> rw [hy] at h <;> cases h
    exact hok a _ hy

theorem senses_bytes (len : Nat) : Senses (bytes len) := by
  refine ⟨?_, ?_⟩ <;> rintro ⟨position, rest⟩ x j more h <;>
    simp only [Input.extend, bytes_onInput, List.length_append] at h ⊢ <;> split at h <;> cases h
  · next hlen =>
    rw [if_pos (by omega), List.take_append_of_le_length hlen, List.drop_append_of_le_length hlen]
  · refine .inr ⟨_, _, rfl, by omega, fun text k h => ?_⟩
    split at h <;> cases h
    simp only [List.length_drop, List.length_append]
    omega

theorem senses_bool : Senses bool := by
  refine ⟨?_, ?_⟩ <;> rintro ⟨position, _ | ⟨b, rest⟩⟩ x j more h
  · cases h
  · simp only [onInput, bool, Input.extend, List.cons_append] at h ⊢
    split at h
    · next hb =>
      cases h
      rw [if_pos hb]
    · next hb =>
      split at h <;> cases h
      next hb' => rw [if_neg hb, if_pos hb']
  · cases h
    refine .inr ⟨position, 1, rfl, le_rfl, fun b k h => ?_⟩
    -- the byte that is read is one of those appended
    rcases more with _ | ⟨b', more⟩
    · cases h
    · simp only [onInput, bool, Input.extend, List.nil_append] at h
      split at h
      · cases h
        exact le_rfl
      · split at h <;> cases h
        exact le_rfl
  · simp only [onInput, bool, Input.extend, List.cons_append] at h ⊢
    split at h
    · cases h
    · next hb =>
      split at h <;> cases h
      next hb' =>
      rw [if_neg hb, if_neg hb']
      exact .inl rfl

/-- How reading a number ends when bytes are appended. -/
theorem decodeFrom_append (bits : Nat) (more bytes : List UInt8) :
    ∀ shift acc used : Nat, match Varint.decodeFrom bits shift acc used bytes with
      | .value n used' rest =>
        Varint.decodeFrom bits shift acc used (bytes ++ more) = .value n used' (rest ++ more)
      | .truncated _ => ∀ n used' rest,
        Varint.decodeFrom bits shift acc used (bytes ++ more) = .value n used' rest →
          rest.length + 1 ≤ more.length
      | .overlong => Varint.decodeFrom bits shift acc used (bytes ++ more) = .overlong := by
  induction bytes with
  | nil =>
      intro shift acc used n used' rest h
      obtain ⟨taken, hb, hne, -⟩ := decodeFrom_eq_value h
      have hpos := List.length_pos_of_ne_nil hne
      rw [List.nil_append] at hb
      rw [hb, List.length_append]
      omega
  | cons b bytes ih =>
      intro shift acc used
      simp only [Varint.decodeFrom, List.cons_append]
      by_cases hover : Varint.exceeds bits shift (b.toNat % 128) = true
      · simp only [hover, if_true]
      · simp only [hover]
        by_cases hlast : b.toNat < 128
        · simp only [hlast, if_true]
          rfl
        · simp only [hlast, if_false]
          exact ih _ _ _

theorem senses_varint (bits : Nat) : Senses (varint bits) := by
  refine ⟨?_, ?_⟩ <;> rintro ⟨position, rest⟩ x j more h <;>
    have happend := decodeFrom_append bits more rest 0 0 0 <;>
    simp only [onInput, varint, Varint.decode, Input.extend] at h ⊢ <;>
    cases hd : Varint.decodeFrom bits 0 0 0 rest <;> simp only [hd] at h happend <;> cases h
  · simp only [happend]
  · refine .inr ⟨_, 1, rfl, le_rfl, fun n k h => ?_⟩
    split at h <;> cases h
    next hd => exact happend _ _ _ hd
  · exact .inl (by simp only [happend])

theorem senses_varI32 (positive : Bool) : Senses (varI32 positive) :=
  senses_map _ (senses_varint 32)

theorem senses_varI64 (positive : Bool) : Senses (varI64 positive) :=
  senses_map _ (senses_varint 64)

theorem senses_word32 : Senses word32 := senses_map _ (senses_bytes 4)

theorem senses_word64 : Senses word64 := senses_map _ (senses_bytes 8)

theorem senses_i32 : Senses i32 := senses_map _ senses_word32

theorem senses_i64 : Senses i64 := senses_map _ senses_word64

theorem senses_string : Senses string := by
  have hlen : Senses varU64 := senses_varint 64
  refine ⟨?_, ?_⟩ <;> intro i x j more h <;> rw [string_onInput] at h ⊢ <;>
    rcases hi : varU64.onInput i with ⟨e | len, i₁⟩ <;> simp only [hi] at h
  · cases h
  · rcases hb : (bytes len).onInput i₁ with ⟨e | text, i₂⟩ <;> simp only [hb] at h
    · cases h
    · rw [hlen.ok more hi]
      simp only [(senses_bytes len).ok more hb]
      split at h <;> cases h
      rfl
  · cases h
    refine (hlen.error more hi).imp (fun h => by rw [h]) ?_
    rintro ⟨position, needed, he, hn, hok⟩
    refine ⟨position, needed, he, hn, fun s k h => ?_⟩
    rcases hx : varU64.onInput (i.extend more) with ⟨_ | len, k₁⟩ <;> simp only [hx] at h
    · cases h
    · rcases hb : (bytes len).onInput k₁ with ⟨_ | text, k₂⟩ <;> simp only [hb] at h
      · cases h
      · -- the bytes of the text are taken off what the length has left
        split at h <;> cases h
        have h₁ := hok len k₁ hx
        have h₂ := ((advances_bytes len).of_run hb).length_le
        omega
  · rw [hlen.ok more hi]
    rcases hb : (bytes len).onInput i₁ with ⟨e' | text, i₂⟩ <;> simp only [hb] at h
    · cases h
      refine ((senses_bytes len).error more hb).imp (fun h => by simp only [h]) ?_
      rintro ⟨position, needed, he, hn, hok⟩
      refine ⟨position, needed, he, hn, fun s k h => ?_⟩
      rcases hx : (bytes len).onInput (i₁.extend more) with ⟨_ | text, k₂⟩ <;> simp only [hx] at h
      · cases h
      · split at h <;> cases h
        exact hok text _ hx
    · simp only [(senses_bytes len).ok more hb]
      split at h <;> cases h
      exact .inl rfl

end Read

/-! ### Passes -/

/-- The state with more bytes at the end of its input. -/
def ReadState.extend (st : ReadState) (more : List UInt8) : ReadState :=
  { st with input := st.input.extend more }

namespace Pass

variable {α β : Type}

/-- The error says that bytes are missing, and a run with `more` bytes takes at least as many of
them if it ends well. -/
def Lacks (more : List UInt8) (e : Failure) (y : Except Failure α × ReadState) : Prop :=
  ∃ x position needed, e = .error x ∧ x.root = .decode (.unexpectedEnd position needed) ∧
    1 ≤ needed ∧ ∀ a st, y = (.ok a, st) → st.input.rest.length + needed ≤ more.length

/-- The pass adds nothing to the input, and appended bytes change nothing, unless bytes are
missing. -/
structure Senses (m : ReadM α) : Prop where
  forward : ∀ {st x st'}, m st = (x, st') → st'.input.rest.length ≤ st.input.rest.length
  ok : ∀ {st a st'} more, m st = (.ok a, st') → m (st.extend more) = (.ok a, st'.extend more)
  error : ∀ {st e st'} more, m st = (.error e, st') →
    m (st.extend more) = (.error e, st'.extend more) ∨ Lacks more e (m (st.extend more))

/-- A pass that leaves the input alone. -/
theorem senses_of_blind {m : ReadM α} (hi : ∀ st, (m st).2.input = st.input)
    (h : ∀ st more, m (st.extend more) = ((m st).1, (m st).2.extend more)) : Senses m := by
  refine ⟨fun {st x st'} hr => ?_, fun more hr => ?_, fun more hr => .inl ?_⟩
  · rw [← hi st, hr]
  · rw [h, hr]
  · rw [h, hr]

theorem senses_pure (a : α) : Senses (pure a) := senses_of_blind (fun _ => rfl) fun _ _ => rfl

theorem senses_throw (x : Failure) : Senses (throw x : ReadM α) :=
  senses_of_blind (fun _ => rfl) fun _ _ => rfl

theorem senses_fail (e : CodecError) : Senses (fail e : ReadM α) := senses_throw _

theorem senses_ofExcept (x : Except CodecError α) : Senses (Pass.ofExcept x : ReadM α) := by
  cases x with
  | error e => exact senses_fail e
  | ok a => exact senses_pure a

theorem senses_modify {f : ReadState → ReadState} (hi : ∀ st, (f st).input = st.input)
    (h : ∀ st more, f (st.extend more) = (f st).extend more) :
    Senses (modify f : ReadM PUnit) :=
  senses_of_blind hi fun st more => by rw [modify_run, modify_run, h]

theorem senses_take {r : Read α} (hr : Read.Senses r) (ha : Read.Advances r) :
    Senses (ReadM.take r) := by
  have hrun : ∀ (st : ReadState) {x j}, r.onInput st.input = (x, j) → ReadM.take r st =
      (x.mapError fun e => .error (.decode e), { st with input := j }) := by
    intro st x j h
    simp only [ReadM.take, h]
    cases x <;> rfl
  refine ⟨fun {st x st'} h => ?_, fun {st a st'} more h => ?_, fun {st e st'} more h => ?_⟩ <;>
    rcases hx : r.onInput st.input with ⟨e | a, j⟩ <;> rw [hrun st hx] at h <;> cases h
  · exact (ha.of_run hx).length_le
  · exact (ha.of_run hx).length_le
  · exact hrun (st.extend more) (hr.ok more hx)
  · refine (hr.error more hx).imp (fun h => (hrun (st.extend more) h).trans rfl) ?_
    rintro ⟨position, needed, rfl, hn, hok⟩
    refine ⟨_, position, needed, rfl, rfl, hn, fun a st' h => ?_⟩
    rcases hy : r.onInput (st.extend more).input with ⟨_ | _, k⟩ <;> rw [hrun _ hy] at h <;> cases h
    exact hok a _ hy

theorem senses_bind {m : ReadM β} {k : β → ReadM α} (hm : Senses m)
    (hk : ∀ b, CanReturn m b → Senses (k b)) : Senses (m >>= k) := by
  refine ⟨fun {st x st'} h => ?_, fun {st a st'} more h => ?_, fun {st e st'} more h => ?_⟩
  · rcases hr : m st with ⟨e | b, st₁⟩
    · rw [bind_of_error hr] at h
      cases h
      exact hm.forward hr
    · rw [bind_of_ok hr] at h
      exact ((hk b ⟨st, _, hr⟩).forward h).trans (hm.forward hr)
  · obtain ⟨b, st₁, h₁, h₂⟩ := bind_eq_ok.mp h
    rw [bind_of_ok (hm.ok more h₁)]
    exact (hk b ⟨st, _, h₁⟩).ok more h₂
  · rcases hr : m st with ⟨e' | b, st₁⟩
    · rw [bind_of_error hr] at h
      cases h
      refine (hm.error more hr).imp (fun h => bind_of_error h k) ?_
      rintro ⟨x, position, needed, he, hroot, hn, hok⟩
      refine ⟨x, position, needed, he, hroot, hn, fun a st' h => ?_⟩
      -- what follows only takes more bytes
      obtain ⟨b, st₂, h₁, h₂⟩ := bind_eq_ok.mp h
      have hle := (hk b ⟨_, _, h₁⟩).forward h₂
      have hlt := hok b st₂ h₁
      omega
    · rw [bind_of_ok hr] at h
      rw [bind_of_ok (hm.ok more hr)]
      exact (hk b ⟨st, _, hr⟩).error more h

/-- What follows may look at the state, as long as it does not look at the bytes that are left. -/
theorem senses_get_bind {k : ReadState → ReadM α} (hk : ∀ st, Senses (k st))
    (hsame : ∀ st more, k (st.extend more) = k st) : Senses (get >>= k) := by
  have hrun : ∀ st more, (get >>= k : ReadM α) (st.extend more) = k st (st.extend more) :=
    fun st more => congrFun (hsame st more) _
  refine ⟨fun {st _ _} h => (hk st).forward h, fun {st _ _} more h => ?_,
    fun {st _ _} more h => ?_⟩
  · rw [hrun]
    exact (hk st).ok more h
  · rw [hrun]
    exact (hk st).error more h

theorem senses_inField {owner : ClassId} {field : String} {m : ReadM α} (hm : Senses m) :
    Senses (inField owner field m) := by
  refine ⟨fun {st x st'} h => ?_, fun {st a st'} more h => ?_, fun {st e st'} more h => ?_⟩
  · simp only [inField] at h
    rcases hr : m st with ⟨_ | a, st₁⟩ <;> rw [hr] at h <;> cases h <;> exact hm.forward hr
  · exact inField_eq_ok.mpr (hm.ok more (inField_eq_ok.mp h))
  · simp only [inField] at h
    rcases hr : m st with ⟨e' | a, st₁⟩ <;> rw [hr] at h <;> cases h
    refine (hm.error more hr).imp (fun h => inField_error h) ?_
    rintro ⟨x, position, needed, rfl, hroot, hn, hok⟩
    exact ⟨_, position, needed, rfl, hroot, hn, fun a st' h => hok a st' (inField_eq_ok.mp h)⟩

/-- A part of the state beside the input is changed before a pass, and another one after it. -/
theorem senses_around {m m' : ReadM α} {f : ReadState → ReadState}
    {g : Except Failure α → ReadState → ReadState} (hm : Senses m)
    (hrun : ∀ st, m' st = ((m (f st)).1, g (m (f st)).1 (m (f st)).2))
    (hf : ∀ st, (f st).input = st.input) (hf' : ∀ st more, f (st.extend more) = (f st).extend more)
    (hg : ∀ x st, (g x st).input = st.input)
    (hg' : ∀ x st more, g x (st.extend more) = (g x st).extend more) : Senses m' := by
  have hext : ∀ st more, m' (st.extend more) = ((m ((f st).extend more)).1,
      g (m ((f st).extend more)).1 (m ((f st).extend more)).2) := fun st more => by
    rw [hrun, hf']
  refine ⟨fun {st x st'} h => ?_, fun {st a st'} more h => ?_, fun {st e st'} more h => ?_⟩ <;>
    rw [hrun] at h <;> rcases hr : m (f st) with ⟨x, st₁⟩ <;> rw [hr] at h <;> cases h
  · rw [hg, ← hf st]
    exact hm.forward hr
  · rw [hext, hm.ok more hr, hg']
  · rw [hext]
    refine (hm.error more hr).imp (fun h => by rw [h, hg']) ?_
    rintro ⟨x, position, needed, he, hroot, hn, hok⟩
    refine ⟨x, position, needed, he, hroot, hn, fun a st' h => ?_⟩
    rcases hy : m ((f st).extend more) with ⟨y, st₂⟩
    rw [hy] at h
    cases h
    rw [hg]
    exact hok a _ hy

theorem senses_inScope (scope : Option TypeScope) {m : ReadM α} (hm : Senses m) :
    Senses (ReadM.inScope scope m) :=
  senses_around (f := fun st => { st with typing := st.typing.enter scope })
    (g := fun _ st => { st with typing := st.typing.leave scope }) hm (fun _ => rfl)
    (fun _ => rfl) (fun _ _ => rfl) (fun _ _ => rfl) fun _ _ _ => rfl

theorem senses_numbered {m : ReadM Value} (hm : Senses m) : Senses (ReadM.numbered m) := by
  refine senses_around (f := fun st => { st with reservations := st.reservations.reserve })
    (g := fun x st => { st with reservations := match x with
      | .ok v => st.reservations.finish v
      | .error _ => st.reservations.abandon }) hm (fun st => ?_)
    (fun _ => rfl) (fun _ _ => rfl) (fun _ _ => rfl) fun _ _ _ => rfl
  simp only [ReadM.numbered]
  rcases m { st with reservations := st.reservations.reserve } with ⟨_ | v, st₁⟩ <;> rfl

end Pass

namespace Codec

open Pass

variable {α : Type} {c : Codec} {rs : List RecordSerializer}

/-! ### Fields and objects -/

theorem senses_setSlot (s : Slot) (o : ObjectId) (v : Value) : Senses (ReadM.setSlot s o v) :=
  senses_get_bind (fun _ => senses_bind (senses_ofExcept _) fun _ _ =>
    senses_modify (fun _ => rfl) fun _ _ => rfl) fun _ _ => rfl

theorem senses_known (number : Nat) : Senses (ReadM.known number) :=
  senses_get_bind (fun st => by
    cases st.reservations.get? number with
    | some o => exact senses_pure _
    | none => exact senses_fail _) fun _ _ => rfl

theorem senses_takeArguments (r : RecordSerializer) : Senses (ReadM.takeArguments r) :=
  senses_get_bind (fun _ => senses_bind (senses_of_blind (fun _ => rfl) fun _ _ => rfl) fun _ _ =>
    senses_ofExcept _) fun _ _ => rfl

theorem senses_varU32 : Senses (ReadM.take Read.varU32) :=
  senses_take (Read.senses_varint 32) (Read.advances_varint 32)

theorem senses_readBool : Senses (ReadM.take Read.bool) :=
  senses_take Read.senses_bool Read.advances_bool

theorem senses_readTag : Senses c.readTag :=
  senses_get_bind (fun _ => senses_bind senses_varU32 fun n _ => by
    cases n with
    | zero => exact senses_pure _
    | succ n =>
        simp only
        split
        · exact senses_pure _
        · exact senses_fail _) fun _ _ => rfl

theorem senses_number (e : FieldEntry) {r : Read α} (hr : Read.Senses r) (ha : Read.Advances r)
    (f : α → Value) :
    Senses (do if ← readPresence e then return f (← ReadM.take r) else return .null) := by
  have hpresence : Senses (readPresence e) := by
    simp only [readPresence]
    split
    · exact senses_readBool
    · exact senses_pure _
  refine senses_bind hpresence fun b _ => ?_
  split
  · exact senses_bind (senses_take hr ha) fun _ _ => senses_pure _
  · exact senses_pure _

theorem senses_readStock {t : ValueType} {s : Stock} (hs : t.stock? = some s)
    (nested : Frame → ReadM Value) : Senses (c.readStock nested t s) := by
  cases t <;> cases hs
  · exact senses_bind senses_readBool fun _ _ => senses_pure _
  · exact senses_bind (senses_take (Read.senses_varI32 _) (Read.advances_varI32 _)) fun _ _ =>
      senses_pure _
  · exact senses_bind (senses_take (Read.senses_varI64 _) (Read.advances_varI64 _)) fun _ _ =>
      senses_pure _
  · exact senses_bind (senses_take Read.senses_word32 Read.advances_word32) fun _ _ =>
      senses_pure _
  · exact senses_bind (senses_take Read.senses_word64 Read.advances_word64) fun _ _ =>
      senses_pure _
  · exact senses_bind (senses_take Read.senses_string Read.advances_string) fun _ _ =>
      senses_pure _

section

variable (hc : c.Lists rs) {nested : Frame → ReadM Value}
  (hn : ∀ f, Served rs f.type f.serializer → Senses (nested f))
include hc hn

theorem senses_readTagged : Senses (c.readTagged nested) :=
  senses_bind senses_readTag fun x hx => by
    cases x with
    | none => exact senses_pure _
    | some x =>
        obtain ⟨n, hx⟩ := registrationAt?_of_readTag hx
        exact hn _ (hc.served_of_registrationAt? hx)

theorem senses_readFlat (t : ValueType) (args : List ConcreteType) :
    Senses (c.readFlat nested t args) := by
  simp only [readFlat]
  cases hs : c.serializer t with
  | error e => exact senses_fail (.config e)
  | ok s => exact hn _ (hc.served_of_serializer hs)

theorem senses_readPlanned {e : FieldEntry} (he : e.serializer = none)
    {resolved : Option ConcreteType} {p : Plan} (hp : e.plan c resolved = .ok p) :
    Senses (c.readPlanned nested e p) := by
  cases p with
  | dynamic => exact senses_readTagged hc hn
  | known f => exact hn f (hc.served_of_plan he hp).1
  | int =>
      refine senses_number e ?_ ?_ Value.int <;> split
      · exact Read.senses_varI32 _
      · exact Read.senses_i32
      · exact Read.advances_varI32 _
      · exact Read.advances_i32
  | long =>
      refine senses_number e ?_ ?_ Value.long <;> split
      · exact Read.senses_varI64 _
      · exact Read.senses_i64
      · exact Read.advances_varI64 _
      · exact Read.advances_i64

theorem senses_readField {e : FieldEntry} (he : e.serializer = none) (o : ObjectId)
    (resolved : Option ConcreteType) : Senses (c.readField nested e o resolved) := by
  have hvalue : Senses (c.readFieldValue nested e resolved) := by
    rw [readFieldValue_eq]
    exact senses_bind (senses_ofExcept _) fun p hp => senses_readPlanned hc hn he hp.ofExcept
  refine senses_bind hvalue fun v _ => ?_
  split
  · exact senses_fail _
  · exact senses_setSlot _ _ _

theorem senses_readFields {r : RecordSerializer} (hr : r ∈ rs) (own : Option Resolution)
    (o : ObjectId) {t : FieldTable} (ht : ∀ e ∈ t, e ∈ r.entries) (index : Nat) :
    Senses (c.readFields nested r own o index t) := by
  induction t generalizing index with
  | nil => exact senses_pure _
  | cons e t ih =>
      obtain ⟨he, ht⟩ := List.forall_mem_cons.mp ht
      have hbare := (hc.plain r hr).follows.bare e he
      simp only [readFields]
      split
      · refine senses_get_bind (fun st => ?_) fun _ _ => rfl
        exact senses_bind (senses_inField (senses_readField hc hn hbare o _)) fun _ _ => ih ht _
      · exact ih ht _

omit hn in
theorem senses_readInstance {r : RecordSerializer} (hr : r ∈ rs) : Senses (c.readInstance r) := by
  refine senses_of_blind (fun st => ?_) fun st more => ?_
  · rw [readInstance_eq hc hr]
    split <;> rfl
  · rw [readInstance_eq hc hr, readInstance_eq hc hr]
    split <;> rfl

theorem senses_readBody {f : Frame} (hf : Served rs f.type f.serializer) :
    Senses (c.readBody nested f) := by
  obtain ⟨t, s, args, nullable⟩ := f
  have hsupply : Senses (ReadM.supply s args) := senses_modify (fun _ => rfl) fun _ _ => rfl
  cases hf with
  | stock hs => exact senses_bind hsupply fun _ _ => senses_readStock hs nested
  | record hr =>
      next r =>
      refine senses_bind hsupply fun _ _ => ?_
      refine senses_bind (senses_takeArguments r) fun own _ => ?_
      refine senses_inScope _ (senses_bind (senses_readInstance hc hr) fun o _ => ?_)
      refine senses_bind (senses_modify (fun _ => rfl) fun _ _ => rfl) fun _ _ => ?_
      exact senses_bind (senses_readFields hc hn hr own o (fun _ he => he) 0) fun _ _ =>
        senses_pure _

end

/-! ### The walk -/

/-- However deep a pass may go, appended bytes change nothing, unless bytes are missing. -/
theorem senses_readFramed (hc : c.Lists rs) (n : Nat) (f : Frame)
    (hf : Served rs f.type f.serializer) : Senses (c.readFramed n f) := by
  induction n generalizing f with
  | zero => exact senses_throw _
  | succ n ih =>
      have hbody := senses_readBody hc ih hf
      rw [readFramed_eq_readAround]
      simp only [readAround]
      split
      · refine senses_bind senses_varU32 fun code _ => ?_
        split
        · split
          · exact senses_pure _
          · exact senses_fail _
        · exact senses_known _
        · exact senses_numbered hbody
      · split
        · refine senses_bind senses_readBool fun b _ => ?_
          split
          · exact hbody
          · exact senses_pure _
        · exact hbody

end Codec

end GraphCodec
