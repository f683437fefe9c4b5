import GraphCodec.Proofs.Reading

/-!
# Reading — with checks of types

Inside the frame of a class stands a new object of that class, or the number of an object, and then
reading does not look at the class of that object.  `readStrict` reads in the same way but fails at
a number if the object is not of the type that the frame asks for.  `readAudited` leaves numbers
alone and checks the type of every value after it was read, be it the value of a field or one with
a type tag in front of it.

* `readAudited_eq`: both fail at the same places, so that only numbers lead to values of a wrong
  type.
* `tracks_readStrict`: where strict reading does not fail because of such a number, it is the same
  as reading.
-/

namespace GraphCodec

namespace ReadM

/-- Fails unless the value is null or of the type. -/
def expect (t : ValueType) (v : Value) : ReadM Value := do
  let st ← get
  match st.heap.typeOf v with
  | some found => if found = t then return v else Pass.fail (st.heap.mismatch t v)
  | none => return v

/-- The object of a number, which must be of the type. -/
def knownAs (t : ValueType) (number : Nat) : ReadM Value := do
  expect t (← known number)

end ReadM

/-- Somewhere below its wrappers the failure is that a value is of another type. -/
def CodecError.IsMismatch (e : CodecError) : Prop :=
  ∃ expected found, found ≠ expected ∧ e.root = .encode (.typeMismatch expected found)

namespace Codec

open Pass

/-- Reads a value inside its frame, and fails at the number of an object of another type. -/
def readStrict (c : Codec) : (depth : Nat) → Frame → ReadM Value
  | 0, _ => throw .tooDeep
  | depth + 1, f => c.readFrame (c.readStrict depth) ReadM.knownAs f

/-- Reads a value inside its frame, and checks the type of every value after it was read. -/
def readAudited (c : Codec) : (depth : Nat) → Frame → ReadM Value
  | 0, _ => throw .tooDeep
  | depth + 1, f => do
    ReadM.expect f.type (← c.readFrame (c.readAudited depth) (fun _ => ReadM.known) f)

/-- Reads a value with its type tag strictly. -/
def readValueStrict (c : Codec) (depth : Nat) (h : Heap) (input : Input) : WasRead :=
  c.runRead h input (c.readTagged (c.readStrict depth))

/-- Reads a value with its type tag, and checks all types. -/
def readValueAudited (c : Codec) (depth : Nat) (h : Heap) (input : Input) : WasRead :=
  c.runRead h input (c.readTagged (c.readAudited depth))

variable {α : Type} {c : Codec} {rs : List RecordSerializer} {g : Heap}

/-! ### Expected types -/

section

variable {t found : ValueType} {v : Value} {st : ReadState}

theorem expect_run_of_null (h : st.heap.typeOf v = none) : ReadM.expect t v st = (.ok v, st) := by
  refine (bind_of_ok (get_run st) _).trans ?_
  simp only [h, pure_run]

theorem expect_run_of_typeOf (h : st.heap.typeOf v = some t) :
    ReadM.expect t v st = (.ok v, st) := by
  refine (bind_of_ok (get_run st) _).trans ?_
  simp only [h, if_true, pure_run]

theorem expect_run_of_ne (h : st.heap.typeOf v = some found) (hne : found ≠ t) :
    ReadM.expect t v st = (.error (.error (st.heap.mismatch t v)), st) := by
  refine (bind_of_ok (get_run st) _).trans ?_
  simp only [h, if_neg hne, fail_run]

end

theorem tracks_expect (I : ReadState → Prop) (t : ValueType) (v : Value) :
    Tracks I CodecError.IsMismatch (pure v) (ReadM.expect t v) := by
  intro st _
  cases hv : st.heap.typeOf v with
  | none => exact .inl (expect_run_of_null hv)
  | some found =>
      by_cases ht : found = t
      · exact .inl (expect_run_of_typeOf (ht ▸ hv))
      · refine .inr ⟨_, st, expect_run_of_ne hv ht, t, found, ht, ?_⟩
        simp only [Heap.mismatch, hv]
        rfl

theorem keeps_expect (I : ReadState → Prop) (t : ValueType) (v : Value) :
    Keeps I (ReadM.expect t v) :=
  keeps_get_bind fun st _ => by
    split
    · split
      · exact keeps_pure _
      · exact keeps_fail _
    · exact keeps_pure _

theorem keeps_knownAs (t : ValueType) (number : Nat) :
    Keeps (ReadState.Quiet rs g) (ReadM.knownAs t number) :=
  keeps_bind (keeps_known number) fun v _ => keeps_expect _ t v

theorem keeps_readStrict (hc : c.Lists rs) (n : Nat) (f : Frame)
    (hf : Served rs f.type f.serializer) : Keeps (ReadState.Quiet rs g) (c.readStrict n f) := by
  induction n generalizing f with
  | zero => exact fun _ h => h
  | succ n ih => exact keeps_readFrame hc ih keeps_knownAs hf

/-! ### Side by side -/

section

variable {I : ReadState → Prop} {F : CodecError → Prop}

theorem tracks_inScope (scope : Option TypeScope) {m m' : ReadM α}
    (hm : Tracks (ReadState.Quiet rs g) F m m') :
    Tracks (ReadState.Quiet rs g) F (ReadM.inScope scope m) (ReadM.inScope scope m') := by
  intro st h
  simp only [ReadM.inScope]
  rcases hm { st with typing := st.typing.enter scope } { h with } with hr | ⟨e, st', hr, he⟩
  · exact .inl (by rw [hr])
  · exact .inr ⟨e, _, by rw [hr], he⟩

theorem tracks_numbered {m m' : ReadM Value} (hm : Tracks (ReadState.Quiet rs g) F m m') :
    Tracks (ReadState.Quiet rs g) F (ReadM.numbered m) (ReadM.numbered m') := by
  intro st h
  simp only [ReadM.numbered]
  rcases hm { st with reservations := st.reservations.reserve } { h with } with
    hr | ⟨e, st', hr, he⟩
  · exact .inl (by rw [hr])
  · exact .inr ⟨e, _, by rw [hr], he⟩

variable (hc : c.Lists rs) (hF : ∀ owner field e, F e → F (.inField owner field e))
  {nested nested' : Frame → ReadM Value}
  (hk : ∀ f, Served rs f.type f.serializer → Keeps (ReadState.Quiet rs g) (nested f))
  (hn : ∀ f, Served rs f.type f.serializer →
    Tracks (ReadState.Quiet rs g) F (nested f) (nested' f))
include hc hn

theorem tracks_readTagged :
    Tracks (ReadState.Quiet rs g) F (c.readTagged nested) (c.readTagged nested') :=
  tracks_bind (tracks_refl _) keeps_readTag fun x hx => by
    cases x with
    | none => exact tracks_refl _
    | some x =>
        obtain ⟨n, hx⟩ := registrationAt?_of_readTag hx
        exact hn _ (hc.served_of_registrationAt? hx)

theorem tracks_readPlanned {e : FieldEntry} (he : e.serializer = none)
    {resolved : Option ConcreteType} {p : Plan} (hp : e.plan c resolved = .ok p) :
    Tracks (ReadState.Quiet rs g) F (c.readPlanned nested e p) (c.readPlanned nested' e p) := by
  cases p with
  | dynamic => exact tracks_readTagged hc hn
  | known f => exact hn f (hc.served_of_plan he hp).1
  | int => exact tracks_refl _
  | long => exact tracks_refl _

include hF hk

theorem tracks_readFields {r : RecordSerializer} (hr : r ∈ rs) (own : Option Resolution)
    (o : ObjectId) {t : FieldTable} (ht : ∀ e ∈ t, e ∈ r.entries) (index : Nat) :
    Tracks (ReadState.Quiet rs g) F (c.readFields nested r own o index t)
      (c.readFields nested' r own o index t) := by
  induction t generalizing index with
  | nil => exact tracks_refl _
  | cons e t ih =>
      obtain ⟨he, ht⟩ := List.forall_mem_cons.mp ht
      have hbare := (hc.plain r hr).follows.bare e he
      simp only [readFields]
      split
      · refine tracks_bind (tracks_refl _) (fun _ h => h) fun st _ => ?_
        refine tracks_bind (tracks_inField ?_ (hF _ _))
          (keeps_inField (keeps_readField hc hk hbare o _)) fun _ _ => ih ht _
        -- the value is read with the checks, and then the slot is set in the same way
        refine tracks_bind ?_ (keeps_readFieldValue hc hk hbare _) fun v _ => tracks_refl _
        rw [readFieldValue_eq, readFieldValue_eq]
        exact tracks_bind (tracks_refl _) (keeps_ofExcept _) fun p hp =>
          tracks_readPlanned hc hn hbare hp.ofExcept
      · exact ih ht _

theorem tracks_readBody {f : Frame} (hf : Served rs f.type f.serializer) :
    Tracks (ReadState.Quiet rs g) F (c.readBody nested f) (c.readBody nested' f) := by
  obtain ⟨t, s, args, nullable⟩ := f
  cases hf with
  | stock hs =>
      refine tracks_bind (tracks_refl _) (keeps_supply_stock _ _) fun _ _ => ?_
      cases t <;> cases hs <;> exact tracks_refl _
  | record hr =>
      next r =>
      intro st h
      obtain ⟨cells, hq, hrun⟩ := ReadM.supply_takeArguments (α := Value) hr args h.cells
      simp only [readBody, readWith, readRecord]
      rw [hrun, hrun]
      have hquiet : ReadState.Quiet rs g { st with typing := ⟨st.typing.scopes, cells⟩ } :=
        ⟨hq, h.widens⟩
      refine tracks_bind (tracks_refl _) (keeps_ofExcept _) (fun own _ => ?_) _ hquiet
      refine tracks_inScope _ (tracks_bind (tracks_refl _) (keeps_readInstance hc hr) fun o _ => ?_)
      refine tracks_bind (tracks_refl _) (keeps_modify fun _ h => { h with }) fun _ _ => ?_
      exact tracks_bind (tracks_readFields hc hF hk hn hr own o (fun _ he => he) 0)
        (keeps_readFields hc hk hr own o (fun _ he => he) 0) fun _ _ => tracks_refl _

theorem tracks_readFrame {back back' : ValueType → Nat → ReadM Value}
    (hback : ∀ t number, Tracks (ReadState.Quiet rs g) F (back t number) (back' t number))
    {f : Frame} (hf : Served rs f.type f.serializer) :
    Tracks (ReadState.Quiet rs g) F (c.readFrame nested back f) (c.readFrame nested' back' f) := by
  have hbody := tracks_readBody hc hF hk hn hf
  simp only [readFrame]
  split
  · refine tracks_bind (tracks_refl _) (keeps_take _) fun code _ => ?_
    split
    · exact tracks_refl _
    · exact hback _ _
    · exact tracks_numbered hbody
  · split
    · refine tracks_bind (tracks_refl _) (keeps_take _) fun b _ => ?_
      split
      · exact hbody
      · exact tracks_refl _
    · exact hbody

end

/-- Strict reading fails at the number of an object of another type, or does what reading does. -/
theorem tracks_readStrict (hc : c.Lists rs) (n : Nat) (f : Frame)
    (hf : Served rs f.type f.serializer) :
    Tracks (ReadState.Quiet rs g) CodecError.IsMismatch (c.readFramed n f) (c.readStrict n f) := by
  induction n generalizing f with
  | zero => exact tracks_refl _
  | succ n ih =>
      rw [readFramed_succ]
      -- the two differ in how they take a number
      refine tracks_readFrame hc (fun owner field e he => he) (keeps_readFramed hc n) ih
        (fun t number => ?_) hf
      have h : Tracks (ReadState.Quiet rs g) CodecError.IsMismatch (ReadM.known number >>= pure)
          (ReadM.knownAs t number) :=
        tracks_bind (tracks_refl _) (keeps_known number) fun v _ => tracks_expect _ t v
      rwa [bind_pure] at h

/-! ### Audits -/

/-- What is read in full inside a frame is of the type of the frame. -/
theorem typeOf_of_readBody (hc : c.Lists rs) {nested : Frame → ReadM Value}
    (hk : ∀ g f, Served rs f.type f.serializer → Keeps (ReadState.Quiet rs g) (nested f))
    {f : Frame} (hf : Served rs f.type f.serializer) {st st' : ReadState}
    (hq : st.typing.cells.Quiet rs) {w : Value} (hrun : c.readBody nested f st = (.ok w, st')) :
    st'.heap.typeOf w = some f.type := by
  obtain ⟨t, s, args, nullable⟩ := f
  cases hf with
  | stock hs =>
      obtain ⟨_, st₁, -, hrun⟩ := bind_eq_ok.mp hrun
      cases t <;> cases hs <;> obtain ⟨_, _, -, hrun⟩ := bind_eq_ok.mp hrun <;> cases hrun <;> rfl
  | record hr =>
      next r =>
      obtain ⟨cells, hq', hsupply⟩ := ReadM.supply_takeArguments (α := Value) hr args hq
      simp only [readBody, readWith, readRecord] at hrun
      rw [hsupply] at hrun
      obtain ⟨own, st₁, hown, hrun⟩ := bind_eq_ok.mp hrun
      obtain ⟨-, rfl⟩ := ofExcept_eq_ok.mp hown
      obtain ⟨st₂, hbody, rfl⟩ := inScope_eq_ok.mp hrun
      obtain ⟨o, st₃, hmake, hbody⟩ := bind_eq_ok.mp hbody
      rw [readInstance_run hc hr (constructible_of_readInstance hc hr ⟨_, _, hmake⟩)] at hmake
      cases hmake
      obtain ⟨_, st₄, hbind, hbody⟩ := bind_eq_ok.mp hbody
      cases hbind
      obtain ⟨_, st₅, hfields, hbody⟩ := bind_eq_ok.mp hbody
      cases hbody
      -- the fields are read with the new instance in the heap, and leave it its class
      have hkeep : ReadState.Quiet rs (st.heap.alloc (.fresh r.decl)).2 _ :=
        (keeps_readFields hc (hk _) hr own _ (fun _ he => he) 0).of_run hfields ⟨hq', .refl _⟩
      have howner := hkeep.widens.owner st.heap.size (by simp)
      rw [Heap.get_alloc_self] at howner
      exact congrArg (fun c => some (ValueType.object c)) howner

theorem typeOf_of_numbered {body : ReadM Value} {t : ValueType}
    (hb : ∀ st st' w, st.typing.cells.Quiet rs → body st = (.ok w, st') →
      st'.heap.typeOf w = some t) {st st' : ReadState} {w : Value}
    (hq : st.typing.cells.Quiet rs) (hrun : ReadM.numbered body st = (.ok w, st')) :
    st'.heap.typeOf w = some t := by
  simp only [ReadM.numbered] at hrun
  rcases hr : body { st with reservations := st.reservations.reserve } with ⟨_ | v, st₁⟩
  · rw [hr] at hrun
    cases hrun
  · rw [hr] at hrun
    cases hrun
    exact hb { st with reservations := st.reservations.reserve } st₁ w hq hr

/-- A check that cannot fail. -/
theorem tracks_expect_of_typeOf {F : CodecError → Prop} {m m' : ReadM Value} {t : ValueType}
    (hm : Tracks (ReadState.Quiet rs g) (fun _ => False) m m')
    (ht : ∀ st st' w, st.typing.cells.Quiet rs → m st = (.ok w, st') →
      st'.heap.typeOf w = some t) :
    Tracks (ReadState.Quiet rs g) F m (do ReadM.expect t (← m')) := by
  intro st h
  rcases hm st h with hr | ⟨_, _, _, he⟩
  · left
    rw [bind_run, hr]
    rcases hm' : m st with ⟨_ | w, st'⟩
    · rfl
    · exact expect_run_of_typeOf (ht st st' w h.cells hm')
  · exact he.elim

/-- An audit fails exactly where strict reading fails: what is read in full is of the right type. -/
theorem tracks_readAudited (hc : c.Lists rs) (n : Nat) (f : Frame)
    (hf : Served rs f.type f.serializer) :
    Tracks (ReadState.Quiet rs g) (fun _ => False) (c.readStrict n f) (c.readAudited n f) := by
  induction n generalizing f with
  | zero => exact tracks_refl _
  | succ n ih =>
      have hbody : Tracks (ReadState.Quiet rs g) (fun _ => False) (c.readBody (c.readStrict n) f)
          (c.readBody (c.readAudited n) f) :=
        tracks_readBody hc (fun _ _ _ he => he) (keeps_readStrict hc n) ih hf
      have htype : ∀ st st' w, st.typing.cells.Quiet rs →
          c.readBody (c.readStrict n) f st = (.ok w, st') → st'.heap.typeOf w = some f.type :=
        fun st st' w hq => typeOf_of_readBody hc (fun g f => keeps_readStrict hc n f) hf hq
      simp only [readStrict, readAudited]
      by_cases hm : (f.type.isReference && c.references) = true
      · obtain ⟨ht, hr⟩ := Bool.and_eq_true_iff.mp hm
        rw [readFrame_marked _ _ _ hr ht, readFrame_marked _ _ _ hr ht, bind_assoc]
        refine tracks_bind (tracks_refl _) (keeps_take _) fun code _ => ?_
        cases Marker.ofCode code with
        | null =>
            simp only
            split <;> exact tracks_refl _
        -- both sides check a number
        | known number => exact tracks_refl _
        | new =>
            exact tracks_expect_of_typeOf (tracks_numbered hbody) fun st st' w hq =>
              typeOf_of_numbered htype hq
      · rw [Bool.not_eq_true] at hm
        rw [readFrame_unmarked _ _ _ hm, readFrame_unmarked _ _ _ hm]
        split
        · rw [bind_assoc]
          refine tracks_bind (tracks_refl _) (keeps_take _) fun b _ => ?_
          cases b with
          | true => exact tracks_expect_of_typeOf hbody htype
          | false => exact tracks_refl _
        · exact tracks_expect_of_typeOf hbody htype

end Codec

end GraphCodec
