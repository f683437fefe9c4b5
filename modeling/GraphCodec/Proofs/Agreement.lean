import GraphCodec.Proofs.Advance
import GraphCodec.Proofs.Reading

/-!
# Codecs — passes that do the same

Two passes that treat the values inside an object alike treat the object alike.  What the passes
do with these values, and how they come by the type arguments of an object, is left open here.

* `WriteState.InStep`, `ReadState.InStep`: relations of two writers, or of two readers, that the
  walk over values and fields keeps.
* `WriteState.Matches`: two writers that are at the same place, with the same objects open.
* `WriteState.SameTyping`: relations of two writers that come by the same type arguments.
* `ReadState.Matches`: two readers that are at the same place, with no more than some number of
  bytes left.
-/

namespace GraphCodec

/-- Writers in this relation know the same bindings, and stay in it when both write the same. -/
class WriteState.InStep (R : WriteState → WriteState → Prop) : Prop where
  scopes : ∀ {st st'}, R st st' → st'.typing.scopes = st.typing.scopes
  output : ∀ {st st'}, R st st' → ∀ f : Output → Output,
    R { st with output := f st.output } { st' with output := f st'.output }

/-- The states differ at most in their cells, which `P` relates, and the objects of `A` are being
written. -/
structure WriteState.Matches (P : ArgumentCells → ArgumentCells → Prop) (A : List ObjectId)
    (st st' : WriteState) : Prop where
  output : st'.output = st.output
  numbering : st'.numbering = st.numbering
  path : st.path = A
  path' : st'.path = A
  scopes : st'.typing.scopes = st.typing.scopes
  cells : P st.typing.cells st'.typing.cells

instance {P : ArgumentCells → ArgumentCells → Prop} {A : List ObjectId} :
    WriteState.InStep (WriteState.Matches P A) where
  scopes hst := hst.scopes
  output hst f := { hst with output := congrArg f hst.output }

/-- Writers in this relation have the same type arguments, and stay in it when both get the same. -/
class WriteState.SameTyping (R : WriteState → WriteState → Prop) : Prop
    extends WriteState.InStep R where
  typing : ∀ {st st'}, R st st' → st'.typing = st.typing
  retype : ∀ {st st'}, R st st' → ∀ f : Typing → Typing,
    R { st with typing := f st.typing } { st' with typing := f st'.typing }

/-- Two writers at the same place with the same cells are in the same state. -/
theorem WriteState.Matches.eq {A : List ObjectId}
    {st st' : WriteState} (hst : WriteState.Matches Eq A st st') :
    st' = st := by
  obtain ⟨out, numbering, path, scopes, cells⟩ := st
  obtain ⟨out', numbering', path', scopes', cells'⟩ := st'
  obtain ⟨h₁, h₂, h₃, h₄, h₅, h₆⟩ := hst
  cases h₁
  cases h₂
  cases h₃
  cases h₄
  cases h₅
  cases h₆
  rfl

instance {A : List ObjectId} : WriteState.SameTyping (WriteState.Matches Eq A) where
  typing hst := congrArg WriteState.typing hst.eq
  retype {st st'} hst f := by
    obtain rfl := hst.eq
    exact { hst with scopes := rfl, cells := rfl }

namespace WriteM

open Pass

variable {P : ArgumentCells → ArgumentCells → Prop} {A : List ObjectId}

section

variable {R : WriteState → WriteState → Prop} [WriteState.InStep R]

theorem agrees_item (i : Item) : Agrees R (item i) (item i) :=
  agrees_modify fun _ _ hst => WriteState.InStep.output hst (Output.write · i)

theorem agrees_varint (n : Nat) : Agrees R (varint n) (varint n) :=
  agrees_modify fun _ _ hst => WriteState.InStep.output hst (Output.writeVarint · n)

end

section

variable {R : WriteState → WriteState → Prop} [WriteState.SameTyping R]

theorem agrees_retype (f : Typing → Typing) :
    Agrees R (modify fun st => { st with typing := f st.typing } : WriteM PUnit)
      (modify fun st => { st with typing := f st.typing }) :=
  agrees_modify fun _ _ hst => WriteState.SameTyping.retype hst f

theorem agrees_supply (s : Serializer) (args : List ConcreteType) :
    Agrees R (supply s args) (supply s args) :=
  agrees_retype fun t => t.supply s args

theorem agrees_takeArguments (r : RecordSerializer) :
    Agrees R (takeArguments r) (takeArguments r) := by
  refine agrees_get_bind fun st st' hst => ?_
  rw [WriteState.SameTyping.typing hst]
  exact agrees_bind (agrees_retype fun _ => _) fun _ _ => agrees_ofExcept _

theorem agrees_scoped (scope : Option TypeScope) {body body' : WriteM Unit}
    (hb : Agrees R body body') : Agrees R (inScope scope body) (inScope scope body') := by
  intro st st' hst
  obtain ⟨h₁, h₂⟩ := hb _ _ (WriteState.SameTyping.retype hst (Typing.enter · scope))
  exact ⟨h₁, WriteState.SameTyping.retype h₂ (Typing.leave · scope)⟩

end

theorem agrees_inScope (scope : Option TypeScope) {body body' : WriteM Unit}
    (hb : Agrees (WriteState.Matches P A) body body') :
    Agrees (WriteState.Matches P A) (inScope scope body) (inScope scope body') := by
  intro st st' hst
  have hin : WriteState.Matches P A { st with typing := st.typing.enter scope }
      { st' with typing := st'.typing.enter scope } :=
    { hst with scopes := congrArg (ScopeStack.enter · scope) hst.scopes }
  obtain ⟨h₁, h₂⟩ := hb _ _ hin
  exact ⟨h₁, { h₂ with scopes := congrArg (ScopeStack.leave · scope) h₂.scopes }⟩

/-- An object is open while its body is written, and the body leaves the path as it was. -/
theorem agrees_onPath {o : ObjectId} (owner : ClassId) {body body' : WriteM Unit}
    (hb : o ∉ A → Agrees (WriteState.Matches P (o :: A)) body body') :
    Agrees (WriteState.Matches P A) (onPath o owner body)
      (onPath o owner body') := by
  intro st st' hst
  by_cases ho : o ∈ A
  · rw [onPath_of_mem (hst.path'.symm ▸ ho), onPath_of_mem (hst.path.symm ▸ ho)]
    exact ⟨rfl, hst⟩
  · have hin : WriteState.Matches P (o :: A) { st with path := o :: st.path }
        { st' with path := o :: st'.path } :=
      { hst with path := by rw [hst.path], path' := by rw [hst.path'] }
    obtain ⟨h₁, h₂⟩ := hb ho _ _ hin
    rw [onPath_of_not_mem (hst.path'.symm ▸ ho),
      onPath_of_not_mem (hst.path.symm ▸ ho)]
    refine ⟨h₁, { h₂ with path := ?_, path' := ?_ }⟩
    · show List.erase _ _ = _
      rw [h₂.path]
      simp
    · show List.erase _ _ = _
      rw [h₂.path']
      simp

theorem agrees_meet (o : ObjectId) {body body' : WriteM Unit}
    (hb : Agrees (WriteState.Matches P A) body body') :
    Agrees (WriteState.Matches P A)
      (do let m ← meet o; varint m.code; if m = Marker.new then body)
      (do let m ← meet o; varint m.code; if m = Marker.new then body') := by
  have hmeet : Agrees (WriteState.Matches P A) (meet o) (meet o) := by
    intro st st' hst
    show _ = _ ∧ WriteState.Matches P A { st with numbering := (st.numbering.meet o).2 }
      { st' with numbering := (st'.numbering.meet o).2 }
    refine ⟨?_, { hst with numbering := by rw [hst.numbering] }⟩
    show Except.ok (st'.numbering.meet o).1 = _
    rw [hst.numbering]
    rfl
  refine agrees_bind hmeet fun m _ => agrees_bind (agrees_varint _) fun _ _ => ?_
  split
  · exact hb
  · exact agrees_pure _

end WriteM

/-- Every number that is being read has its place in the list of instances. -/
def Reservations.Inside (t : Reservations) : Prop := ∀ n ∈ t.pending, n < t.objects.length

namespace Reservations

variable {t : Reservations}

theorem Inside.reserve (h : t.Inside) : t.reserve.Inside := by
  intro n hn
  rw [Reservations.reserve, List.length_append]
  rcases List.mem_cons.mp hn with rfl | hn
  · exact Nat.lt_succ_self _
  · exact Nat.lt_succ_of_lt (h n hn)

theorem Inside.abandon (h : t.Inside) : t.abandon.Inside :=
  fun n hn => h n (List.mem_of_mem_tail hn)

theorem length_bind (t : Reservations) (o : ObjectId) :
    (t.bind o).objects.length = t.objects.length := by
  unfold bind assign
  split
  · rfl
  · exact List.length_modify _ _ _

theorem pending_bind (t : Reservations) (o : ObjectId) : (t.bind o).pending = t.pending := by
  unfold bind
  split <;> rfl

theorem Inside.bind (h : t.Inside) (o : ObjectId) : (t.bind o).Inside := by
  intro n hn
  rw [length_bind]
  exact h n (pending_bind t o ▸ hn)

theorem Inside.finish (h : t.Inside) (v : Value) : (t.finish v).Inside := by
  obtain ⟨objects, _ | ⟨m, pending⟩⟩ := t
  · exact nofun
  · have htail : ∀ n ∈ pending, n < objects.length := fun n hn => h n (List.mem_cons_of_mem _ hn)
    cases v with
    | object o =>
        intro n hn
        simpa [Reservations.finish, assign] using htail n hn
    | _ => exact htail

end Reservations

/-- Readers in this relation know the same bindings and have the same input, and stay in it when
both take the same off it or store the same. -/
class ReadState.InStep (R : ReadState → ReadState → Prop) : Prop where
  scopes : ∀ {st st'}, R st st' → st'.typing.scopes = st.typing.scopes
  input : ∀ {st st'}, R st st' → st'.input = st.input
  take : ∀ {α : Type} {r : Read α}, r.Advances →
    Pass.Agrees R (ReadM.take r) (ReadM.take r)
  setSlot : ∀ s o v, Pass.Agrees R (ReadM.setSlot s o v) (ReadM.setSlot s o v)

/-- The states differ at most in their cells, which `P` relates; at most `k` bytes are left. -/
structure ReadState.Matches (P : ArgumentCells → ArgumentCells → Prop) (k : Nat)
    (st st' : ReadState) : Prop where
  input : st'.input = st.input
  heap : st'.heap = st.heap
  reservations : st'.reservations = st.reservations
  scopes : st'.typing.scopes = st.typing.scopes
  cells : P st.typing.cells st'.typing.cells
  left : st.input.rest.length ≤ k
  inside : st.reservations.Inside

/-- Two readers at the same place with the same cells are in the same state. -/
theorem ReadState.Matches.eq {k : Nat} {st st' : ReadState} (hst : ReadState.Matches Eq k st st') :
    st' = st := by
  obtain ⟨input, heap, reservations, scopes, cells⟩ := st
  obtain ⟨input', heap', reservations', scopes', cells'⟩ := st'
  obtain ⟨h₁, h₂, h₃, h₄, h₅, -, -⟩ := hst
  cases h₁
  cases h₂
  cases h₃
  cases h₄
  cases h₅
  rfl

namespace ReadM

open Pass

variable {α : Type} {P : ArgumentCells → ArgumentCells → Prop} {k : Nat}

theorem agrees_take {r : Read α} (hr : r.Advances) :
    Agrees (ReadState.Matches P k) (take r) (take r) := by
  intro st st' hst
  simp only [take, hst.input]
  rcases h : r.onInput st.input with ⟨e | a, input⟩ <;>
    exact ⟨rfl, { hst with input := rfl, left := (hr.of_run h).length_le.trans hst.left }⟩

/-- Behind a number there is at least one byte less. -/
theorem agrees_varU32_bind {β : Type} {m m' : Nat → ReadM β}
    (hm : ∀ n, ∀ j < k, Agrees (ReadState.Matches P j) (m n) (m' n)) :
    Agrees (ReadState.Matches P k) (take Read.varU32 >>= m) (take Read.varU32 >>= m') := by
  intro st st' hst
  rw [bind_run, bind_run]
  simp only [take, hst.input]
  rcases h : Read.varU32.onInput st.input with ⟨e | n, input⟩
  · exact ⟨rfl, { hst with
      input := rfl
      left := ((Read.advances_varint 32).of_run h).length_le.trans hst.left }⟩
  · have hlt : input.rest.length < k := (Read.length_lt_of_varU32 h).trans_le hst.left
    obtain ⟨h₁, h₂⟩ := hm n _ hlt { st with input := input } { st' with input := input }
      { hst with input := rfl, left := le_rfl }
    exact ⟨h₁, { h₂ with left := h₂.left.trans hlt.le }⟩

theorem agrees_inScope (scope : Option TypeScope) {body body' : ReadM α}
    (hb : Agrees (ReadState.Matches P k) body body') :
    Agrees (ReadState.Matches P k) (inScope scope body) (inScope scope body') := by
  intro st st' hst
  have hin : ReadState.Matches P k { st with typing := st.typing.enter scope }
      { st' with typing := st'.typing.enter scope } :=
    { hst with scopes := congrArg (ScopeStack.enter · scope) hst.scopes }
  obtain ⟨h₁, h₂⟩ := hb _ _ hin
  exact ⟨h₁, { h₂ with scopes := congrArg (ScopeStack.leave · scope) h₂.scopes }⟩

theorem agrees_setSlot (s : Slot) (o : ObjectId) (v : Value) :
    Agrees (ReadState.Matches P k) (setSlot s o v) (setSlot s o v) := by
  refine agrees_get_bind fun st st' hst => ?_
  rw [hst.heap]
  refine agrees_bind (agrees_ofExcept _) fun x _ => ?_
  exact agrees_modify fun _ _ hst => { hst with heap := rfl }

theorem agrees_reference (o : ObjectId) :
    Agrees (ReadState.Matches P k) (reference o) (reference o) :=
  agrees_modify fun _ _ hst =>
    { hst with
      reservations := by rw [hst.reservations]
      inside := hst.inside.bind o }

theorem agrees_known (number : Nat) :
    Agrees (ReadState.Matches P k) (known number) (known number) := by
  refine agrees_get_bind fun st st' hst => ?_
  rw [hst.reservations]
  split
  · exact agrees_pure _
  · exact agrees_fail _

theorem agrees_numbered {body body' : ReadM Value}
    (hb : Agrees (ReadState.Matches P k) body body') :
    Agrees (ReadState.Matches P k) (numbered body) (numbered body') := by
  intro st st' hst
  have hin : ReadState.Matches P k { st with reservations := st.reservations.reserve }
      { st' with reservations := st'.reservations.reserve } :=
    { hst with
      reservations := by rw [hst.reservations]
      inside := hst.inside.reserve }
  obtain ⟨h₁, h₂⟩ := hb _ _ hin
  simp only [numbered]
  rcases hr : body { st with reservations := st.reservations.reserve } with ⟨e | v, t⟩ <;>
    rcases hr' : body' { st' with reservations := st'.reservations.reserve } with ⟨e' | v', t'⟩ <;>
      rw [hr] at h₁ h₂ <;> rw [hr'] at h₁ h₂ <;> cases h₁
  · exact ⟨rfl, { h₂ with
      reservations := congrArg Reservations.abandon h₂.reservations
      inside := h₂.inside.abandon }⟩
  · exact ⟨rfl, { h₂ with
      reservations := congrArg (Reservations.finish · v) h₂.reservations
      inside := h₂.inside.finish v }⟩

end ReadM

instance {P : ArgumentCells → ArgumentCells → Prop} {k : Nat} :
    ReadState.InStep (ReadState.Matches P k) where
  scopes hst := hst.scopes
  input hst := hst.input
  take hr := ReadM.agrees_take hr
  setSlot := ReadM.agrees_setSlot

namespace Codec

open Pass

variable {c : Codec} {rs : List RecordSerializer} {h : Heap}
  {P : ArgumentCells → ArgumentCells → Prop} {A : List ObjectId}

/-! ### Writing -/

section

variable {R : WriteState → WriteState → Prop} [WriteState.InStep R]

omit [WriteState.InStep R] in
theorem agrees_requireType (t : ValueType) (v : Value) :
    Agrees R (requireType h t v) (requireType h t v) := by
  simp only [requireType]
  split
  · split
    · exact agrees_pure _
    · exact agrees_fail _
  · exact agrees_pure _

theorem agrees_writePresence (e : FieldEntry) (v : Value) :
    Agrees R (writePresence e v) (writePresence e v) := by
  simp only [writePresence]
  split
  · exact WriteM.agrees_item _
  · exact agrees_pure _

theorem agrees_writeTag (v : Value) :
    Agrees R (c.writeTag h v) (c.writeTag h v) := by
  simp only [writeTag]
  split
  · exact agrees_bind (WriteM.agrees_varint 0) fun _ _ => agrees_pure _
  · split
    · exact agrees_bind (WriteM.agrees_varint _) fun _ _ => agrees_pure _
    · exact agrees_fail _

theorem agrees_writeStock {nested nested' : Frame → Value → WriteM Unit} {t : ValueType} {s : Stock}
    (hs : t.stock? = some s) (v : Value) :
    Agrees R (c.writeStock h nested s v) (c.writeStock h nested' s v) := by
  cases t <;> cases hs <;> cases v <;> first | exact WriteM.agrees_item _ | exact agrees_fail _

section

variable (hc : c.Lists rs) {nested nested' : Frame → Value → WriteM Unit}
  (hn : ∀ f v, Served rs f.type f.serializer → Agrees R (nested f v) (nested' f v))
include hc hn

theorem agrees_writeTagged (v : Value) :
    Agrees R (c.writeTagged h nested v) (c.writeTagged h nested' v) := by
  refine agrees_bind (agrees_writeTag v) fun x hx => ?_
  rcases writeTag_returns hx with ⟨rfl, -⟩ | ⟨t, x, rfl, -, ht⟩
  · exact agrees_pure _
  · obtain ⟨rfl, hx⟩ := hc.served_of_registration? ht
    exact hn _ _ hx

omit [WriteState.InStep R] in
theorem agrees_writeFlat (v : Value) (args : List ConcreteType) :
    Agrees R (c.writeFlat h nested v args) (c.writeFlat h nested' v args) := by
  simp only [writeFlat]
  split
  · exact agrees_fail _
  · next t _ =>
    cases hs : c.serializer t with
    | error e => exact agrees_fail _
    | ok s => exact hn _ _ (hc.served_of_serializer hs)

theorem agrees_writePlanned {e : FieldEntry} (he : e.serializer = none) (v : Value)
    {resolved : Option ConcreteType} {p : Plan} (hp : e.plan c resolved = .ok p) :
    Agrees R (c.writePlanned h nested e v p) (c.writePlanned h nested' e v p) := by
  cases p with
  | dynamic => exact agrees_writeTagged hc hn v
  | known f =>
      exact agrees_bind (agrees_requireType _ _) fun _ _ => hn _ _ (hc.served_of_plan he hp).1
  | int =>
      refine agrees_bind (agrees_requireType _ _) fun _ _ => ?_
      refine agrees_bind (agrees_writePresence e v) fun _ _ => ?_
      cases v with
      | int n => exact WriteM.agrees_item _
      | _ => exact agrees_pure _
  | long =>
      refine agrees_bind (agrees_requireType _ _) fun _ _ => ?_
      refine agrees_bind (agrees_writePresence e v) fun _ _ => ?_
      cases v with
      | long n => exact WriteM.agrees_item _
      | _ => exact agrees_pure _

theorem agrees_writeField {e : FieldEntry} (he : e.serializer = none) (o : ObjectId)
    (resolved : Option ConcreteType) :
    Agrees R (c.writeField h nested e o resolved) (c.writeField h nested' e o resolved) := by
  cases hg : e.slot.get h o with
  | error x =>
      rw [writeField_of_error _ _ _ hg, writeField_of_error _ _ _ hg]
      exact agrees_fail _
  | ok v =>
      rw [writeField_of_get _ _ _ hg, writeField_of_get _ _ _ hg]
      split
      · exact agrees_fail _
      · exact agrees_bind (agrees_ofExcept _) fun p hp =>
          agrees_writePlanned hc hn he v hp.ofExcept

theorem agrees_writeFields {r : RecordSerializer} (hr : r ∈ rs) (own : Option Resolution)
    (o : ObjectId) {t : FieldTable} (ht : ∀ e ∈ t, e ∈ r.entries) (index : Nat) :
    Agrees R (c.writeFields h nested r own o index t)
      (c.writeFields h nested' r own o index t) := by
  induction t generalizing index with
  | nil => exact agrees_pure _
  | cons e t ih =>
      obtain ⟨he, ht⟩ := List.forall_mem_cons.mp ht
      simp only [writeFields]
      split
      · refine agrees_get_bind fun st st' hst => ?_
        rw [WriteState.InStep.scopes hst]
        refine agrees_bind (agrees_inField ?_) fun _ _ => ih ht _
        exact agrees_writeField hc hn ((hc.plain r hr).follows.bare e he) o _
      · exact ih ht _

end

end

/-- What stands inside a frame is written alike if the values inside it are. -/
theorem agrees_writeBody {R : WriteState → WriteState → Prop} [WriteState.SameTyping R]
    (hc : c.Lists rs) {nested nested' : Frame → Value → WriteM Unit}
    (hn : ∀ f v, Served rs f.type f.serializer → Agrees R (nested f v) (nested' f v))
    {f : Frame} (hf : Served rs f.type f.serializer) (v : Value) :
    Agrees R (c.writeBody h nested f v) (c.writeBody h nested' f v) := by
  obtain ⟨t, s, args, nullable⟩ := f
  refine agrees_bind (WriteM.agrees_supply s args) fun _ _ => ?_
  cases hf with
  | stock hs => exact agrees_writeStock hs v
  | @record r hr =>
      refine agrees_bind (WriteM.agrees_takeArguments r) fun own _ => ?_
      refine agrees_bind (agrees_ofExcept _) fun o _ => ?_
      exact WriteM.agrees_scoped _ (agrees_writeFields hc hn hr own o (fun _ he => he) 0)

/-- What stands inside a frame is written where it was before, or with one more object open. -/
theorem agrees_writeAround (f : Frame) (v : Value) {body body' : WriteM Unit}
    (hb : ∀ B, (A.Nodup → B.Nodup) → Agrees (WriteState.Matches P B) body body') :
    Agrees (WriteState.Matches P A) (c.writeAround h f v body) (c.writeAround h f v body') := by
  have hA := hb A id
  simp only [writeAround]
  split
  · split
    · exact WriteM.agrees_meet _ hA
    · split
      · exact WriteM.agrees_varint _
      · exact agrees_fail _
  · split
    · split
      · exact WriteM.agrees_item _
      · exact agrees_fail _
    · refine agrees_bind ?_ fun _ _ => ?_
      · split
        · exact WriteM.agrees_item _
        · exact agrees_pure _
      · split
        · split
          · exact hA
          · exact WriteM.agrees_onPath _ fun ho => hb _ fun hA => List.nodup_cons.mpr ⟨ho, hA⟩
        · exact hA

/-! ### Reading -/

section

variable {R : ReadState → ReadState → Prop} [ReadState.InStep R]

theorem agrees_readPresence (e : FieldEntry) : Agrees R (readPresence e) (readPresence e) := by
  simp only [readPresence]
  split
  · exact ReadState.InStep.take Read.advances_bool
  · exact agrees_pure _

theorem agrees_number {α : Type} (e : FieldEntry) {r : Read α} (hr : r.Advances) (f : α → Value) :
    Agrees R
      (do if ← readPresence e then return f (← ReadM.take r) else return .null)
      (do if ← readPresence e then return f (← ReadM.take r) else return .null) := by
  refine agrees_bind (agrees_readPresence e) fun b _ => ?_
  split
  · exact agrees_bind (ReadState.InStep.take hr) fun _ _ => agrees_pure _
  · exact agrees_pure _

theorem agrees_readTag : Agrees R c.readTag c.readTag := by
  refine agrees_get_bind fun st st' hst => ?_
  rw [ReadState.InStep.input hst]
  refine agrees_bind (ReadState.InStep.take (Read.advances_varint 32)) fun n _ => ?_
  split
  · exact agrees_pure _
  · split
    · exact agrees_pure _
    · exact agrees_fail _

theorem agrees_readStock {nested nested' : Frame → ReadM Value} {t : ValueType} {s : Stock}
    (hs : t.stock? = some s) : Agrees R (c.readStock nested t s) (c.readStock nested' t s) := by
  cases t <;> cases hs <;> refine agrees_bind (ReadState.InStep.take ?_) fun _ _ => agrees_pure _
  · exact Read.advances_bool
  · exact Read.advances_varI32 false
  · exact Read.advances_varI64 false
  · exact Read.advances_word32
  · exact Read.advances_word64
  · exact Read.advances_string

section

variable (hc : c.Lists rs) {nested nested' : Frame → ReadM Value}
  (hn : ∀ f, Served rs f.type f.serializer → Agrees R (nested f) (nested' f))
include hc hn

theorem agrees_readTagged : Agrees R (c.readTagged nested) (c.readTagged nested') := by
  refine agrees_bind agrees_readTag fun x hx => ?_
  cases x with
  | none => exact agrees_pure _
  | some x =>
      obtain ⟨n, hx⟩ := registrationAt?_of_readTag hx
      exact hn _ (hc.served_of_registrationAt? hx)

omit [ReadState.InStep R] in
theorem agrees_readFlat (t : ValueType) (args : List ConcreteType) :
    Agrees R (c.readFlat nested t args) (c.readFlat nested' t args) := by
  simp only [readFlat]
  cases hs : c.serializer t with
  | error e => exact agrees_fail _
  | ok s => exact hn _ (hc.served_of_serializer hs)

theorem agrees_readField {e : FieldEntry} (he : e.serializer = none) (o : ObjectId)
    (resolved : Option ConcreteType) :
    Agrees R (c.readField nested e o resolved) (c.readField nested' e o resolved) := by
  simp only [readField]
  refine agrees_bind ?_ fun v _ => ?_
  · rw [readFieldValue_eq, readFieldValue_eq]
    refine agrees_bind (agrees_ofExcept _) fun p hp => ?_
    have hp := hp.ofExcept
    cases p with
    | dynamic => exact agrees_readTagged hc hn
    | known f => exact hn f (hc.served_of_plan he hp).1
    | int =>
        refine agrees_number e ?_ Value.int
        split
        · exact Read.advances_varI32 _
        · exact Read.advances_i32
    | long =>
        refine agrees_number e ?_ Value.long
        split
        · exact Read.advances_varI64 _
        · exact Read.advances_i64
  · split
    · exact agrees_fail _
    · exact ReadState.InStep.setSlot _ _ _

theorem agrees_readFields {r : RecordSerializer} (hr : r ∈ rs) (own : Option Resolution)
    (o : ObjectId) {t : FieldTable} (ht : ∀ e ∈ t, e ∈ r.entries) (index : Nat) :
    Agrees R (c.readFields nested r own o index t) (c.readFields nested' r own o index t) := by
  induction t generalizing index with
  | nil => exact agrees_pure _
  | cons e t ih =>
      obtain ⟨he, ht⟩ := List.forall_mem_cons.mp ht
      simp only [readFields]
      split
      · refine agrees_get_bind fun st st' hst => ?_
        rw [ReadState.InStep.scopes hst]
        refine agrees_bind (agrees_inField ?_) fun _ _ => ih ht _
        exact agrees_readField hc hn ((hc.plain r hr).follows.bare e he) o _
      · exact ih ht _

end

end

section

variable {k : Nat}

theorem agrees_readInstance (hc : c.Lists rs) {r : RecordSerializer} (hr : r ∈ rs) :
    Agrees (ReadState.Matches P k) (c.readInstance r) (c.readInstance r) := by
  intro st st' hst
  rw [readInstance_eq hc hr, readInstance_eq hc hr, hst.heap]
  split
  · exact ⟨rfl, { hst with heap := rfl }⟩
  · exact ⟨rfl, hst⟩

/-- Behind the marker of a new object there is at least one byte less. -/
theorem agrees_readAround (f : Frame) {body body' : ReadM Value}
    (hmarked : (f.type.isReference && c.references) = true →
      ∀ j < k, Agrees (ReadState.Matches P j) body body')
    (hplain : (f.type.isReference && c.references) = false →
      Agrees (ReadState.Matches P k) body body') :
    Agrees (ReadState.Matches P k) (c.readAround f body) (c.readAround f body') := by
  simp only [readAround]
  split
  · next hm =>
    refine ReadM.agrees_varU32_bind fun n j hj => ?_
    split
    · split
      · exact agrees_pure _
      · exact agrees_fail _
    · exact ReadM.agrees_known _
    · exact ReadM.agrees_numbered (hmarked hm j hj)
  · next hm =>
    have hb := hplain (Bool.not_eq_true _ ▸ hm)
    split
    · refine agrees_bind (ReadM.agrees_take Read.advances_bool) fun b _ => ?_
      split
      · exact hb
      · exact agrees_pure _
    · exact hb

end

end Codec

end GraphCodec
