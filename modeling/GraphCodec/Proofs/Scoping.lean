import GraphCodec.Proofs.Stateless
import GraphCodec.Proofs.Trails

/-!
# Codecs — scopes during a pass

A pass enters and leaves scopes as it goes from object to object.  In a *scoped* pass the objects
that are open come as a `Trail`, and the type of a field is found out from the trail alone; the
scopes serve no purpose any more, but in front of each field the pass makes sure that they are the
ones of the trail, and fails if they are not.  Scoped passes do what passes do (`passes_scoped`), so
that the scopes are always right.
-/

namespace GraphCodec

namespace Pass

variable {σ α : Type} {I : σ → Prop}

/-- One state, in which `I` holds. -/
def Same (I : σ → Prop) (st st' : σ) : Prop := st' = st ∧ I st

/-- Where `I` holds both passes are one, and `I` holds afterwards. -/
theorem agrees_same_iff {m m' : Pass σ α} :
    Agrees (Same I) m m' ↔ ∀ st, I st → m' st = m st ∧ I (m st).2 := by
  constructor
  · intro h st hst
    obtain ⟨h₁, h₂, h₃⟩ := h st st ⟨rfl, hst⟩
    exact ⟨Prod.ext h₁ h₂, h₃⟩
  · rintro h st _ ⟨rfl, hst⟩
    obtain ⟨h₁, h₂⟩ := h _ hst
    exact ⟨congrArg Prod.fst h₁, congrArg Prod.snd h₁, h₂⟩

theorem agrees_same {m : Pass σ α} (hm : Keeps I m) : Agrees (Same I) m m :=
  agrees_same_iff.mpr fun st hst => ⟨rfl, hm st hst⟩

end Pass

open Pass

theorem Typing.scopes_supply (t : Typing) (s : Serializer) (args : List ConcreteType) :
    (t.supply s args).scopes = t.scopes := by
  unfold Typing.supply
  split <;> rfl

/-! ### Writing inside scopes -/

/-- One writer, inside these scopes. -/
abbrev WriteState.Inside (scopes : ScopeStack) : WriteState → WriteState → Prop :=
  Same fun st => st.typing.scopes = scopes

namespace WriteM

variable {α : Type} {scopes : ScopeStack}

instance : WriteState.InStep (WriteState.Inside scopes) where
  scopes := by
    rintro st _ ⟨rfl, -⟩
    rfl
  output := by
    rintro st _ ⟨rfl, hst⟩ f
    exact ⟨rfl, hst⟩

theorem keeps_takeArguments (r : RecordSerializer) :
    Keeps (fun st => st.typing.scopes = scopes) (takeArguments r) :=
  keeps_get_bind fun _ hst =>
    keeps_bind (keeps_modify fun _ _ => hst) fun _ _ => keeps_ofExcept _

theorem keeps_supply (s : Serializer) (args : List ConcreteType) :
    Keeps (fun st => st.typing.scopes = scopes) (supply s args) :=
  keeps_modify fun st hst => (st.typing.scopes_supply s args).trans hst

theorem inside_inScope (scope : Option TypeScope) {m m' : WriteM α}
    (hm : Agrees (WriteState.Inside (scopes.enter scope)) m m') :
    Agrees (WriteState.Inside scopes) (inScope scope m) (inScope scope m') := by
  refine agrees_same_iff.mpr fun st hst => ?_
  obtain ⟨h₁, h₂⟩ := agrees_same_iff.mp hm { st with typing := st.typing.enter scope }
    (congrArg (ScopeStack.enter · scope) hst)
  simp only [inScope, h₁]
  refine ⟨trivial, ?_⟩
  show ScopeStack.leave _ scope = scopes
  rw [h₂, ScopeStack.leave_enter]

/-- Fails with `x` unless these scopes are in force. -/
def requireScopes (x : Failure) (scopes : ScopeStack) : WriteM Unit := fun st =>
  if st.typing.scopes = scopes then (.ok (), st) else (.error x, st)

theorem inside_requireScopes (x : Failure) {k : WriteState → WriteM α} {m : WriteM α}
    (hk : ∀ st, st.typing.scopes = scopes → Agrees (WriteState.Inside scopes) (k st) m) :
    Agrees (WriteState.Inside scopes) (get >>= k) (do requireScopes x scopes; m) := by
  rintro _ st ⟨rfl, hst⟩
  have hright : requireScopes x scopes st = (.ok (), st) := if_pos hst
  rw [bind_of_ok hright]
  exact hk st hst st st ⟨rfl, hst⟩

end WriteM

namespace Codec

variable {c : Codec} {rs : List RecordSerializer} {h : Heap} {scopes : ScopeStack}

theorem inside_writeAround (f : Frame) (v : Value) {m m' : WriteM Unit}
    (hm : Agrees (WriteState.Inside scopes) m m') :
    Agrees (WriteState.Inside scopes) (c.writeAround h f v m) (c.writeAround h f v m') := by
  have honPath : ∀ o owner, Agrees (WriteState.Inside scopes) (WriteM.onPath o owner m)
      (WriteM.onPath o owner m') := fun o owner => by
    refine agrees_same_iff.mpr fun st hst => ?_
    by_cases ho : o ∈ st.path
    · rw [WriteM.onPath_of_mem ho, WriteM.onPath_of_mem ho]
      exact ⟨rfl, hst⟩
    · obtain ⟨h₁, h₂⟩ := agrees_same_iff.mp hm { st with path := o :: st.path } hst
      rw [WriteM.onPath_of_not_mem ho, WriteM.onPath_of_not_mem ho, h₁]
      exact ⟨rfl, h₂⟩
  have hmeet : ∀ o, Agrees (WriteState.Inside scopes) (WriteM.meet o) (WriteM.meet o) :=
    fun o => agrees_same fun st hst => hst
  simp only [writeAround]
  split
  · split
    · refine agrees_bind (hmeet _) fun x _ => agrees_bind (WriteM.agrees_varint _) fun _ _ => ?_
      split
      · exact hm
      · exact agrees_pure _
    · split
      · exact WriteM.agrees_varint _
      · exact agrees_fail _
  · split
    · split
      · exact WriteM.agrees_item _
      · exact agrees_fail _
    · refine agrees_bind ?_ fun _ _ => ?_
      · split
        · exact WriteM.agrees_item _
        · exact agrees_pure _
      · split
        · split
          · exact hm
          · exact honPath _ _
        · exact hm

section

variable (hc : c.Lists rs)
include hc

theorem inside_writeRecord {nested : Frame → Value → WriteM Unit}
    (hn : ∀ scopes f v, Served rs f.type f.serializer →
      Agrees (WriteState.Inside scopes) (nested f v) (nested f v))
    {r : RecordSerializer} (hr : r ∈ rs) (v : Value) :
    Agrees (WriteState.Inside scopes) (c.writeRecord h nested r v)
      (c.writeRecord h nested r v) := by
  refine agrees_bind (agrees_same (WriteM.keeps_takeArguments r)) fun own _ => ?_
  refine agrees_bind (agrees_ofExcept _) fun o _ => ?_
  exact WriteM.inside_inScope _ (agrees_writeFields hc (hn _) hr own o (fun _ he => he) 0)

/-- Whatever is written, and however it ends, the scopes are what they were. -/
theorem inside_writeFramed (n : Nat) (scopes : ScopeStack) (f : Frame) (v : Value)
    (hf : Served rs f.type f.serializer) :
    Agrees (WriteState.Inside scopes) (c.writeFramed h n f v) (c.writeFramed h n f v) := by
  induction n generalizing scopes f v with
  | zero => exact agrees_throw _
  | succ n ih =>
      rw [writeFramed_succ]
      refine inside_writeAround f v ?_
      obtain ⟨t, s, args, nullable⟩ := f
      refine agrees_bind (agrees_same (WriteM.keeps_supply s args)) fun _ _ => ?_
      cases hf with
      | stock hs => exact agrees_writeStock hs v
      | record hr => exact inside_writeRecord hc ih hr v

end

/-! ### Scoped writing -/

section

variable (c : Codec) (h : Heap) (x : Failure) (nested : Trail → Frame → Value → WriteM Unit)

/-- Writes the fields of the innermost open object. -/
def writeFieldsScoped (t : Trail) (r : RecordSerializer) (o : ObjectId) : FieldTable → WriteM Unit
  | [] => return
  | e :: rest => do
    if e.serialized then
      WriteM.requireScopes x t.stack
      Pass.inField r.decl.id e.name (c.writeField h (nested t) e o (t.fieldType r e))
    writeFieldsScoped t r o rest

/-- Writes an object inside those that are open. -/
def writeRecordScoped (t : Trail) (r : RecordSerializer) (args : List ConcreteType) (v : Value) :
    WriteM Unit := do
  let own ← Pass.ofExcept ((r.bindings args).mapError .config)
  let o ← Pass.ofExcept (h.instanceOf r.decl.id v)
  WriteM.inScope own (c.writeFieldsScoped h x nested (⟨r, args⟩ :: t) r o r.entries)

/-- Writes a value inside the objects that are open. -/
def writeWithScoped (t : Trail) (args : List ConcreteType) : Serializer → Value → WriteM Unit
  | .stock s, v => c.writeStock h (nested t) s v
  | .record r, v => c.writeRecordScoped h x nested t r args v
  | .catching inner, v =>
    Pass.recover (writeWithScoped t args inner v) fun e => WriteM.item (.str e.message)
  | .orNew inner, v => Pass.recover (writeWithScoped t args inner v) fun _ => return

end

/-- Writes a value in a frame inside the objects that are open. -/
def writeScoped (c : Codec) (h : Heap) (x : Failure) :
    (depth : Nat) → Trail → Frame → Value → WriteM Unit
  | 0, _, _, _ => throw .tooDeep
  | depth + 1, t, f, v =>
    c.writeAround h f v
      (c.writeWithScoped h x (c.writeScoped h x depth) t f.args f.serializer v)

section

variable (hc : c.Lists rs) (x : Failure)
include hc

section

variable {nested : Frame → Value → WriteM Unit} {nested' : Trail → Frame → Value → WriteM Unit}
  (hn : ∀ (t : Trail) f v, t.Within rs → Served rs f.type f.serializer →
    Agrees (WriteState.Inside t.stack) (nested f v) (nested' t f v))
include hn

theorem inside_writeFieldsScoped {r : RecordSerializer} (hr : r ∈ rs) {args : List ConcreteType}
    {own : Option TypeScope} (hown : r.bindings args = .ok own) {t : Trail} (ht : t.Within rs)
    (o : ObjectId) {table : FieldTable} (htable : ∀ e ∈ table, e ∈ r.entries) :
    Agrees (WriteState.Inside (Trail.stack (⟨r, args⟩ :: t)))
      (c.writeFieldsDirect h nested r own o table)
      (c.writeFieldsScoped h x nested' (⟨r, args⟩ :: t) r o table) := by
  have hfits := (Visit.scope?_of_bindings hown).2
  induction table with
  | nil => exact agrees_pure _
  | cons e table ih =>
      obtain ⟨he, htable⟩ := List.forall_mem_cons.mp htable
      simp only [writeFieldsDirect, writeFieldsScoped]
      split
      · refine WriteM.inside_requireScopes x fun st hst => ?_
        rw [hst, writeField_congr c h nested (plan_fieldType hc ht hr hown e)]
        refine agrees_bind (agrees_inField ?_) fun _ _ => ih htable
        exact agrees_writeField hc (fun f v => hn _ f v (ht.cons hr hfits))
          ((hc.plain r hr).follows.bare e he) o _
      · exact ih htable

theorem inside_writeWithScoped {t : Trail} (ht : t.Within rs) {f : Frame}
    (hf : Served rs f.type f.serializer) (v : Value) :
    Agrees (WriteState.Inside t.stack) (c.writeWithDirect h nested f.args f.serializer v)
      (c.writeWithScoped h x nested' t f.args f.serializer v) := by
  obtain ⟨ty, s, args, nullable⟩ := f
  cases hf with
  | stock hs => exact agrees_writeStock hs v
  | @record r hr =>
      refine agrees_bind (agrees_ofExcept _) fun own hown => ?_
      refine agrees_bind (agrees_ofExcept _) fun o _ => WriteM.inside_inScope _ ?_
      have hown : r.bindings args = .ok own := except_mapError_eq_ok.mp hown.ofExcept
      have hstack : t.stack.enter own = Trail.stack (⟨r, args⟩ :: t) := by
        rw [Trail.stack_cons, (Visit.scope?_of_bindings hown).1]
      rw [hstack]
      exact inside_writeFieldsScoped hc x hn hr hown ht o fun _ he => he

end

theorem inside_writeScoped (n : Nat) (t : Trail) (f : Frame) (v : Value) (ht : t.Within rs)
    (hf : Served rs f.type f.serializer) :
    Agrees (WriteState.Inside t.stack) (c.writeDirect h n f v) (c.writeScoped h x n t f v) := by
  induction n generalizing t f v with
  | zero => exact agrees_throw _
  | succ n ih => exact inside_writeAround f v (inside_writeWithScoped hc x ih ht hf v)

end

end Codec

/-! ### Reading inside scopes -/

/-- One reader, inside these scopes. -/
abbrev ReadState.Inside (scopes : ScopeStack) : ReadState → ReadState → Prop :=
  Same fun st => st.typing.scopes = scopes

namespace ReadM

variable {α : Type} {scopes : ScopeStack}

instance : ReadState.InStep (ReadState.Inside scopes) where
  scopes := by
    rintro st _ ⟨rfl, -⟩
    rfl
  input := by
    rintro st _ ⟨rfl, -⟩
    rfl
  take := by
    refine fun _ => agrees_same fun st hst => ?_
    simp only [take]
    split <;> exact hst
  setSlot s o v := agrees_same <| keeps_get_bind fun st _ =>
    keeps_bind (keeps_ofExcept _) fun x _ => keeps_modify fun _ hst => hst

theorem keeps_takeArguments (r : RecordSerializer) :
    Keeps (fun st => st.typing.scopes = scopes) (takeArguments r) :=
  keeps_get_bind fun _ hst =>
    keeps_bind (keeps_modify fun _ _ => hst) fun _ _ => keeps_ofExcept _

theorem keeps_supply (s : Serializer) (args : List ConcreteType) :
    Keeps (fun st => st.typing.scopes = scopes) (supply s args) :=
  keeps_modify fun st hst => (st.typing.scopes_supply s args).trans hst

theorem inside_inScope (scope : Option TypeScope) {m m' : ReadM α}
    (hm : Agrees (ReadState.Inside (scopes.enter scope)) m m') :
    Agrees (ReadState.Inside scopes) (inScope scope m) (inScope scope m') := by
  refine agrees_same_iff.mpr fun st hst => ?_
  obtain ⟨h₁, h₂⟩ := agrees_same_iff.mp hm { st with typing := st.typing.enter scope }
    (congrArg (ScopeStack.enter · scope) hst)
  simp only [inScope, h₁]
  refine ⟨trivial, ?_⟩
  show ScopeStack.leave _ scope = scopes
  rw [h₂, ScopeStack.leave_enter]

/-- Fails with `x` unless these scopes are in force. -/
def requireScopes (x : Failure) (scopes : ScopeStack) : ReadM Unit := fun st =>
  if st.typing.scopes = scopes then (.ok (), st) else (.error x, st)

theorem inside_requireScopes (x : Failure) {k : ReadState → ReadM α} {m : ReadM α}
    (hk : ∀ st, st.typing.scopes = scopes → Agrees (ReadState.Inside scopes) (k st) m) :
    Agrees (ReadState.Inside scopes) (get >>= k) (do requireScopes x scopes; m) := by
  rintro _ st ⟨rfl, hst⟩
  have hright : requireScopes x scopes st = (.ok (), st) := if_pos hst
  rw [bind_of_ok hright]
  exact hk st hst st st ⟨rfl, hst⟩

theorem inside_numbered {m m' : ReadM Value} (hm : Agrees (ReadState.Inside scopes) m m') :
    Agrees (ReadState.Inside scopes) (numbered m) (numbered m') := by
  refine agrees_same_iff.mpr fun st hst => ?_
  obtain ⟨h₁, h₂⟩ := agrees_same_iff.mp hm { st with reservations := st.reservations.reserve } hst
  simp only [numbered, h₁]
  rcases hr : m { st with reservations := st.reservations.reserve } with ⟨_ | _, t⟩ <;>
    rw [hr] at h₂ <;> exact ⟨trivial, h₂⟩

end ReadM

namespace Codec

variable {c : Codec} {rs : List RecordSerializer} {scopes : ScopeStack}

theorem inside_readAround (f : Frame) {m m' : ReadM Value}
    (hm : Agrees (ReadState.Inside scopes) m m') :
    Agrees (ReadState.Inside scopes) (c.readAround f m) (c.readAround f m') := by
  have hknown : ∀ n, Agrees (ReadState.Inside scopes) (ReadM.known n) (ReadM.known n) := fun n =>
    agrees_same <| keeps_get_bind fun st _ => by
      split
      · exact keeps_pure _
      · exact keeps_fail _
  simp only [readAround]
  split
  · refine agrees_bind (ReadState.InStep.take (Read.advances_varint 32)) fun n _ => ?_
    split
    · split
      · exact agrees_pure _
      · exact agrees_fail _
    · exact hknown _
    · exact ReadM.inside_numbered hm
  · split
    · refine agrees_bind (ReadState.InStep.take Read.advances_bool) fun b _ => ?_
      split
      · exact hm
      · exact agrees_pure _
    · exact hm

section

variable (hc : c.Lists rs)
include hc

theorem inside_readInstance {r : RecordSerializer} (hr : r ∈ rs) :
    Agrees (ReadState.Inside scopes) (c.readInstance r) (c.readInstance r) := by
  refine agrees_same fun st hst => ?_
  rw [readInstance_eq hc hr]
  split <;> exact hst

theorem inside_readRecord {nested : Frame → ReadM Value}
    (hn : ∀ scopes f, Served rs f.type f.serializer →
      Agrees (ReadState.Inside scopes) (nested f) (nested f))
    {r : RecordSerializer} (hr : r ∈ rs) :
    Agrees (ReadState.Inside scopes) (c.readRecord nested r) (c.readRecord nested r) := by
  refine agrees_bind (agrees_same (ReadM.keeps_takeArguments r)) fun own _ => ?_
  refine ReadM.inside_inScope _ ?_
  refine agrees_bind (inside_readInstance hc hr) fun o _ => ?_
  refine agrees_bind (agrees_same fun st hst => hst) fun _ _ => ?_
  exact agrees_bind (agrees_readFields hc (hn _) hr own o (fun _ he => he) 0)
    fun _ _ => agrees_pure _

/-- Whatever is read, and however it ends, the scopes are what they were. -/
theorem inside_readFramed (n : Nat) (scopes : ScopeStack) (f : Frame)
    (hf : Served rs f.type f.serializer) :
    Agrees (ReadState.Inside scopes) (c.readFramed n f) (c.readFramed n f) := by
  induction n generalizing scopes f with
  | zero => exact agrees_throw _
  | succ n ih =>
      rw [readFramed_eq_readAround]
      refine inside_readAround f ?_
      obtain ⟨t, s, args, nullable⟩ := f
      refine agrees_bind (agrees_same (ReadM.keeps_supply s args)) fun _ _ => ?_
      cases hf with
      | stock hs => exact agrees_readStock hs
      | record hr => exact inside_readRecord hc ih hr

end

/-! ### Scoped reading -/

section

variable (c : Codec) (x : Failure) (nested : Trail → Frame → ReadM Value)

/-- Reads the fields of the innermost open object. -/
def readFieldsScoped (t : Trail) (r : RecordSerializer) (o : ObjectId) : FieldTable → ReadM Unit
  | [] => return
  | e :: rest => do
    if e.serialized then
      ReadM.requireScopes x t.stack
      Pass.inField r.decl.id e.name (c.readField (nested t) e o (t.fieldType r e))
    readFieldsScoped t r o rest

/-- Reads an object inside those that are open. -/
def readRecordScoped (t : Trail) (r : RecordSerializer) (args : List ConcreteType) :
    ReadM Value := do
  let own ← Pass.ofExcept ((r.bindings args).mapError .config)
  ReadM.inScope own do
    let o ← c.readInstance r
    ReadM.reference o
    c.readFieldsScoped x nested (⟨r, args⟩ :: t) r o r.entries
    return .object o

/-- Reads a value of a type inside the objects that are open. -/
def readWithScoped (t : Trail) (type : ValueType) (args : List ConcreteType) :
    Serializer → ReadM Value
  | .stock s => c.readStock (nested t) type s
  | .record r => c.readRecordScoped x nested t r args
  | .catching inner =>
    Pass.recover (readWithScoped t type args inner) fun e => return .str e.message
  | .orNew inner => Pass.recover (readWithScoped t type args inner) fun e =>
    match type with
    | .object _ => do
      let o ← c.readNew type
      ReadM.reference o
      return .object o
    | _ => Pass.fail e

end

/-- Reads a value in a frame inside the objects that are open. -/
def readScoped (c : Codec) (x : Failure) : (depth : Nat) → Trail → Frame → ReadM Value
  | 0, _, _ => throw .tooDeep
  | depth + 1, t, f =>
    c.readAround f (c.readWithScoped x (c.readScoped x depth) t f.type f.args f.serializer)

section

variable (hc : c.Lists rs) (x : Failure)
include hc

section

variable {nested : Frame → ReadM Value} {nested' : Trail → Frame → ReadM Value}
  (hn : ∀ (t : Trail) f, t.Within rs → Served rs f.type f.serializer →
    Agrees (ReadState.Inside t.stack) (nested f) (nested' t f))
include hn

theorem inside_readFieldsScoped {r : RecordSerializer} (hr : r ∈ rs) {args : List ConcreteType}
    {own : Option TypeScope} (hown : r.bindings args = .ok own) {t : Trail} (ht : t.Within rs)
    (o : ObjectId) {table : FieldTable} (htable : ∀ e ∈ table, e ∈ r.entries) :
    Agrees (ReadState.Inside (Trail.stack (⟨r, args⟩ :: t)))
      (c.readFieldsDirect nested r own o table)
      (c.readFieldsScoped x nested' (⟨r, args⟩ :: t) r o table) := by
  have hfits := (Visit.scope?_of_bindings hown).2
  induction table with
  | nil => exact agrees_pure _
  | cons e table ih =>
      obtain ⟨he, htable⟩ := List.forall_mem_cons.mp htable
      simp only [readFieldsDirect, readFieldsScoped]
      split
      · refine ReadM.inside_requireScopes x fun st hst => ?_
        rw [hst, readField_congr c nested (plan_fieldType hc ht hr hown e)]
        refine agrees_bind (agrees_inField ?_) fun _ _ => ih htable
        exact agrees_readField hc (fun f => hn _ f (ht.cons hr hfits))
          ((hc.plain r hr).follows.bare e he) o _
      · exact ih htable

theorem inside_readWithScoped {t : Trail} (ht : t.Within rs) {f : Frame}
    (hf : Served rs f.type f.serializer) :
    Agrees (ReadState.Inside t.stack) (c.readWithDirect nested f.type f.args f.serializer)
      (c.readWithScoped x nested' t f.type f.args f.serializer) := by
  obtain ⟨ty, s, args, nullable⟩ := f
  cases hf with
  | stock hs => exact agrees_readStock hs
  | @record r hr =>
      refine agrees_bind (agrees_ofExcept _) fun own hown => ReadM.inside_inScope _ ?_
      refine agrees_bind (inside_readInstance hc hr) fun o _ => ?_
      refine agrees_bind (agrees_same fun st hst => hst) fun _ _ => ?_
      have hown : r.bindings args = .ok own := except_mapError_eq_ok.mp hown.ofExcept
      have hstack : t.stack.enter own = Trail.stack (⟨r, args⟩ :: t) := by
        rw [Trail.stack_cons, (Visit.scope?_of_bindings hown).1]
      rw [hstack]
      exact agrees_bind (inside_readFieldsScoped hc x hn hr hown ht o fun _ he => he)
        fun _ _ => agrees_pure _

end

theorem inside_readScoped (n : Nat) (t : Trail) (f : Frame) (ht : t.Within rs)
    (hf : Served rs f.type f.serializer) :
    Agrees (ReadState.Inside t.stack) (c.readDirect n f) (c.readScoped x n t f) := by
  induction n generalizing t f with
  | zero => exact agrees_throw _
  | succ n ih => exact inside_readAround f (inside_readWithScoped hc x ih ht hf)

end

/-! ### Whole passes -/

/-- Behind an object, written or read or not, the scopes are what they were in front of it. -/
structure KeepsScopes (c : Codec) : Prop where
  write : ∀ owner r, c.record (.object owner) = .ok r → ∀ h depth v st,
    (c.writeRecord h (c.writeFramed h depth) r v st).2.typing.scopes = st.typing.scopes
  read : ∀ owner r, c.record (.object owner) = .ok r → ∀ depth st,
    (c.readRecord (c.readFramed depth) r st).2.typing.scopes = st.typing.scopes

/-- Passes do what scoped passes do that start with no object open. -/
structure FollowsTrail (c : Codec) (x : Failure) : Prop where
  write : ∀ h out v,
    let run := c.writeTagged h (c.writeScoped h x (writeDepth h) []) v
      ⟨out, .empty, [], ⟨.empty, c.cells⟩⟩
    let w := c.writeValue h out v
    w.result = run.1 ∧ w.output = run.2.output
  writeUntagged : ∀ h out v args,
    let run := c.writeFlat h (c.writeScoped h x (writeDepth h) []) v args
      ⟨out, .empty, [], ⟨.empty, c.cells⟩⟩
    let w := c.writeUntagged h out v args
    w.result = run.1 ∧ w.output = run.2.output
  read : ∀ depth h input,
    let run := c.readTagged (c.readScoped x depth []) ⟨input, h, .empty, ⟨.empty, c.cells⟩⟩
    let w := c.readValue depth h input
    w.result = run.1 ∧ w.input = run.2.input ∧ w.heap = run.2.heap
  readUntagged : ∀ depth h input t args,
    let run := c.readFlat (c.readScoped x depth []) t args ⟨input, h, .empty, ⟨.empty, c.cells⟩⟩
    let w := c.readUntagged depth h input t args
    w.result = run.1 ∧ w.input = run.2.input ∧ w.heap = run.2.heap

/-- A field that is declared with a parameter of its class, whatever objects are open: it is planned
for what the parameter is bound to, with a type tag if that is nothing.  It is written and read so
too, as an integer, inside the frame of its type or behind a type tag.  If the object of the field
was handed type arguments, it is bound to one of these. -/
structure PlansParam (c : Codec) (r : RecordSerializer) (e : FieldEntry) (p : String) : Prop where
  bound : ∀ (t : Trail) k, t.binding? r.decl.id p = some k →
    e.plan c (t.fieldType r e) = Plan.ofType c e.nullable k
  free : ∀ t : Trail, t.binding? r.decl.id p = none → e.plan c (t.fieldType r e) = .ok .dynamic
  int : ∀ (t : Trail) args, t.binding? r.decl.id p = some ⟨.int, args⟩ →
    c.Handles e (t.fieldType r e) .int
  long : ∀ (t : Trail) args, t.binding? r.decl.id p = some ⟨.long, args⟩ →
    c.Handles e (t.fieldType r e) .long
  framed : ∀ (t : Trail) u args s, t.binding? r.decl.id p = some ⟨u, args⟩ → u ≠ .int → u ≠ .long →
    c.serializer u = .ok s → c.Handles e (t.fieldType r e) (.known ⟨u, s, args, e.nullable⟩)
  tagged : ∀ t : Trail, t.binding? r.decl.id p = none → c.Handles e (t.fieldType r e) .dynamic
  own : ∀ args own, args ≠ [] → r.bindings args = .ok own → ∃ k,
    (Visit.mk r args).scope.get? p = some k ∧
      ∀ t, Trail.binding? (⟨r, args⟩ :: t) r.decl.id p = some k

section

variable (hc : c.Lists rs)
include hc

theorem Lists.keepsScopes : c.KeepsScopes := by
  refine ⟨fun owner r hrec h depth v st => ?_, fun owner r hrec depth st => ?_⟩
  · obtain ⟨hr, -⟩ := hc.mem_of_record hrec
    exact (agrees_same_iff.mp (inside_writeRecord hc (inside_writeFramed hc depth) hr v) st rfl).2
  · obtain ⟨hr, -⟩ := hc.mem_of_record hrec
    exact (agrees_same_iff.mp (inside_readRecord hc (inside_readFramed hc depth) hr) st rfl).2

theorem Lists.followsTrail (x : Failure) : c.FollowsTrail x := by
  have hnone : Trail.Within rs [] := List.forall_mem_nil _
  have hwrite : ∀ h f v, Served rs f.type f.serializer → Agrees (WriteState.Inside .empty)
      (c.writeDirect h (writeDepth h) f v) (c.writeScoped h x (writeDepth h) [] f v) :=
    fun h f v => inside_writeScoped hc x (writeDepth h) [] f v hnone
  have hread : ∀ depth f, Served rs f.type f.serializer → Agrees (ReadState.Inside .empty)
      (c.readDirect depth f) (c.readScoped x depth [] f) :=
    fun depth f => inside_readScoped hc x depth [] f hnone
  refine ⟨fun h out v => ?_, fun h out v args => ?_, fun depth h input => ?_,
    fun depth h input t args => ?_⟩
  · have hrun := agrees_same_iff.mp (agrees_writeTagged (h := h) hc (hwrite h) v)
    simp only [(hrun ⟨out, .empty, [], ⟨.empty, c.cells⟩⟩ rfl).1]
    exact hc.writeValue_direct h out v
  · have hrun := agrees_same_iff.mp (agrees_writeFlat (h := h) hc (hwrite h) v args)
    simp only [(hrun ⟨out, .empty, [], ⟨.empty, c.cells⟩⟩ rfl).1]
    exact hc.writeUntagged_direct h out v args
  · have hrun := agrees_same_iff.mp (agrees_readTagged hc (hread depth))
    simp only [(hrun ⟨input, h, .empty, ⟨.empty, c.cells⟩⟩ rfl).1]
    exact hc.readValue_direct depth h input
  · have hrun := agrees_same_iff.mp (agrees_readFlat hc (hread depth) t args)
    simp only [(hrun ⟨input, h, .empty, ⟨.empty, c.cells⟩⟩ rfl).1]
    exact hc.readUntagged_direct depth h input t args

/-- What `PlansParam` says is so of each parameter that the class of the field declares. -/
theorem Lists.plansParam {r : RecordSerializer} (hr : r ∈ rs)
    (hopt : r.options.optimizedGenerics = true) {e : FieldEntry} (he : e ∈ r.entries) {p : String}
    (hp : e.type = .param p) (hv : e.valueType = none) (hmem : p ∈ r.decl.params.names) :
    c.PlansParam r e p := by
  have hplan := plan_of_param (c := c) ((hc.plain r hr).follows.bare e he) hp hv hopt
  have hbound : ∀ (t : Trail) k, t.binding? r.decl.id p = some k →
      e.plan c (t.fieldType r e) = Plan.ofType c e.nullable k := fun t k hk => by rw [hplan, hk]
  have hfree : ∀ t : Trail, t.binding? r.decl.id p = none →
      e.plan c (t.fieldType r e) = .ok .dynamic := fun t hk => by rw [hplan, hk]
  refine ⟨hbound, hfree, fun t _ hk => handles_of_plan (hbound t _ hk),
    fun t _ hk => handles_of_plan (hbound t _ hk), fun t u args s hk hint hlong hs => ?_,
    fun t hk => handles_of_plan (hfree t hk), fun args own hargs hown => ?_⟩
  · exact handles_of_plan ((hbound t _ hk).trans (Plan.ofType_of_serializer hint hlong hs _ _))
  · obtain ⟨k, hk⟩ := Visit.get?_of_mem (Visit.scope?_of_bindings hown).2
      (Visit.binds_of_mem hargs hopt hmem) hmem
    exact ⟨k, hk, fun t => by simp [Trail.binding?, hargs, hk]⟩

end

/-- **The scopes are those of the open objects.**  Behind each object they are what they were in
front of it, however its pass ended.  In front of each field they are those of the objects that are
open, one for each that was handed type arguments and has a use for them: scoped passes check this
and find out the types of fields from the open objects, and do what passes do.  So a field that is
declared with a type parameter is written and read alike, as planned for what the innermost open
object of its class with type arguments binds the parameter to. -/
theorem passes_scoped (hc : c.Standard) :
    c.KeepsScopes ∧ (∀ x, c.FollowsTrail x) ∧
      ∀ owner r, c.record (.object owner) = .ok r → r.options.optimizedGenerics = true →
        ∀ e ∈ r.entries, ∀ p, e.type = .param p → e.valueType = none → c.PlansParam r e p := by
  have hdeclared := @Standard.declared c hc
  obtain ⟨rs, hc⟩ := hc.lists
  refine ⟨hc.keepsScopes, hc.followsTrail, fun owner r hrec hopt e he p hp hv => ?_⟩
  obtain ⟨hr, -⟩ := hc.mem_of_record hrec
  exact hc.plansParam hr hopt he hp hv
    (mem_params_of_type (hc.plain r hr) (hdeclared (hc.known r hr)) he hp)

/-- A crate without type arguments holds what the crate around it says, one with type arguments what
these say, and a crate on its own holds its item behind a type tag. -/
theorem passes_scoped_crates :
    let r : RecordSerializer := .make crate .standard .empty none 0
    crates.KeepsScopes ∧ crates.FollowsTrail .tooDeep ∧ ∃ e ∈ r.entries,
      e.plan crates (Trail.fieldType [⟨r, []⟩, ⟨r, [.ofType .int]⟩] r e) = .ok .int ∧
        e.plan crates (Trail.fieldType [⟨r, [.ofType .long]⟩, ⟨r, [.ofType .int]⟩] r e) =
          .ok .long ∧
        e.plan crates (Trail.fieldType [⟨r, []⟩] r e) = .ok .dynamic ∧
        crates.Handles e (Trail.fieldType [⟨r, []⟩, ⟨r, [.ofType .int]⟩] r e) .int ∧
        crates.Handles e (Trail.fieldType [⟨r, []⟩] r e) .dynamic := by
  intro r
  obtain ⟨hkeeps, hfollows, hplans⟩ := passes_scoped standard_crates
  have he : ∃ e ∈ r.entries, e.type = .param "T" ∧ e.valueType = none :=
    ⟨_, List.mem_cons_self, rfl, rfl⟩
  obtain ⟨e, he, hp, hv⟩ := he
  have hplan := hplans crate.id r rfl rfl e he "T" hp hv
  exact ⟨hkeeps, hfollows _, e, he, hplan.bound _ (.ofType .int) rfl,
    hplan.bound _ (.ofType .long) rfl, hplan.free _ rfl, hplan.int _ [] rfl, hplan.tagged _ rfl⟩

end Codec

end GraphCodec
