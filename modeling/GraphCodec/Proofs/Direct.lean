import GraphCodec.Proofs.Agreement
import GraphCodec.Proofs.Standard

/-!
# Codecs — type arguments handed on directly

A serializer finds the type arguments of an object in its cell, together with the resolution that
it made last.  In a *direct* pass there are no cells: the arguments come with the object, and the
type of each of its fields is resolved anew from them.  Both passes end alike from the same place
(`agrees_writeDirect`, `agrees_readDirect`).
-/

namespace GraphCodec

namespace RecordSerializerOf

/-- What the type arguments of an object bind. -/
def bindings (r : RecordSerializer) (args : List ConcreteType) :
    Except ConfigError (Option TypeScope) :=
  if args.isEmpty || !r.options.optimizedGenerics || r.decl.params.isEmpty then .ok none
  else (TypeScope.bind r.decl.id r.decl.params args).map some

/-- The concrete type of a field, under what the object's own arguments bind if there are any. -/
def fieldType (r : RecordSerializer) (own : Option TypeScope) (scopes : ScopeStack)
    (e : FieldEntry) : Option ConcreteType :=
  if !e.isGeneric || !r.options.optimizedGenerics then none
  else
    match own with
    | some scope => e.type.resolve scope.get?
    | none => if scopes.isEmpty then none else e.type.resolve (scopes.resolveIn r.decl.id)

/-- What a field comes to is what its declaration comes to under some bindings, if anything. -/
theorem fieldType_eq (r : RecordSerializer) (own : Option TypeScope) (scopes : ScopeStack)
    (e : FieldEntry) :
    r.fieldType own scopes e = none ∨
      ∃ lookup, r.fieldType own scopes e = e.type.resolve lookup := by
  simp only [fieldType]
  split
  · exact .inl rfl
  · cases own with
    | some scope => exact .inr ⟨_, rfl⟩
    | none =>
        simp only
        split
        · exact .inl rfl
        · exact .inr ⟨_, rfl⟩

variable {r : RecordSerializer} {args : List ConcreteType} {own : Option Resolution}

theorem bindings_of_own (r : RecordSerializer) (args : List ConcreteType) :
    (r.own args).map (Option.map Resolution.scope) = (r.bindings args).mapError .config := by
  simp only [RecordSerializerOf.own, bindings]
  split
  · rfl
  · simp only [Resolution.of]
    cases TypeScope.bind r.decl.id r.decl.params args <;> rfl

/-- What was cached for a field is what the field's type comes to. -/
theorem resolved_eq_fieldType (hown : r.own args = .ok own) (scopes : ScopeStack) {index : Nat}
    {e : FieldEntry} (he : r.entries[index]? = some e) :
    r.resolved own scopes index e = r.fieldType (own.map Resolution.scope) scopes e := by
  simp only [resolved, fieldType]
  split
  · rfl
  · next hgeneric =>
    cases own with
    | none => rfl
    | some s =>
        simp only [RecordSerializerOf.own] at hown
        split at hown
        · cases hown
        · cases hs : Resolution.of r args <;> rw [hs] at hown <;> cases hown
          obtain ⟨scope, rfl⟩ := Resolution.eq_of_ok hs
          have hgen : e.isGeneric = true := by simp_all
          simp [Resolution.field?, he, hgen]

end RecordSerializerOf

namespace Codec

/-! ### Direct passes -/

section

variable (c : Codec) (h : Heap) (nested : Frame → Value → WriteM Unit)

/-- Writes the fields of an object under what its type arguments bind. -/
def writeFieldsDirect (r : RecordSerializer) (own : Option TypeScope) (o : ObjectId) :
    FieldTable → WriteM Unit
  | [] => return
  | e :: rest => do
    if e.serialized then
      let type := r.fieldType own (← get).typing.scopes e
      Pass.inField r.decl.id e.name (c.writeField h nested e o type)
    writeFieldsDirect r own o rest

/-- Writes an object with its type arguments field by field. -/
def writeRecordDirect (r : RecordSerializer) (args : List ConcreteType) (v : Value) :
    WriteM Unit := do
  let own ← Pass.ofExcept ((r.bindings args).mapError .config)
  let o ← Pass.ofExcept (h.instanceOf r.decl.id v)
  WriteM.inScope own (c.writeFieldsDirect h nested r own o r.entries)

/-- Writes a value with its type arguments. -/
def writeWithDirect (args : List ConcreteType) : Serializer → Value → WriteM Unit
  | .stock s, v => c.writeStock h nested s v
  | .record r, v => c.writeRecordDirect h nested r args v
  | .catching inner, v =>
    Pass.recover (writeWithDirect args inner v) fun e => WriteM.item (.str e.message)
  | .orNew inner, v => Pass.recover (writeWithDirect args inner v) fun _ => return

end

/-- Writes a value inside its frame, with the type arguments of the frame. -/
def writeDirect (c : Codec) (h : Heap) : (depth : Nat) → Frame → Value → WriteM Unit
  | 0, _, _ => throw .tooDeep
  | depth + 1, f, v =>
    c.writeAround h f v (c.writeWithDirect h (c.writeDirect h depth) f.args f.serializer v)

section

variable (c : Codec) (nested : Frame → ReadM Value)

/-- Reads the fields of an object under what its type arguments bind. -/
def readFieldsDirect (r : RecordSerializer) (own : Option TypeScope) (o : ObjectId) :
    FieldTable → ReadM Unit
  | [] => return
  | e :: rest => do
    if e.serialized then
      let type := r.fieldType own (← get).typing.scopes e
      Pass.inField r.decl.id e.name (c.readField nested e o type)
    readFieldsDirect r own o rest

/-- Reads an object with its type arguments field by field. -/
def readRecordDirect (r : RecordSerializer) (args : List ConcreteType) : ReadM Value := do
  let own ← Pass.ofExcept ((r.bindings args).mapError .config)
  ReadM.inScope own do
    let o ← c.readInstance r
    ReadM.reference o
    c.readFieldsDirect nested r own o r.entries
    return .object o

/-- Reads a value of a type with its type arguments. -/
def readWithDirect (t : ValueType) (args : List ConcreteType) : Serializer → ReadM Value
  | .stock s => c.readStock nested t s
  | .record r => c.readRecordDirect nested r args
  | .catching inner => Pass.recover (readWithDirect t args inner) fun e => return .str e.message
  | .orNew inner => Pass.recover (readWithDirect t args inner) fun e =>
    match t with
    | .object _ => do
      let o ← c.readNew t
      ReadM.reference o
      return .object o
    | _ => Pass.fail e

end

/-- Reads a value inside its frame, with the type arguments of the frame. -/
def readDirect (c : Codec) : (depth : Nat) → Frame → ReadM Value
  | 0, _ => throw .tooDeep
  | depth + 1, f =>
    c.readAround f (c.readWithDirect (c.readDirect depth) f.type f.args f.serializer)

/-! ### Direct passes end alike -/

open Pass

variable {c : Codec} {rs : List RecordSerializer} {h : Heap} {A : List ObjectId} {k : Nat}

/-- The first codec's cells are quiet, whatever those of the second one are. -/
def QuietFirst (rs : List RecordSerializer) (cells _ : ArgumentCells) : Prop := cells.Quiet rs

theorem of_cons_eq_drop {α : Type} {l t : List α} {a : α} {i : Nat} (h : a :: t = l.drop i) :
    l[i]? = some a ∧ t = l.drop (i + 1) := by
  constructor
  · have h₀ : (l.drop i)[0]? = some a := by rw [← h]; rfl
    simpa using h₀
  · rw [← List.tail_drop, ← h]
    rfl

section

variable {r : RecordSerializer} {args : List ConcreteType} {own : Option Resolution}
  (hown : r.own args = .ok own) (cells : ArgumentCells) (o : ObjectId)
include hown

theorem writeFields_eq_direct (nested : Frame → Value → WriteM Unit) {t : FieldTable} :
    ∀ {index : Nat}, t = r.entries.drop index →
      c.writeFields h nested r own o index t =
        (c.withCells cells).writeFieldsDirect h nested r (own.map Resolution.scope) o t := by
  induction t with
  | nil =>
      intro index ht
      rfl
  | cons e t ih =>
      intro index ht
      obtain ⟨he, ht⟩ := of_cons_eq_drop ht
      simp only [writeFields, writeFieldsDirect, ih ht,
        RecordSerializerOf.resolved_eq_fieldType hown _ he]
      rfl

theorem readFields_eq_direct (nested : Frame → ReadM Value) {t : FieldTable} :
    ∀ {index : Nat}, t = r.entries.drop index →
      c.readFields nested r own o index t =
        (c.withCells cells).readFieldsDirect nested r (own.map Resolution.scope) o t := by
  induction t with
  | nil =>
      intro index ht
      rfl
  | cons e t ih =>
      intro index ht
      obtain ⟨he, ht⟩ := of_cons_eq_drop ht
      simp only [readFields, readFieldsDirect, ih ht,
        RecordSerializerOf.resolved_eq_fieldType hown _ he]
      rfl

end

section

variable (hc : c.Lists rs) (cells : ArgumentCells) {nested nested' : Frame → Value → WriteM Unit}
  (hn : ∀ f v, Served rs f.type f.serializer →
    Agrees (WriteState.Matches (QuietFirst rs) A) (nested f v) (nested' f v))
include hc hn

/-- What was left in the cell of a serializer and taken out of it comes with the object. -/
theorem agrees_writeWithDirect {f : Frame} (hf : Served rs f.type f.serializer) (v : Value) :
    Agrees (WriteState.Matches (QuietFirst rs) A) (c.writeBody h nested f v)
      ((c.withCells cells).writeWithDirect h nested' f.args f.serializer v) := by
  obtain ⟨t, s, args, nullable⟩ := f
  intro st st' hst
  cases hf with
  | stock hs =>
      rw [writeBody, bind_of_ok (WriteM.supply_stock_run _ _ _)]
      exact agrees_writeStock hs v st st' hst
  | @record r hr =>
      obtain ⟨cells', hq, hrun⟩ := WriteM.supply_takeArguments (α := Unit) hr args hst.cells
      have hst' : WriteState.Matches (QuietFirst rs) A
          { st with typing := ⟨st.typing.scopes, cells'⟩ } st' := { hst with cells := hq }
      simp only [writeBody, writeWith, writeRecord, writeWithDirect, writeRecordDirect]
      rw [hrun, ← RecordSerializerOf.bindings_of_own]
      cases hown : r.own args with
      | error e => exact ⟨rfl, hst'⟩
      | ok own =>
          simp only [Except.map, Pass.ofExcept, pure_bind]
          refine agrees_bind (agrees_ofExcept _) (fun o _ => ?_) _ _ hst'
          rw [← writeFields_eq_direct hown cells o nested' List.drop_zero.symm]
          exact WriteM.agrees_inScope _
            (agrees_writeFields hc hn hr own o (fun _ he => he) 0)

end

theorem agrees_writeDirect (hc : c.Lists rs) (cells : ArgumentCells) (n : Nat) (f : Frame)
    (v : Value) (hf : Served rs f.type f.serializer) :
    Agrees (WriteState.Matches (QuietFirst rs) A) (c.writeFramed h n f v)
      ((c.withCells cells).writeDirect h n f v) := by
  induction n generalizing A f v with
  | zero => exact agrees_throw _
  | succ n ih =>
      rw [writeFramed_succ, writeDirect]
      exact agrees_writeAround f v fun B _ =>
        agrees_writeWithDirect hc cells (fun f v => ih f v) hf v

section

variable (hc : c.Lists rs) (cells : ArgumentCells) {nested nested' : Frame → ReadM Value}
  (hn : ∀ f, Served rs f.type f.serializer →
    Agrees (ReadState.Matches (QuietFirst rs) k) (nested f) (nested' f))
include hc hn

theorem agrees_readWithDirect {f : Frame} (hf : Served rs f.type f.serializer) :
    Agrees (ReadState.Matches (QuietFirst rs) k) (c.readBody nested f)
      ((c.withCells cells).readWithDirect nested' f.type f.args f.serializer) := by
  obtain ⟨t, s, args, nullable⟩ := f
  intro st st' hst
  cases hf with
  | stock hs =>
      rw [readBody, bind_of_ok (ReadM.supply_stock_run _ _ _)]
      exact agrees_readStock hs st st' hst
  | @record r hr =>
      obtain ⟨cells', hq, hrun⟩ := ReadM.supply_takeArguments (α := Value) hr args hst.cells
      have hst' : ReadState.Matches (QuietFirst rs) k
          { st with typing := ⟨st.typing.scopes, cells'⟩ } st' := { hst with cells := hq }
      simp only [readBody, readWith, readRecord, readWithDirect, readRecordDirect]
      rw [hrun, ← RecordSerializerOf.bindings_of_own]
      cases hown : r.own args with
      | error e => exact ⟨rfl, hst'⟩
      | ok own =>
          simp only [Except.map, Pass.ofExcept, pure_bind]
          refine ReadM.agrees_inScope _ ?_ _ _ hst'
          refine agrees_bind (agrees_readInstance hc hr) fun o _ => ?_
          refine agrees_bind (ReadM.agrees_reference o) fun _ _ => ?_
          rw [← readFields_eq_direct hown cells o nested' List.drop_zero.symm]
          exact agrees_bind (agrees_readFields hc hn hr own o (fun _ he => he) 0)
            fun _ _ => agrees_pure _

end

theorem agrees_readDirect (hc : c.Lists rs) (cells : ArgumentCells) (n : Nat) (f : Frame)
    (hf : Served rs f.type f.serializer) :
    Agrees (ReadState.Matches (QuietFirst rs) k) (c.readFramed n f)
      ((c.withCells cells).readDirect n f) := by
  induction n generalizing k f with
  | zero => exact agrees_throw _
  | succ n ih =>
      rw [readFramed_eq_readAround, readDirect]
      have hbody : ∀ j, _ := fun j => agrees_readWithDirect (k := j) hc cells (fun f => ih f) hf
      exact agrees_readAround f (fun _ j _ => hbody j) fun _ => hbody k

/-! ### Whole passes -/

theorem runWrite_direct {body body' : WriteM Unit} (hq : c.cells.Quiet rs) (out : Output)
    (hb : Agrees (WriteState.Matches (QuietFirst rs) []) body body') :
    (c.runWrite out body).result = (body' ⟨out, .empty, [], ⟨.empty, c.cells⟩⟩).1 ∧
      (c.runWrite out body).output = (body' ⟨out, .empty, [], ⟨.empty, c.cells⟩⟩).2.output := by
  obtain ⟨h₁, h₂⟩ := hb ⟨out, .empty, [], ⟨.empty, c.cells⟩⟩ _ ⟨rfl, rfl, rfl, rfl, rfl, hq⟩
  exact ⟨h₁.symm, h₂.output.symm⟩

/-- The direct pass ends in the same way and writes the same. -/
theorem Lists.writeValue_direct (hc : c.Lists rs) (h : Heap) (out : Output) (v : Value) :
    let run := c.writeTagged h (c.writeDirect h (writeDepth h)) v
      ⟨out, .empty, [], ⟨.empty, c.cells⟩⟩
    (c.writeValue h out v).result = run.1 ∧ (c.writeValue h out v).output = run.2.output :=
  runWrite_direct hc.quiet out
    (agrees_writeTagged hc (agrees_writeDirect hc c.cells (writeDepth h)) v)

theorem Lists.writeUntagged_direct (hc : c.Lists rs) (h : Heap) (out : Output) (v : Value)
    (args : List ConcreteType) :
    let run := c.writeFlat h (c.writeDirect h (writeDepth h)) v args
      ⟨out, .empty, [], ⟨.empty, c.cells⟩⟩
    (c.writeUntagged h out v args).result = run.1 ∧
      (c.writeUntagged h out v args).output = run.2.output :=
  runWrite_direct hc.quiet out
    (agrees_writeFlat hc (agrees_writeDirect hc c.cells (writeDepth h)) v args)

/-- Where both passes of reading start. -/
theorem matches_start (hc : c.Lists rs) (g : Heap) (input : Input) :
    ReadState.Matches (QuietFirst rs) input.rest.length
      ⟨input, g, .empty, ⟨.empty, c.cells⟩⟩ ⟨input, g, .empty, ⟨.empty, c.cells⟩⟩ :=
  ⟨rfl, rfl, rfl, rfl, hc.quiet, le_rfl, nofun⟩

theorem runRead_direct {body body' : ReadM Value} (hc : c.Lists rs) (h : Heap) (input : Input)
    (hb : Agrees (ReadState.Matches (QuietFirst rs) input.rest.length) body body') :
    let run := body' ⟨input, h, .empty, ⟨.empty, c.cells⟩⟩
    (c.runRead h input body).result = run.1 ∧ (c.runRead h input body).input = run.2.input ∧
      (c.runRead h input body).heap = run.2.heap := by
  obtain ⟨h₁, h₂⟩ := hb _ _ (matches_start hc h input)
  exact ⟨h₁.symm, h₂.input.symm, h₂.heap.symm⟩

theorem Lists.readValue_direct (hc : c.Lists rs) (depth : Nat) (h : Heap) (input : Input) :
    let run := c.readTagged (c.readDirect depth) ⟨input, h, .empty, ⟨.empty, c.cells⟩⟩
    let w := c.readValue depth h input
    w.result = run.1 ∧ w.input = run.2.input ∧ w.heap = run.2.heap :=
  runRead_direct hc h input (agrees_readTagged hc (agrees_readDirect hc c.cells depth))

theorem Lists.readUntagged_direct (hc : c.Lists rs) (depth : Nat) (h : Heap) (input : Input)
    (t : ValueType) (args : List ConcreteType) :
    let run := c.readFlat (c.readDirect depth) t args ⟨input, h, .empty, ⟨.empty, c.cells⟩⟩
    let w := c.readUntagged depth h input t args
    w.result = run.1 ∧ w.input = run.2.input ∧ w.heap = run.2.heap :=
  runRead_direct hc h input (agrees_readFlat hc (agrees_readDirect hc c.cells depth) t args)

end Codec

end GraphCodec
