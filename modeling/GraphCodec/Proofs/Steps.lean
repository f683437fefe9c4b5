import GraphCodec.Codec.Read
import GraphCodec.Codec.Write
import GraphCodec.Proofs.Passes
import GraphCodec.Proofs.Slots

/-!
# Codecs — fields and frames, step by step

Writing a field looks its value up, plans, and writes the value as planned.  Reading a field plans,
reads a value as planned, and sets the slot.  `writePlanned` and `readPlanned` are the parts in the
middle, where both sides have the same plan (`handles_of_plan`).

Inside a frame without a hook there is either one item or a record, which starts with the type
arguments that were left for it: `supply_takeArguments` says, for writing and for reading, what
comes of them.
-/

namespace GraphCodec

namespace Codec

open Pass

/-- The values of reference types are the objects. -/
theorem isReference_of_typeOf {h : Heap} {v : Value} {t : ValueType} (hv : h.typeOf v = some t) :
    t.isReference = v.object?.isSome := by
  cases v <;> cases hv <;> rfl

/-- No registration stands for null, and the one of its type for another value. -/
theorem writeTag_returns {c : Codec} {h : Heap} {v : Value} {x : Option Registration}
    (hx : CanReturn (c.writeTag h v) x) :
    x = none ∧ v = .null ∨
      ∃ t r, x = some r ∧ h.typeOf v = some t ∧ c.registration? t = some r := by
  obtain ⟨st, st', hx⟩ := hx
  cases ht : h.typeOf v with
  | none =>
      simp only [writeTag, ht] at hx
      obtain ⟨_, _, -, hx⟩ := bind_eq_ok.mp hx
      cases hx
      cases v with
      | null => exact .inl ⟨rfl, rfl⟩
      | _ => cases ht
  | some t =>
      cases hn : c.number? t <;> cases hr : c.registration? t <;>
        simp only [writeTag, ht, hn, hr] at hx
      · cases hx
      · cases hx
      · cases hx
      · obtain ⟨_, _, -, hx⟩ := bind_eq_ok.mp hx
        cases hx
        exact .inr ⟨t, _, rfl, rfl, hr⟩

/-- The tag of a registered type can be written. -/
theorem writeTag_of_registration? {c : Codec} {h : Heap} {v : Value} {t : ValueType}
    {y : Registration} (ht : h.typeOf v = some t) (hy : c.registration? t = some y) :
    ∃ n, c.writeTag h v = WriteM.varint n >>= fun _ => pure (some y) := by
  obtain ⟨n, hn⟩ : ∃ n, c.number? t = some n := by
    refine Option.isSome_iff_exists.mp ?_
    rw [number?, List.findIdx?_isSome, List.any_eq_true, ← List.find?_isSome]
    exact Option.isSome_of_mem hy
  exact ⟨n + 1, by simp only [writeTag, ht, hn, hy]⟩

theorem requireType_of_typeOf {h : Heap} {v : Value} {t : ValueType}
    (hv : ∀ u, h.typeOf v = some u → u = t) : requireType h t v = pure () := by
  simp only [requireType]
  split
  · next u hu => rw [if_pos (hv u hu)]
  · rfl

/-- Null may stand for a value of any type. -/
theorem requireType_of_fits {h : Heap} {v : Value} {t : ValueType}
    (hv : v = .null ∨ h.typeOf v = some t) : requireType h t v = pure () :=
  requireType_of_typeOf fun u hu => by
    rcases hv with rfl | hv
    · cases hu
    · exact Option.some.inj (hu.symm.trans hv)

theorem requireType_of_not {h : Heap} {v : Value} {t : ValueType}
    (hv : ¬ (v = .null ∨ h.typeOf v = some t)) : requireType h t v = fail (h.mismatch t v) := by
  simp only [requireType]
  split
  · next u hu =>
    refine if_neg ?_
    rintro rfl
    exact hv (.inr hu)
  · next hu =>
    refine absurd (.inl ?_) hv
    cases v with
    | null => rfl
    | _ => cases hu

section

variable (c : Codec) (h : Heap) (nested : Frame → Value → WriteM Unit)

/-- Writes the value of a field as planned. -/
def writePlanned (e : FieldEntry) (v : Value) : Plan → WriteM Unit
  | .dynamic => c.writeTagged h nested v
  | .known f => do
    requireType h f.type v
    nested f v
  | .int => do
    requireType h .int v
    writePresence e v
    match v with
    | .int n => WriteM.item (if e.varInt then .varI32 n e.optimizePositive else .i32 n)
    | _ => return
  | .long => do
    requireType h .long v
    writePresence e v
    match v with
    | .long n => WriteM.item (if e.varInt then .varI64 n e.optimizePositive else .i64 n)
    | _ => return

theorem writeField_of_error {e : FieldEntry} {o : ObjectId} {x : AccessError}
    (hg : e.slot.get h o = .error x) (resolved : Option ConcreteType) :
    c.writeField h nested e o resolved = fail (.ofAccess x) := by
  simp only [writeField]
  rw [hg]
  rfl

theorem writeField_of_get {e : FieldEntry} {o : ObjectId} {v : Value}
    (hg : e.slot.get h o = .ok v) (resolved : Option ConcreteType) :
    c.writeField h nested e o resolved =
      if v.isNull && !e.nullable then fail (.encode .nullValue)
      else Pass.ofExcept (e.plan c resolved) >>= c.writePlanned h nested e v := by
  simp only [writeField]
  rw [hg]
  simp only [Except.mapError, Pass.ofExcept, pure_bind, fail_bind]
  split
  · rfl
  · refine congrArg (Pass.ofExcept (e.plan c resolved) >>= ·) (funext fun p => ?_)
    cases p <;> rfl

/-- Only the plan of a field matters. -/
theorem writeField_congr {e : FieldEntry} {a b : Option ConcreteType}
    (hp : e.plan c a = e.plan c b) (o : ObjectId) :
    c.writeField h nested e o a = c.writeField h nested e o b := by
  simp only [writeField, hp]

/-- Writes what stands inside a frame. -/
def writeBody (f : Frame) (v : Value) : WriteM Unit := do
  WriteM.supply f.serializer f.args
  c.writeWith h nested f.serializer v

/-- Writes a frame around what stands inside it. -/
def writeAround (f : Frame) (v : Value) (body : WriteM Unit) : WriteM Unit :=
  if f.type.isReference && c.references then
    match v with
    | .object o => do
      let m ← WriteM.meet o
      WriteM.varint m.code
      if m = Marker.new then body
    | _ =>
      if v.isNull && f.nullable then WriteM.varint Marker.null.code
      else fail (h.mismatch f.type v)
  else if v.isNull then
    if f.nullable then WriteM.item (.bool false) else fail (.encode .nullValue)
  else
    (if f.nullable then WriteM.item (.bool true) else pure ()) >>= fun _ =>
      match v.object? with
      | some o => if c.references then body else WriteM.onPath o (h.get o).owner body
      | none => body

theorem writeFramed_succ (n : Nat) (f : Frame) (v : Value) :
    c.writeFramed h (n + 1) f v = c.writeAround h f v (c.writeBody h (c.writeFramed h n) f v) := by
  simp only [writeFramed, writeAround]
  split
  · cases v <;> rfl
  · cases v <;> cases f.nullable <;> rfl

/-- Writes a value without type tag. -/
def writeFlat (v : Value) (args : List ConcreteType) : WriteM Unit :=
  match h.typeOf v with
  | none => fail (.encode .nullValue)
  | some t => do
    let s ← Pass.ofExcept ((c.serializer t).mapError .config)
    nested ⟨t, s, args, false⟩ v

theorem writeUntagged_eq (out : Output) (v : Value) (args : List ConcreteType) :
    c.writeUntagged h out v args =
      c.runWrite out (c.writeFlat h (c.writeFramed h (writeDepth h)) v args) := rfl

theorem writeFramed_object (hr : c.references = true) {f : Frame}
    (hf : f.type.isReference = true) (n : Nat) (o : ObjectId) :
    c.writeFramed h (n + 1) f (.object o) = (do
      let m ← WriteM.meet o
      WriteM.varint m.code
      if m = Marker.new then c.writeBody h (c.writeFramed h n) f (.object o)) := by
  simp only [writeFramed]
  rw [hr, hf]
  rfl

theorem writeFramed_no_object (hr : c.references = true) {f : Frame}
    (hf : f.type.isReference = true) (n : Nat) {v : Value} (hv : ∀ o, v ≠ .object o) :
    c.writeFramed h (n + 1) f v =
      if v.isNull && f.nullable then WriteM.varint 0 else fail (h.mismatch f.type v) := by
  simp only [writeFramed]
  rw [hr, hf]
  cases v with
  | object o => exact absurd rfl (hv o)
  | _ => rfl

theorem writeFramed_unmarked {f : Frame} (hf : (f.type.isReference && c.references) = false)
    (n : Nat) (v : Value) :
    c.writeFramed h (n + 1) f v =
      if v.isNull then
        if f.nullable then WriteM.item (.bool false) else fail (.encode .nullValue)
      else
        (if f.nullable then WriteM.item (.bool true) else pure ()) >>= fun _ =>
          match v.object? with
          | some o =>
            if c.references then c.writeBody h (c.writeFramed h n) f v
            else WriteM.onPath o (h.get o).owner (c.writeBody h (c.writeFramed h n) f v)
          | none => c.writeBody h (c.writeFramed h n) f v := by
  simp only [writeFramed]
  rw [hf]
  cases v <;> cases f.nullable <;> rfl

end

section

variable (c : Codec) (nested : Frame → ReadM Value)

/-- Reads what stands inside a frame. -/
def readBody (f : Frame) : ReadM Value := do
  ReadM.supply f.serializer f.args
  c.readWith nested f.type f.serializer

/-- Reads a value inside its frame: `back` looks up the object of a number where one of a type is
asked for. -/
def readFrame (back : ValueType → Nat → ReadM Value) (f : Frame) : ReadM Value :=
  if f.type.isReference && c.references then do
    match Marker.ofCode (← ReadM.take Read.varU32) with
    | .null => if f.nullable then return .null else fail (.decode .unexpectedNull)
    | .known number => back f.type number
    | .new => ReadM.numbered (c.readBody nested f)
  else if f.nullable then do
    if ← ReadM.take Read.bool then c.readBody nested f else return .null
  else c.readBody nested f

/-- The number alone decides which object it leads back to. -/
theorem readFramed_succ (n : Nat) :
    c.readFramed (n + 1) = c.readFrame (c.readFramed n) fun _ => ReadM.known := by
  funext f
  simp only [readFramed, readFrame]
  split <;> split <;> rfl

/-- Reads a frame around what stands inside it. -/
def readAround (f : Frame) (body : ReadM Value) : ReadM Value :=
  if f.type.isReference && c.references then do
    match Marker.ofCode (← ReadM.take Read.varU32) with
    | .null => if f.nullable then return .null else fail (.decode .unexpectedNull)
    | .known number => ReadM.known number
    | .new => ReadM.numbered body
  else if f.nullable then do
    if ← ReadM.take Read.bool then body else return .null
  else body

theorem readFramed_eq_readAround (n : Nat) (f : Frame) :
    c.readFramed (n + 1) f = c.readAround f (c.readBody (c.readFramed n) f) := by
  rw [readFramed_succ]
  rfl

/-- Reads a value of a type without type tag. -/
def readFlat (t : ValueType) (args : List ConcreteType) : ReadM Value := do
  let s ← Pass.ofExcept ((c.serializer t).mapError .config)
  nested ⟨t, s, args, false⟩

theorem readFrame_marked (back : ValueType → Nat → ReadM Value) (hr : c.references = true)
    {f : Frame} (hf : f.type.isReference = true) :
    c.readFrame nested back f = (do
      match Marker.ofCode (← ReadM.take Read.varU32) with
      | .null => if f.nullable then return .null else fail (.decode .unexpectedNull)
      | .known number => back f.type number
      | .new => ReadM.numbered (c.readBody nested f)) := by
  simp only [readFrame]
  rw [hr, hf]
  rfl

theorem readFrame_unmarked (back : ValueType → Nat → ReadM Value) {f : Frame}
    (hf : (f.type.isReference && c.references) = false) :
    c.readFrame nested back f =
      if f.nullable then (do
        if ← ReadM.take Read.bool then c.readBody nested f else return .null)
      else c.readBody nested f := by
  simp only [readFrame]
  rw [hf]
  rfl

/-- Reads the value of a field as planned. -/
def readPlanned (e : FieldEntry) : Plan → ReadM Value
  | .dynamic => c.readTagged nested
  | .known f => nested f
  | .int => do
    if ← readPresence e then
      return .int (← ReadM.take (if e.varInt then Read.varI32 e.optimizePositive else Read.i32))
    else return .null
  | .long => do
    if ← readPresence e then
      return .long (← ReadM.take (if e.varInt then Read.varI64 e.optimizePositive else Read.i64))
    else return .null

theorem readField_congr {e : FieldEntry} {a b : Option ConcreteType}
    (hp : e.plan c a = e.plan c b) (o : ObjectId) :
    c.readField nested e o a = c.readField nested e o b := by
  simp only [readField, readFieldValue, hp]

theorem readFieldValue_eq (e : FieldEntry) (resolved : Option ConcreteType) :
    c.readFieldValue nested e resolved =
      Pass.ofExcept (e.plan c resolved) >>= c.readPlanned nested e := by
  refine congrArg (Pass.ofExcept (e.plan c resolved) >>= ·) (funext fun p => ?_)
  cases p <;> rfl

end

/-- A field with this plan is written and read as planned: an integer by the settings of the field,
another value of a known type inside its frame, and any value at all behind its type tag.  Null is
refused on both sides where it cannot stand. -/
structure Handles (c : Codec) (e : FieldEntry) (resolved : Option ConcreteType) (p : Plan) :
    Prop where
  write : ∀ h nested o v, e.slot.get h o = .ok v → c.writeField h nested e o resolved =
    if v.isNull && !e.nullable then fail (.encode .nullValue) else c.writePlanned h nested e v p
  read : ∀ nested o, c.readField nested e o resolved = do
    let v ← c.readPlanned nested e p
    if v.isNull && !e.nullable then fail (.decode .unexpectedNull)
    ReadM.setSlot e.slot o v

theorem handles_of_plan {c : Codec} {e : FieldEntry} {resolved : Option ConcreteType} {p : Plan}
    (hp : e.plan c resolved = .ok p) : c.Handles e resolved p where
  write h nested o v hv := by
    rw [writeField_of_get c h nested hv, hp]
    rfl
  read nested o := by
    rw [readField, readFieldValue_eq, hp]
    rfl

end Codec

/-! ### Objects -/

theorem WriteM.onPath_of_mem {α : Type} {o : ObjectId} {st : WriteState} (ho : o ∈ st.path)
    (owner : ClassId) (body : WriteM α) :
    onPath o owner body st = (.error (.error (.encode (.cycle owner))), st) := by
  simp [onPath, ho]

theorem WriteM.onPath_of_not_mem {α : Type} {o : ObjectId} {st : WriteState} (ho : o ∉ st.path)
    (owner : ClassId) (body : WriteM α) :
    onPath o owner body st = ((body { st with path := o :: st.path }).1,
      { (body { st with path := o :: st.path }).2 with
        path := (body { st with path := o :: st.path }).2.path.erase o }) := by
  simp only [onPath, List.contains_iff_mem, ho, if_false]
  rfl

theorem Numbering.number?_of_mem {t : Numbering} {o : ObjectId} (ho : o ∈ t.seen) :
    t.number? o = some (t.seen.idxOf o) :=
  List.findIdx?_eq_some_iff_findIdx_eq.mpr
    ⟨List.idxOf_lt_length_of_mem ho, by simp [List.idxOf, BEq.beq]⟩

/-- An object that was met before is written as its number. -/
theorem WriteM.meet_of_known {o : ObjectId} {st : WriteState} {n : Nat}
    (ho : st.numbering.number? o = some n) (body : WriteM Unit) :
    (do let m ← meet o; varint m.code; if m = Marker.new then body : WriteM Unit) st =
      varint (n + 2) st := by
  show (do varint (st.numbering.meet o).1.code
           if (st.numbering.meet o).1 = Marker.new then body : WriteM Unit)
    { st with numbering := (st.numbering.meet o).2 } = _
  simp only [Numbering.meet, ho]
  rfl

/-- An object that was not met before is numbered and follows. -/
theorem WriteM.meet_of_new {o : ObjectId} {st : WriteState} (ho : o ∉ st.numbering.seen)
    (body : WriteM Unit) :
    (do let m ← meet o; varint m.code; if m = Marker.new then body : WriteM Unit) st =
      (do varint 1; body : WriteM Unit) { st with numbering := ⟨st.numbering.seen ++ [o]⟩ } := by
  show (do varint (st.numbering.meet o).1.code
           if (st.numbering.meet o).1 = Marker.new then body : WriteM Unit)
    { st with numbering := (st.numbering.meet o).2 } = _
  simp only [Numbering.meet, Numbering.number?_eq_none.mpr ho]
  rfl

/-! ### Whole passes -/

namespace Codec

variable {c : Codec} {h : Heap} {st : ReadState}

theorem runWrite_of_run {body : WriteM Unit} {out : Output} {x : Except Failure Unit}
    {st : WriteState} (hrun : body ⟨out, .empty, [], ⟨.empty, c.cells⟩⟩ = (x, st)) :
    c.runWrite out body = ⟨x, st.output, { c with cells := st.typing.cells }⟩ := by
  have hx := congrArg Prod.fst hrun
  have hst := congrArg Prod.snd hrun
  subst hx hst
  rfl

theorem runRead_of_run {body : ReadM Value} {input : Input} {x : Except Failure Value}
    (hrun : body ⟨input, h, .empty, ⟨.empty, c.cells⟩⟩ = (x, st)) :
    c.runRead h input body = ⟨x, st.input, st.heap, { c with cells := st.typing.cells }⟩ := by
  have hx := congrArg Prod.fst hrun
  have hst := congrArg Prod.snd hrun
  subst hx hst
  rfl

theorem runRead_congr {body body' : ReadM Value} {input : Input}
    (hrun : body' ⟨input, h, .empty, ⟨.empty, c.cells⟩⟩ =
      body ⟨input, h, .empty, ⟨.empty, c.cells⟩⟩) :
    c.runRead h input body' = c.runRead h input body := by
  rcases hbody : body ⟨input, h, .empty, ⟨.empty, c.cells⟩⟩ with ⟨x, st⟩
  rw [runRead_of_run hbody, runRead_of_run (hrun.trans hbody)]

end Codec

/-! ### Type arguments -/

variable {α : Type} {rs : List RecordSerializer} {r : RecordSerializer}

theorem WriteM.supply_stock_run (s : Stock) (args : List ConcreteType) (st : WriteState) :
    WriteM.supply (.stock s) args st = (.ok ⟨⟩, st) := by
  show ((.ok ⟨⟩ : Except Failure PUnit), { st with typing := st.typing.supply (.stock s) args }) = _
  rw [Typing.supply_stock]

theorem ReadM.supply_stock_run (s : Stock) (args : List ConcreteType) (st : ReadState) :
    ReadM.supply (.stock s) args st = (.ok ⟨⟩, st) := by
  show ((.ok ⟨⟩ : Except Failure PUnit), { st with typing := st.typing.supply (.stock s) args }) = _
  rw [Typing.supply_stock]

theorem WriteM.supply_takeArguments (hr : r ∈ rs) (args : List ConcreteType) {st : WriteState}
    (hq : st.typing.cells.Quiet rs) :
    ∃ cells : ArgumentCells, cells.Quiet rs ∧
      ∀ k : Option Resolution → WriteM α,
        (do WriteM.supply (.record r) args; let own ← WriteM.takeArguments r; k own : WriteM α) st =
          (Pass.ofExcept (r.own args) >>= k) { st with typing := ⟨st.typing.scopes, cells⟩ } := by
  obtain ⟨cells, h, hq⟩ := Typing.take_supply hq hr args
  refine ⟨cells, hq, fun k => ?_⟩
  show (Pass.ofExcept ((st.typing.supply (.record r) args).take r).1 >>= k : WriteM α)
    { st with typing := ((st.typing.supply (.record r) args).take r).2 } = _
  rw [h]

theorem ReadM.supply_takeArguments (hr : r ∈ rs) (args : List ConcreteType) {st : ReadState}
    (hq : st.typing.cells.Quiet rs) :
    ∃ cells : ArgumentCells, cells.Quiet rs ∧
      ∀ k : Option Resolution → ReadM α,
        (do ReadM.supply (.record r) args; let own ← ReadM.takeArguments r; k own : ReadM α) st =
          (Pass.ofExcept (r.own args) >>= k) { st with typing := ⟨st.typing.scopes, cells⟩ } := by
  obtain ⟨cells, h, hq⟩ := Typing.take_supply hq hr args
  refine ⟨cells, hq, fun k => ?_⟩
  show (Pass.ofExcept ((st.typing.supply (.record r) args).take r).1 >>= k : ReadM α)
    { st with typing := ((st.typing.supply (.record r) args).take r).2 } = _
  rw [h]

end GraphCodec
