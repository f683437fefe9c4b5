import GraphCodec.Codec.Basic

/-!
# Codecs — setting up

Classes and types are registered, and what is registered can be changed afterwards. Registering a
type again replaces its serializer and keeps its number. A change of the ambient context gives a
new field table to every record serializer that can be configured and whose context differs; so
does a change of its options.

* `types_place`: a registration takes the place of the one of its type, or comes last.
* `registration?_register`: what registering does to look-up.
-/

namespace GraphCodec

/-- How the serializer of a new class is chosen. -/
inductive ClassPlan (ν : Type)
  /-- No serializer can be made. -/
  | refuse
  /-- A record serializer with the options of the codec. -/
  | standard
  | configured (options : FieldOptions)
  /-- A record serializer with hooks; the options are those of the codec where none are given. -/
  | hooked (hooks : Hooks ν) (options : Option FieldOptions)
  /-- Any serializer; it cannot be configured afterwards. -/
  | custom (spec : SerializerSpec ν)

namespace Codec

/-- A record serializer for a known class, with a cell of its own. -/
def buildRecord (c : Codec) (owner : ClassId) (options : FieldOptions)
    (hooks : Option (Hooks Value)) : Except CodecError (RecordSerializer × Codec) := do
  let d ← (c.classDecl owner).mapError .config
  let (cell, cells) := c.cells.alloc
  return (.make d options c.context hooks cell, { c with cells := cells })

/-- The serializer that is asked for. -/
def build (c : Codec) : SerializerSpec Value → Except CodecError (Serializer × Codec)
  | .stock s => .ok (.stock s, c)
  | .record owner options hooks => do
    let (r, c) ← c.buildRecord owner (options.getD c.options) hooks
    return (.record r, c)
  | .catching inner => do
    let (s, c) ← c.build inner
    return (.catching s, c)
  | .orNew inner => do
    let (s, c) ← c.build inner
    return (.orNew s, c)

/-- Puts a registration in the place of the one of its type, or at the end. -/
def place (r : Registration) : List Registration → List Registration
  | [] => [r]
  | r' :: rest => if r'.type = r.type then r :: rest else r' :: place r rest

theorem types_place (r : Registration) (l : List Registration) :
    (place r l).map Registration.type =
      if r.type ∈ l.map Registration.type then l.map Registration.type
      else l.map Registration.type ++ [r.type] := by
  induction l with
  | nil => simp [place]
  | cons r' rest ih =>
    by_cases h : r'.type = r.type
    · simp [place, h]
    · have h' : r.type ≠ r'.type := fun e => h e.symm
      simp only [place, h, if_false, List.map_cons, ih, List.mem_cons, h', false_or]
      split <;> simp

theorem find_place (r : Registration) (t : ValueType) (l : List Registration) :
    (place r l).find? (fun r' => r'.type = t) =
      if r.type = t then some r else l.find? fun r' => r'.type = t := by
  induction l with
  | nil =>
    by_cases h : r.type = t <;> simp [place, h]
  | cons r' rest ih =>
    by_cases h : r'.type = r.type
    · by_cases ht : r.type = t <;> simp [place, h, ht]
    · by_cases ht : r'.type = t
      · subst ht
        simp [place, h, Ne.symm h]
      · simp [place, h, ht, ih]

/-- Gives a type a serializer. -/
def register (c : Codec) (r : Registration) : Codec :=
  { c with registrations := place r c.registrations }

theorem registration?_register (c : Codec) (r : Registration) (t : ValueType) :
    (c.register r).registration? t = if r.type = t then some r else c.registration? t :=
  find_place r t c.registrations

/-- Gives a type the serializer that is asked for; the answer is the number of the type. -/
def registerSpec (c : Codec) (t : ValueType) (spec : SerializerSpec Value) :
    Except CodecError (Nat × Codec) := do
  let (s, c) ← c.build spec
  let c := c.register ⟨t, s, spec.isExposed⟩
  return ((c.number? t).getD 0, c)

/-- The serializer of a new class, and whether it can be configured afterwards. -/
def buildPlan (c : Codec) (owner : ClassId) :
    ClassPlan Value → Except CodecError (Serializer × Bool × Codec)
  | .refuse => .error (.construction owner "no serializer")
  | .standard => do
    let (r, c) ← c.buildRecord owner c.options none
    return (.record r, true, c)
  | .configured options => do
    let (r, c) ← c.buildRecord owner options none
    return (.record r, true, c)
  | .hooked hooks options => do
    let (r, c) ← c.buildRecord owner (options.getD c.options) (some hooks)
    return (.record r, true, c)
  | .custom spec => do
    let (s, c) ← c.build spec
    return (s, false, c)

/-- Adds a class to the catalog and registers it as a type. If no serializer can be made for it,
the class stays in the catalog all the same. The answer is the number of the type. -/
def registerClass (c : Codec) (d : ClassDecl) (plan : ClassPlan Value) :
    Except CodecError Nat × Codec :=
  match c.catalog.register d with
  | .error e => (.error (.config (.catalog e)), c)
  | .ok catalog =>
    let c := { c with catalog := catalog }
    match c.buildPlan d.id plan with
    | .error e => (.error e, c)
    | .ok (s, exposed, c) =>
      let c := c.register ⟨d.type, s, exposed⟩
      (.ok ((c.number? d.type).getD 0), c)

/-! ## Registered record serializers -/

/-- The registered record serializer of a type, if it can be configured. -/
def record (c : Codec) (t : ValueType) : Except ConfigError RecordSerializer :=
  match c.registration? t with
  | none => .error (.unregisteredType t)
  | some ⟨_, .record r, true⟩ => .ok r
  | some _ => .error (.unexpectedSerializer t)

/-- The registered record serializer of a type, if it can be configured and has no hooks. -/
def plainRecord (c : Codec) (t : ValueType) : Except ConfigError RecordSerializer := do
  let r ← c.record t
  if r.hooks.isSome then throw (.unexpectedSerializer t)
  return r

/-- Fails unless a type is registered with this serializer of the stock, open to configuration. -/
def expectStock (c : Codec) (t : ValueType) (s : Stock) : Except ConfigError Unit :=
  match c.registration? t with
  | none => .error (.unregisteredType t)
  | some ⟨_, .stock s', true⟩ => if s' = s then .ok () else .error (.unexpectedSerializer t)
  | some _ => .error (.unexpectedSerializer t)

/-- Puts a record serializer in the place of the one registered for a type. -/
def putRecord (c : Codec) (t : ValueType) (r : RecordSerializer) : Codec :=
  c.register ⟨t, .record r, true⟩

/-- Changes the field table of a record serializer so that its cached resolution no longer fits. -/
def reshape (c : Codec) (t : ValueType) (r : RecordSerializer) : Codec :=
  let c := c.putRecord t r
  { c with cells := c.cells.invalidate r.cell }

/-- Applies settings to a field of a registered class; the answer is the new entry. -/
def configureField (c : Codec) (owner : ClassId) (name : String)
    (settings : FieldSettings Serializer) : Except ConfigError (FieldEntry × Codec) := do
  let r ← c.record (.object owner)
  let e ← r.entry name
  return (settings.apply e,
    c.putRecord (.object owner) (r.mapEntries (FieldTable.modify name settings.apply)))

/-- Takes a field out of the field table of a registered class; the answer is its entry and the
record serializer without it. -/
def removeField (c : Codec) (owner : ClassId) (name : String) :
    Except ConfigError (FieldEntry × RecordSerializer × Codec) := do
  let r ← c.record (.object owner)
  let e ← r.entry name
  let r := r.mapEntries fun t => FieldTable.remove t name
  return (e, r, c.reshape (.object owner) r)

/-- Takes every field that meets a condition out of the field table of a registered class. -/
def removeFields (c : Codec) (owner : ClassId) (condition : FieldEntry → Bool) :
    Except ConfigError (RecordSerializer × Codec) := do
  let r ← c.record (.object owner)
  let r := r.mapEntries (List.filter fun e => !condition e)
  return (r, c.reshape (.object owner) r)

/-- Gives other options to the record serializer of a registered class. -/
def setOptions (c : Codec) (owner : ClassId) (options : FieldOptions) :
    Except ConfigError (RecordSerializer × Codec) := do
  let r ← c.record (.object owner)
  let r := r.withOptions options
  return (r, c.reshape (.object owner) r)

/-! ## Settings for all passes -/

/-- The record serializer of a registration for which a change of the ambient context matters. One
that cannot be configured keeps the field table it was made with. -/
def affected? (context : Table String String) (r : Registration) : Option RecordSerializer :=
  match r with
  | ⟨_, .record s, true⟩ => if s.context.sameEntries context then none else some s
  | _ => none

/-- A registration after a change of the ambient context. -/
def follow (context : Table String String) (r : Registration) : Registration :=
  match affected? context r with
  | some s => { r with serializer := .record (s.withContext context) }
  | none => r

/-- Replaces the ambient context. -/
def setContext (c : Codec) (context : Table String String) : Codec :=
  { c with
    context := context
    registrations := c.registrations.map (follow context)
    cells := (c.registrations.filterMap (affected? context)).foldl
      (fun cells s => cells.invalidate s.cell) c.cells }

/-- Gives other options to the record serializers for which none will be given. -/
def setDefaults (c : Codec) (options : FieldOptions) : Codec := { c with options := options }

/-- Lets objects keep their identity, or not. -/
def setReferences (c : Codec) (on : Bool) : Codec := { c with references := on }

/-- Leaves type arguments for the next object that the serializer of a type writes or reads. -/
def supply (c : Codec) (t : ValueType) (args : List ConcreteType) : Except ConfigError Codec := do
  let s ← c.serializer t
  return { c with cells := s.supply args c.cells }

end Codec

end GraphCodec
