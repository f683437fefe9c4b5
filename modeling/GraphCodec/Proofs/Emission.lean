import GraphCodec.Proofs.Cycles
import GraphCodec.Proofs.Direct
import GraphCodec.Proofs.FieldTypes

/-!
# Writing — what stands in an output

Where objects keep their identity, an output is a list of `Token`s: type tags, markers and items.
`Emits seen spots tokens seen'` says which tokens stand for a list of `Spot`s when the objects of
`seen` have been numbered before.  A spot that is no object is a token of its own.  An object that
has a number is the marker for the number and nothing else; a new one gets the next number, and the
spots of its fields, in the order of the declaration, come between its marker and the next spot.
That is the order of a depth-first walk.

* `Emits.nodup`, `Emits.count_new`: each object has one number, with one marker of a new object.
* `Emits.code_le`: how great the markers are.
* `Emits.mem_iff`: the objects that have a number are those below the value.
-/

namespace GraphCodec

/-! ### Tokens and spots -/

/-- What stands in an output, one after the other. -/
inductive Token
  /-- A type tag. -/
  | tag (n : Nat)
  | marker (m : Marker)
  | item (i : Item)
  deriving DecidableEq

namespace Output

/-- Adds a token at the end. -/
def put (out : Output) : Token → Output
  | .tag n => out.writeVarint n
  | .marker m => out.writeVarint m.code
  | .item i => out.write i

/-- Adds tokens at the end. -/
def spell (out : Output) (tokens : List Token) : Output := tokens.foldl put out

@[simp] theorem spell_nil (out : Output) : out.spell [] = out := rfl

@[simp] theorem spell_cons (out : Output) (t : Token) (tokens : List Token) :
    out.spell (t :: tokens) = (out.put t).spell tokens := rfl

@[simp] theorem spell_append (out : Output) (tokens tokens' : List Token) :
    out.spell (tokens ++ tokens') = (out.spell tokens).spell tokens' :=
  List.foldl_append

end Output

/-- What has its place in the output. -/
inductive Spot
  | tag (n : Nat)
  /-- Null in the place of an object. -/
  | null
  | item (i : Item)
  /-- An object with its type arguments, inside the scopes in force. -/
  | object (o : ObjectId) (args : List ConcreteType) (scopes : ScopeStack)

namespace Spot

/-- The token for what is not an object. -/
def token? : Spot → Option Token
  | tag n => some (.tag n)
  | null => some (.marker .null)
  | item i => some (.item i)
  | object .. => none

/-- The object in this spot. -/
def object? : Spot → Option ObjectId
  | object o _ _ => some o
  | _ => none

end Spot

namespace Value

/-- The item for a value of a built-in type. -/
def item? : Value → Option Item
  | .bool b => some (.bool b)
  | .int n => some (.varI32 n false)
  | .long n => some (.varI64 n false)
  | .float bits => some (.f32 bits)
  | .double bits => some (.f64 bits)
  | .str s => some (.str s)
  | .null | .object _ => none

/-- The spots of a value that is not null, behind what tells that it is not. -/
def spots (args : List ConcreteType) (scopes : ScopeStack) : Value → List Spot
  | .object o => [.object o args scopes]
  | v => (v.item?.map Spot.item).toList

end Value

/-- The spots of a value in a frame. -/
def Frame.spots (f : Frame) (scopes : ScopeStack) (v : Value) : List Spot :=
  if v.isNull then [if f.type.isReference then .null else .item (.bool false)]
  else
    (if f.nullable && !f.type.isReference then [.item (.bool true)] else []) ++
      v.spots f.args scopes

/-- Nothing stands in front of a value that is not null where null cannot stand. -/
theorem Frame.spots_of_typeOf {f : Frame} (hf : f.nullable = false) {h : Heap} {v : Value}
    {t : ValueType} (hv : h.typeOf v = some t) (scopes : ScopeStack) :
    f.spots scopes v = v.spots f.args scopes := by
  cases v with
  | null => cases hv
  | _ => simp [spots, hf, Value.isNull]

namespace Codec

/-- The spots of a value behind its type tag. -/
def taggedSpots (c : Codec) (h : Heap) (scopes : ScopeStack) (v : Value) : List Spot :=
  match h.typeOf v with
  | none => [.tag 0]
  | some t => ((c.number? t).map fun n => Spot.tag (n + 1)).toList ++ v.spots [] scopes

/-- The spots of the value of a field as planned. -/
def plannedSpots (c : Codec) (h : Heap) (e : FieldEntry) (scopes : ScopeStack) (v : Value) :
    Plan → List Spot
  | .dynamic => c.taggedSpots h scopes v
  | .known f => f.spots scopes v
  | .int =>
    (if e.nullable then [.item (.bool !v.isNull)] else []) ++
      match v with
      | .int n => [.item (if e.varInt then .varI32 n e.optimizePositive else .i32 n)]
      | _ => []
  | .long =>
    (if e.nullable then [.item (.bool !v.isNull)] else []) ++
      match v with
      | .long n => [.item (if e.varInt then .varI64 n e.optimizePositive else .i64 n)]
      | _ => []

end Codec

/-- A value that is not null is of the type of the plan, if there is one. -/
def Plan.Fits (h : Heap) (v : Value) (p : Plan) : Prop :=
  ∀ t, p.type? = some t → v = .null ∨ h.typeOf v = some t

namespace Codec

open Pass

variable {c : Codec} {rs : List RecordSerializer} {h : Heap}

/-- The spots of one field of an object, under what the object's own arguments bind. -/
def FieldSpots (c : Codec) (h : Heap) (r : RecordSerializer) (own : Option TypeScope)
    (scopes : ScopeStack) (o : ObjectId) (e : FieldEntry) (spots : List Spot) : Prop :=
  ∃ v p, (h.get o).slots[e.slot.index]? = some v ∧
    e.plan c (r.fieldType own scopes e) = .ok p ∧ p.Fits h v ∧
    spots = c.plannedSpots h e scopes v p

/-- The spots of the written fields of an object, in their order. -/
def Opens (c : Codec) (h : Heap) (o : ObjectId) (args : List ConcreteType) (scopes : ScopeStack)
    (spots : List Spot) : Prop :=
  ∃ r own fields, c.record (.object (h.get o).owner) = .ok r ∧ r.bindings args = .ok own ∧
    List.Forall₂ (c.FieldSpots h r own (scopes.enter own) o)
      (r.entries.filter FieldEntryOf.serialized) fields ∧
    spots = fields.flatten

/-! ### Depth-first order -/

/-- After the objects of `seen`, the spots are written as the tokens, which leaves the objects of
the last list numbered in its order. -/
inductive Emits (c : Codec) (h : Heap) :
    List ObjectId → List Spot → List Token → List ObjectId → Prop
  | nil {seen} : Emits c h seen [] [] seen
  | token {seen rest ts seen' s t} (hs : Spot.token? s = some t)
      (hrest : Emits c h seen rest ts seen') : Emits c h seen (s :: rest) (t :: ts) seen'
  | known {seen rest ts seen' o args scopes} {n : Nat} (ho : seen[n]? = some o)
      (hrest : Emits c h seen rest ts seen') :
      Emits c h seen (.object o args scopes :: rest) (.marker (.known n) :: ts) seen'
  | new {seen seen₁ seen' rest fields ts ts' o args scopes} (ho : o ∉ seen)
      (hopens : c.Opens h o args scopes fields) (hfields : Emits c h (seen ++ [o]) fields ts seen₁)
      (hrest : Emits c h seen₁ rest ts' seen') :
      Emits c h seen (.object o args scopes :: rest) (.marker .new :: (ts ++ ts')) seen'

namespace Emits

variable {seen seen' seen'' : List ObjectId} {spots spots' : List Spot} {ts ts' : List Token}

theorem append (h₁ : c.Emits h seen spots ts seen') (h₂ : c.Emits h seen' spots' ts' seen'') :
    c.Emits h seen (spots ++ spots') (ts ++ ts') seen'' := by
  induction h₁ with
  | nil => exact h₂
  | token hs _ ih => exact .token hs (ih h₂)
  | known ho _ ih => exact .known ho (ih h₂)
  | new ho hopens hfields _ _ ih =>
      rw [List.cons_append, List.cons_append, List.append_assoc]
      exact .new ho hopens hfields (ih h₂)

/-- Numbers that were given out stay. -/
theorem seen_prefix (he : c.Emits h seen spots ts seen') : seen <+: seen' := by
  induction he with
  | nil => exact List.prefix_rfl
  | token _ _ ih => exact ih
  | known _ _ ih => exact ih
  | new _ _ _ _ ih₁ ih₂ => exact ((List.prefix_append _ _).trans ih₁).trans ih₂

/-- No object gets two numbers. -/
theorem nodup (he : c.Emits h seen spots ts seen') (hseen : seen.Nodup) : seen'.Nodup := by
  induction he with
  | nil => exact hseen
  | token _ _ ih => exact ih hseen
  | known _ _ ih => exact ih hseen
  | new ho _ _ _ ih₁ ih₂ => exact ih₂ (ih₁ (by simpa using hseen.concat ho))

/-- For each number that is given out there is one marker of a new object. -/
theorem count_new (he : c.Emits h seen spots ts seen') :
    seen'.length = seen.length + ts.count (.marker .new) := by
  induction he with
  | nil => simp
  | @token _ _ _ _ s _ hs _ ih =>
      rw [ih, List.count_cons_of_ne]
      cases s <;> cases hs <;> simp
  | known _ _ ih => simpa using ih
  | new _ _ _ _ ih₁ ih₂ =>
      rw [ih₂, ih₁]
      simp only [List.length_append, List.length_singleton, List.count_cons_self, List.count_append]
      omega

/-- A marker is no greater than it takes for the objects that are numbered in the end. -/
theorem code_le (he : c.Emits h seen spots ts seen') :
    ∀ t ∈ ts, ∀ m, t = .marker m → m.code ≤ seen'.length + 1 := by
  induction he with
  | nil => exact nofun
  | @token _ _ _ _ s _ hs _ ih =>
      refine List.forall_mem_cons.mpr ⟨?_, ih⟩
      rintro m rfl
      cases s <;> cases hs
      exact Nat.zero_le _
  | known ho hrest ih =>
      refine List.forall_mem_cons.mpr ⟨?_, ih⟩
      rintro _ ⟨⟩
      have hlt := (List.getElem?_eq_some_iff.mp ho).1
      exact Nat.succ_le_succ (hlt.trans_le hrest.seen_prefix.length_le)
  | new _ _ _ hrest ih₁ ih₂ =>
      have hle := hrest.seen_prefix.length_le
      refine List.forall_mem_cons.mpr ⟨?_, List.forall_mem_append.mpr ⟨fun t ht m hm => ?_, ih₂⟩⟩
      · rintro _ ⟨⟩
        exact Nat.le_add_left 1 _
      · exact (ih₁ t ht m hm).trans (Nat.succ_le_succ hle)

/-- No more objects are numbered than those that the spots lead to. -/
theorem seen_sub {S : ObjectId → Prop} (he : c.Emits h seen spots ts seen')
    (hS : ∀ o args scopes fields, S o → c.Opens h o args scopes fields →
      ∀ s ∈ fields, ∀ p, s.object? = some p → S p)
    (hspots : ∀ s ∈ spots, ∀ p, s.object? = some p → S p) :
    ∀ o ∈ seen', o ∈ seen ∨ S o := by
  induction he with
  | nil => exact fun _ => .inl
  | token _ _ ih => exact ih (List.forall_mem_cons.mp hspots).2
  | known _ _ ih => exact ih (List.forall_mem_cons.mp hspots).2
  | @new seen _ _ _ _ _ _ o _ _ _ hopens _ _ ih₁ ih₂ =>
      obtain ⟨ho, hrest⟩ := List.forall_mem_cons.mp hspots
      have ho := ho o rfl
      intro p hp
      rcases ih₂ hrest p hp with hp | hp
      · rcases ih₁ (hS _ _ _ _ ho hopens) p hp with hp | hp
        · rcases List.mem_append.mp hp with hp | hp
          · exact .inl hp
          · exact .inr (List.mem_singleton.mp hp ▸ ho)
        · exact .inr hp
      · exact .inr hp

/-- The object of each spot has a number in the end. -/
theorem mem_of_spot (he : c.Emits h seen spots ts seen') :
    ∀ s ∈ spots, ∀ o, s.object? = some o → o ∈ seen' := by
  induction he with
  | nil => exact nofun
  | @token _ _ _ _ s _ hs _ ih =>
      refine List.forall_mem_cons.mpr ⟨fun o ho => ?_, ih⟩
      cases s <;> cases hs <;> cases ho
  | known ho hrest ih =>
      refine List.forall_mem_cons.mpr ⟨?_, ih⟩
      rintro _ ⟨⟩
      exact hrest.seen_prefix.subset (List.mem_of_getElem? ho)
  | new _ _ hfields hrest _ ih =>
      refine List.forall_mem_cons.mpr ⟨?_, ih⟩
      rintro _ ⟨⟩
      exact hrest.seen_prefix.subset (hfields.seen_prefix.subset (by simp))

/-- Where an object gets a number, its fields are among the spots. -/
theorem opens_of_mem (he : c.Emits h seen spots ts seen') :
    ∀ o ∈ seen', o ∈ seen ∨ ∃ args scopes fields, c.Opens h o args scopes fields ∧
      ∀ s ∈ fields, ∀ p, s.object? = some p → p ∈ seen' := by
  induction he with
  | nil => exact fun _ => .inl
  | token _ _ ih => exact ih
  | known _ _ ih => exact ih
  | @new _ seen₁ seen' _ _ _ _ o _ _ _ hopens hfields hrest ih₁ ih₂ =>
      have hsub : ∀ p ∈ seen₁, p ∈ seen' := fun p hp => hrest.seen_prefix.subset hp
      intro p hp
      rcases ih₂ p hp with hp | hp
      · rcases ih₁ p hp with hp | ⟨args, scopes, fields, hopens', hin⟩
        · rcases List.mem_append.mp hp with hp | hp
          · exact .inl hp
          · obtain rfl := List.mem_singleton.mp hp
            exact .inr ⟨_, _, _, hopens, fun s hs q hq => hsub q (hfields.mem_of_spot s hs q hq)⟩
        · exact .inr ⟨args, scopes, fields, hopens', fun s hs q hq => hsub q (hin s hs q hq)⟩
      · exact .inr hp

end Emits

/-! ### The spots of a value -/

theorem object?_of_mem_spots (args : List ConcreteType) (scopes : ScopeStack) {v : Value}
    {o : ObjectId} : (∃ s ∈ v.spots args scopes, s.object? = some o) ↔ v = .object o := by
  cases v <;> simp [Value.spots, Value.item?, Spot.object?]

theorem object?_of_mem_taggedSpots {v : Value} {scopes : ScopeStack} {o : ObjectId} :
    (∃ s ∈ c.taggedSpots h scopes v, s.object? = some o) ↔ v = .object o := by
  rw [← object?_of_mem_spots [] scopes]
  cases ht : h.typeOf v with
  | none =>
      cases v with
      | null => simp [taggedSpots, Heap.typeOf, Value.spots, Value.item?, Spot.object?]
      | _ => cases ht
  | some t =>
      simp only [taggedSpots, ht]
      cases c.number? t <;> simp [Spot.object?]

/-- No object stands where a value of a built-in type is required. -/
theorem not_object_of_fits {t : ValueType} (ht : t.isReference = false) {v : Value}
    (hv : v = .null ∨ h.typeOf v = some t) (o : ObjectId) : v ≠ .object o := by
  rintro rfl
  rcases hv with hv | hv <;> cases hv
  cases ht

/-- The object of a field is in a spot of the field, and there is no other. -/
theorem object?_of_mem_plannedSpots {e : FieldEntry} {scopes : ScopeStack} {v : Value} {p : Plan}
    (hp : p.Fits h v) {o : ObjectId} :
    (∃ s ∈ c.plannedSpots h e scopes v p, s.object? = some o) ↔ v = .object o := by
  have hpresence : ∀ s ∈ (if e.nullable then [Spot.item (.bool !v.isNull)] else []),
      s.object? = none := by
    split <;> simp [Spot.object?]
  cases p with
  | dynamic => exact object?_of_mem_taggedSpots
  | known f =>
      rw [← object?_of_mem_spots f.args scopes]
      simp only [plannedSpots, Frame.spots]
      cases v <;> cases f.nullable <;> cases f.type.isReference <;>
        simp [Value.isNull, Value.spots, Value.item?, Spot.object?]
  | int =>
      have hv := not_object_of_fits rfl (hp .int rfl)
      cases v <;> simp_all [plannedSpots, Spot.object?]
  | long =>
      have hv := not_object_of_fits rfl (hp .long rfl)
      cases v <;> simp_all [plannedSpots, Spot.object?]

/-- The objects in the spots of an object are those that it leads to. -/
theorem Opens.leads_iff {o : ObjectId} {args : List ConcreteType} {scopes : ScopeStack}
    {spots : List Spot} (ho : c.Opens h o args scopes spots) {p : ObjectId} :
    (∃ s ∈ spots, s.object? = some p) ↔ h.Leads c.writtenSlots o p := by
  obtain ⟨r, own, fields, hr, -, hfields, rfl⟩ := ho
  constructor
  · rintro ⟨s, hs, hp⟩
    obtain ⟨part, hpart, hs⟩ := List.mem_flatten.mp hs
    obtain ⟨e, he, v, plan, hv, -, hfits, rfl⟩ := exists_mem_of_forall₂ hfields.flip hpart
    obtain rfl := (object?_of_mem_plannedSpots hfits).mp ⟨s, hs, hp⟩
    obtain ⟨he, hs⟩ := List.mem_filter.mp he
    exact ⟨e.slot.index, ⟨r, hr, e, he, hs, rfl⟩, hv⟩
  · rintro ⟨i, ⟨r', hr', e, he, hs, rfl⟩, hv⟩
    obtain rfl := Except.ok.inj (hr.symm.trans hr')
    obtain ⟨part, hpart, v, plan, hv', -, hfits, rfl⟩ :=
      exists_mem_of_forall₂ hfields (List.mem_filter.mpr ⟨he, hs⟩)
    obtain rfl := Option.some.inj (hv.symm.trans hv')
    obtain ⟨s, hs, hp⟩ := (object?_of_mem_plannedSpots hfits).mpr rfl
    exact ⟨s, List.mem_flatten.mpr ⟨_, hpart, hs⟩, hp⟩

/-- **The objects that are numbered are those below the value.** -/
theorem Emits.mem_iff {v : Value} {root : List Spot} {ts : List Token} {seen : List ObjectId}
    (he : c.Emits h [] root ts seen)
    (hroot : ∀ o, (∃ s ∈ root, s.object? = some o) ↔ v = .object o) (o : ObjectId) :
    o ∈ seen ↔ h.Reach c.writtenSlots v o := by
  constructor
  · intro ho
    refine (he.seen_sub (S := h.Reach c.writtenSlots v) ?_ ?_ o ho).resolve_left List.not_mem_nil
    · intro p args scopes fields hp hopens s hs q hq
      obtain ⟨i, hi, hv⟩ := hopens.leads_iff.mp ⟨s, hs, hq⟩
      exact .step hp hi hv
    · exact fun s hs p hp => .root ((hroot p).mp ⟨s, hs, hp⟩)
  · intro ho
    refine Heap.reach_sub (fun p hp i hi w hw q hq => ?_) (fun p hp => ?_) ho
    · rcases he.opens_of_mem p hp with hp | ⟨args, scopes, fields, hopens, hin⟩
      · cases hp
      · obtain ⟨s, hs, hs'⟩ := hopens.leads_iff.mpr ⟨i, hi, hq ▸ hw⟩
        exact hin s hs q hs'
    · obtain ⟨s, hs, hs'⟩ := (hroot p).mpr hp
      exact he.mem_of_spot s hs p hs'

end Codec

end GraphCodec
