import GraphCodec.Proofs.FieldTypes
import GraphCodec.Proofs.Instances
import GraphCodec.Proofs.Reading

/-!
# Reading — what the objects that were read hold

Reading adds instances to the heap and sets their slots.  It sets no slot of an object that was
there before the value in hand was begun, so that an instance keeps what was put into it while the
values for its other fields are read.

A relation `T` between the type that is asked for and the one that is found says what may come of a
number.  Reading as it is allows any object (`T` holds of all types), and strict reading only those
of the type that is asked for (`T` is equality).  Everything else that is read has the right type in
any case, and the slots of what was read admit what they hold (`Decoded`).
-/

namespace GraphCodec

/-! ### Values -/

namespace Heap

/-- The value has a type that may be found where `t` is asked for. -/
def Suits (h : Heap) (T : ValueType → ValueType → Prop) (t : ValueType) (w : Value) : Prop :=
  ∃ u, h.typeOf w = some u ∧ T t u

/-- The objects of `h` from `base` on. -/
def From (h : Heap) (base : Nat) (o : ObjectId) : Prop := base ≤ o ∧ o < h.size

/-- The slot of the entry may hold `w`. -/
structure Admits (h : Heap) (T : ValueType → ValueType → Prop) (base : Nat) (e : FieldEntry)
    (w : Value) : Prop where
  nullable : w = .null → e.nullable = true
  type : ∀ t, e.rawType = some t → w ≠ .null → h.Suits T t w
  within : w.Within (h.From base)

variable {T : ValueType → ValueType → Prop} {base : Nat} {g h : Heap}

theorem From.mono (hw : g.Widens h) {o : ObjectId} (ho : g.From base o) : h.From base o :=
  ⟨ho.1, Nat.lt_of_lt_of_le ho.2 hw.size⟩

theorem Suits.mono (hw : g.Widens h) {t : ValueType} {w : Value} (hin : w.Within (g.From base))
    (hs : g.Suits T t w) : h.Suits T t w := by
  obtain ⟨u, hu, ht⟩ := hs
  exact ⟨u, (hw.typeOf (hin.mono fun o ho => ho.2)).trans hu, ht⟩

theorem Admits.mono (hw : g.Widens h) {e : FieldEntry} {w : Value} (ha : g.Admits T base e w) :
    h.Admits T base e w :=
  ⟨ha.nullable, fun t ht hn => (ha.type t ht hn).mono hw ha.within,
    ha.within.mono fun _ => From.mono hw⟩

end Heap

/-! ### Objects -/

namespace Codec

variable {T : ValueType → ValueType → Prop} {base : Nat} {c : Codec} {g g' g'' : Heap}

/-- Each slot of the object that is written admits what it holds, and the other ones are as in a
fresh instance. -/
def Decoded (c : Codec) (T : ValueType → ValueType → Prop) (base : Nat) (h : Heap) (o : ObjectId) :
    Prop :=
  ∃ r, c.record (.object (h.get o).owner) = .ok r ∧
    Filled (h.Admits T base) (r.entries.filter FieldEntryOf.serialized) r.decl (h.get o)

theorem Decoded.mono (hw : g.Widens g') {o : ObjectId} (ho : g'.get o = g.get o)
    (hd : c.Decoded T base g o) : c.Decoded T base g' o := by
  obtain ⟨r, hr, hx⟩ := hd
  rw [Decoded, ho]
  exact ⟨r, hr, hx.mono fun e w => Heap.Admits.mono hw⟩

/-- The objects of `g` have stayed the same, and the new ones are decoded. -/
structure Decodes (c : Codec) (T : ValueType → ValueType → Prop) (base : Nat) (g g' : Heap) :
    Prop where
  size : g.size ≤ g'.size
  kept : ∀ p < g.size, g'.get p = g.get p
  made : ∀ p, g.size ≤ p → p < g'.size → c.Decoded T base g' p

theorem Decodes.refl (g : Heap) : Decodes c T base g g :=
  ⟨le_rfl, fun _ _ => rfl, fun _ hp hlt => absurd hp (Nat.not_le.mpr hlt)⟩

theorem Decodes.widens (h : Decodes c T base g g') : g.Widens g' :=
  ⟨h.size, fun p hp => by rw [h.kept p hp]⟩

/-- The same, with one more new object: an instance of `d` that is being filled in. -/
structure Opened (c : Codec) (T : ValueType → ValueType → Prop) (base : Nat) (g : Heap)
    (d : ClassDecl) (done : FieldTable) (g' : Heap) : Prop where
  size : g.size < g'.size
  kept : ∀ p < g.size, g'.get p = g.get p
  made : ∀ p, g.size < p → p < g'.size → c.Decoded T base g' p
  filled : Filled (g'.Admits T base) done d (g'.get g.size)

variable {d : ClassDecl} {done : FieldTable}

theorem Opened.start (g : Heap) (d : ClassDecl) :
    Opened c T base g d [] (g.alloc (.fresh d)).2 := by
  refine ⟨by simp, fun p hp => Heap.get_alloc_of_lt _ hp, ?_, ?_⟩
  · intro p hp hlt
    rw [Heap.size_alloc] at hlt
    exact absurd hp (Nat.not_lt.mpr (Nat.le_of_lt_succ hlt))
  · rw [Heap.get_alloc_self]
    exact .fresh _ d

theorem Opened.nested (h₁ : Opened c T base g d done g') (h₂ : Decodes c T base g' g'') :
    Opened c T base g d done g'' := by
  refine ⟨Nat.lt_of_lt_of_le h₁.size h₂.size, ?_, ?_, ?_⟩
  · intro p hp
    rw [h₂.kept p (hp.trans h₁.size), h₁.kept p hp]
  · intro p hp hlt
    by_cases hm : p < g'.size
    · exact (h₁.made p hp hm).mono h₂.widens (h₂.kept p hm)
    · exact h₂.made p (Nat.not_lt.mp hm) hlt
  · rw [h₂.kept _ h₁.size]
    exact h₁.filled.mono fun e w => Heap.Admits.mono h₂.widens

theorem Opened.store (h₁ : Opened c T base g d done g') {e : FieldEntry}
    (he : e.slot.index < d.fields.length) (hnew : ∀ e' ∈ done, e'.slot.index ≠ e.slot.index)
    {w : Value} (hw : g'.Admits T base e w) :
    Opened c T base g d (done ++ [e]) (g'.store g.size e.slot.index w) := by
  have hwidens := Heap.Widens.store g' g.size e.slot.index w
  refine ⟨by rw [Heap.size_store]; exact h₁.size, ?_, ?_, ?_⟩
  · intro p hp
    rw [Heap.get_store_of_ne _ _ hp.ne, h₁.kept p hp]
  · intro p hp hlt
    rw [Heap.size_store] at hlt
    exact (h₁.made p hp hlt).mono hwidens (Heap.get_store_of_ne _ _ hp.ne')
  · rw [Heap.get_store_self _ _ h₁.size]
    exact (h₁.filled.set he hnew hw).mono fun e w => Heap.Admits.mono hwidens

theorem Opened.finish {r : RecordSerializer} (hr : c.record (.object r.decl.id) = .ok r)
    (h₁ : Opened c T base g r.decl (r.entries.filter FieldEntryOf.serialized) g') :
    Decodes c T base g g' := by
  refine ⟨h₁.size.le, h₁.kept, fun p hp hlt => ?_⟩
  rcases Nat.eq_or_lt_of_le hp with rfl | hp
  · refine ⟨r, ?_, h₁.filled⟩
    rw [Object.owner, h₁.filled.decl]
    exact hr
  · exact h₁.made p hp hlt

end Codec

/-! ### Passes -/

/-- The cells are quiet, and numbers stand for objects from `base` on. -/
structure ReadState.Steady (rs : List RecordSerializer) (base : Nat) (st : ReadState) : Prop where
  cells : st.typing.cells.Quiet rs
  size : base ≤ st.heap.size
  numbers : ∀ p, some p ∈ st.reservations.objects → st.heap.From base p

/-- Where the pass ends well, `Q` holds of its answer and its last state. -/
abbrev Pass.Yields {σ α : Type} (m : Pass σ α) (st : σ) (Q : α → σ → Prop) : Prop :=
  Pass.Meets m st Q fun _ _ => True

theorem Reservations.mem_assign {objects : List (Option ObjectId)} {n : Nat} {o p : ObjectId}
    (hp : some p ∈ assign objects n o) : some p ∈ objects ∨ p = o := by
  obtain ⟨m, hm⟩ := List.mem_iff_getElem?.mp hp
  simp only [assign] at hm
  rw [List.getElem?_modify] at hm
  obtain ⟨old, hold, hm⟩ := Option.map_eq_some_iff.mp hm
  by_cases hnm : n = m
  · rw [if_pos hnm] at hm
    cases old with
    | none => exact .inr (Option.some.inj hm).symm
    | some q => exact .inl (hm ▸ List.mem_of_getElem? hold)
  · rw [if_neg hnm] at hm
    exact .inl (hm ▸ List.mem_of_getElem? hold)

theorem Reservations.mem_bind {t : Reservations} {o p : ObjectId}
    (hp : some p ∈ (t.bind o).objects) : some p ∈ t.objects ∨ p = o := by
  simp only [bind] at hp
  cases hpending : t.pending with
  | nil => exact .inl (by simpa [hpending] using hp)
  | cons n rest => exact mem_assign (by simpa [hpending] using hp)

theorem Reservations.mem_finish {t : Reservations} {v : Value} {p : ObjectId}
    (hp : some p ∈ (t.finish v).objects) : some p ∈ t.objects ∨ v = .object p := by
  simp only [finish] at hp
  cases hpending : t.pending with
  | nil => exact .inl (by simpa [hpending] using hp)
  | cons n rest =>
      rw [hpending] at hp
      cases v with
      | object o => exact (mem_assign hp).imp_right fun h => by rw [h]
      | _ => exact .inl hp

namespace ReadState.Steady

variable {rs : List RecordSerializer} {base : Nat} {st : ReadState}

/-- A number that stands for nothing yet. -/
theorem reserve (hst : st.Steady rs base) :
    Steady rs base { st with reservations := st.reservations.reserve } :=
  { hst with
    numbers := by
      intro p hp
      rcases List.mem_append.mp hp with hp | hp
      · exact hst.numbers p hp
      · cases List.mem_singleton.mp hp }

/-- The innermost number comes to stand for what was read under it. -/
theorem finish (hst : st.Steady rs base) {w : Value} (hw : w.Within (st.heap.From base)) :
    Steady rs base { st with reservations := st.reservations.finish w } :=
  { hst with
    numbers := by
      intro p hp
      rcases Reservations.mem_finish hp with hp | rfl
      · exact hst.numbers p hp
      · exact hw p rfl }

/-- The innermost number comes to stand for a new object. -/
theorem bind_alloc (hst : st.Steady rs base) (x : Object) :
    Steady rs base { st with
      heap := (st.heap.alloc x).2
      reservations := st.reservations.bind st.heap.size } := by
  have hwidens := Heap.Widens.alloc st.heap x
  refine ⟨hst.cells, hst.size.trans hwidens.size, ?_⟩
  intro p hp
  rcases Reservations.mem_bind hp with hp | rfl
  · exact Heap.From.mono hwidens (hst.numbers p hp)
  · exact ⟨hst.size, by simp⟩

theorem store (hst : st.Steady rs base) (o : ObjectId) (i : Nat) (w : Value) :
    Steady rs base { st with heap := st.heap.store o i w } := by
  have hwidens := Heap.Widens.store st.heap o i w
  exact ⟨hst.cells, hst.size.trans hwidens.size, fun p hp =>
    Heap.From.mono hwidens (hst.numbers p hp)⟩

end ReadState.Steady

namespace Codec

open Pass

variable {α : Type} {T : ValueType → ValueType → Prop} {base : Nat} {c : Codec}
  {rs : List RecordSerializer} {st : ReadState}

theorem yields_ofExcept {σ : Type} {st : σ} (x : Except CodecError α) :
    Yields (Pass.ofExcept x) st fun a st' => x = .ok a ∧ st' = st := by
  cases x with
  | error e => exact trivial
  | ok a => exact ⟨rfl, rfl⟩

theorem yields_take (x : Read α) :
    Yields (ReadM.take x) st fun _ st' => ∃ i, st' = { st with input := i } := by
  simp only [Yields, Meets, ReadM.take]
  rcases x.onInput st.input with ⟨_ | a, i⟩
  · exact trivial
  · exact ⟨i, rfl⟩

theorem yields_inScope {scope : Option TypeScope} {m : ReadM α} {Q : α → ReadState → Prop}
    (hm : Yields m { st with typing := st.typing.enter scope } fun a st' =>
      Q a { st' with typing := st'.typing.leave scope }) :
    Yields (ReadM.inScope scope m) st Q := by
  simp only [Yields, Meets] at hm ⊢
  simp only [ReadM.inScope]
  rcases hr : m { st with typing := st.typing.enter scope } with ⟨_ | a, st'⟩
  · exact trivial
  · rw [hr] at hm
    exact hm

theorem yields_numbered {body : ReadM Value} {Q : Value → ReadState → Prop}
    (hb : Yields body { st with reservations := st.reservations.reserve } fun w st' =>
      Q w { st' with reservations := st'.reservations.finish w }) :
    Yields (ReadM.numbered body) st Q := by
  simp only [Yields, Meets] at hb ⊢
  simp only [ReadM.numbered]
  rcases hr : body { st with reservations := st.reservations.reserve } with ⟨_ | w, st'⟩
  · exact trivial
  · rw [hr] at hb
    exact hb

/-- How reading a value ends, from the state `st`. -/
structure DecodeDone (c : Codec) (T : ValueType → ValueType → Prop) (rs : List RecordSerializer)
    (base : Nat) (st : ReadState) (w : Value) (st' : ReadState) : Prop where
  steady : st'.Steady rs base
  decodes : c.Decodes T base st.heap st'.heap
  within : w.Within (st'.heap.From base)

/-- What was read inside a frame is null only if the frame lets it be, and else of a type that may
be found in it. -/
structure FrameDone (c : Codec) (T : ValueType → ValueType → Prop) (rs : List RecordSerializer)
    (base : Nat) (st : ReadState) (f : Frame) (w : Value) (st' : ReadState) : Prop
    extends c.DecodeDone T rs base st w st' where
  nullable : w = .null → f.nullable = true
  type : w ≠ .null → st'.heap.Suits T f.type w

/-- A state in which only the input is another one. -/
theorem DecodeDone.of_input (hst : st.Steady rs base) {w : Value} (hw : ∀ o, w ≠ .object o)
    (i : Input) :
    c.DecodeDone T rs base st w { st with input := i } :=
  ⟨{ hst with }, .refl _, fun o ho => absurd ho (hw o)⟩

/-! ### Fields -/

theorem yields_readTag (hc : c.Lists rs) :
    Yields c.readTag st fun x st' => (∃ i, st' = { st with input := i }) ∧
      ∀ r, x = some r → Served rs r.type r.serializer := by
  refine meets_bind_of_ok (get_run st) (meets_bind (yields_take _) ?_)
  rintro number _ ⟨i, rfl⟩
  cases number with
  | zero => exact ⟨⟨i, rfl⟩, nofun⟩
  | succ n =>
      simp only
      split
      · next r hr =>
        refine ⟨⟨i, rfl⟩, ?_⟩
        rintro _ ⟨⟩
        exact hc.served_of_registrationAt? hr
      · exact trivial

theorem yields_readPresence (e : FieldEntry) :
    Yields (readPresence e) st fun _ st' => ∃ i, st' = { st with input := i } := by
  simp only [readPresence]
  split
  · exact yields_take _
  · exact ⟨st.input, rfl⟩

/-- A number is of its type unless it is absent. -/
theorem yields_number {t : ValueType} (hst : st.Steady rs base) (e : FieldEntry) (r : Read α)
    (f : α → Value) (hf : ∀ (h : Heap) a, h.typeOf (f a) = some t)
    (hplain : ∀ a o, f a ≠ .object o) :
    Yields (do if ← readPresence e then return f (← ReadM.take r) else return .null) st
      fun w st' => c.DecodeDone T rs base st w st' ∧ (w ≠ .null → st'.heap.typeOf w = some t) := by
  refine meets_bind (yields_readPresence e) ?_
  rintro b _ ⟨i, rfl⟩
  cases b with
  | false => exact ⟨.of_input hst (by simp) i, fun hw => absurd rfl hw⟩
  | true =>
      refine meets_bind (yields_take _) ?_
      rintro a _ ⟨i', rfl⟩
      exact ⟨.of_input hst (hplain a) i', fun _ => hf _ a⟩

section

variable (hc : c.Lists rs) (hT : ∀ t, T t t) {nested : Frame → ReadM Value}
  (hn : ∀ f, Served rs f.type f.serializer → ∀ st, st.Steady rs base →
    Yields (nested f) st (c.FrameDone T rs base st f))
include hc hn

theorem yields_readTagged (hst : st.Steady rs base) :
    Yields (c.readTagged nested) st (c.DecodeDone T rs base st) := by
  refine meets_bind (yields_readTag hc) ?_
  rintro x _ ⟨⟨i, rfl⟩, hx⟩
  cases x with
  | none => exact .of_input hst (by simp) i
  | some r =>
      refine meets_mono (hn r.frame (hx r rfl) { st with input := i } { hst with }) ?_
      exact fun w st' h => { h with }

include hT

/-- A value is of the type of the plan, if that has one. -/
theorem yields_readPlanned {e : FieldEntry} (he : e.serializer = none)
    {resolved : Option ConcreteType} {p : Plan} (hp : e.plan c resolved = .ok p)
    (hst : st.Steady rs base) :
    Yields (c.readPlanned nested e p) st fun w st' => c.DecodeDone T rs base st w st' ∧
      ∀ t, p.type? = some t → w ≠ .null → st'.heap.Suits T t w := by
  cases p with
  | dynamic => exact meets_mono (yields_readTagged hc hn hst) fun w st' h => ⟨h, nofun⟩
  | known f =>
      refine meets_mono (hn f (hc.served_of_plan he hp).1 st hst) fun w st' h => ⟨{ h with }, ?_⟩
      rintro _ ⟨⟩ hw
      exact h.type hw
  | int =>
      refine meets_mono (yields_number hst e _ Value.int (fun _ _ => rfl) (by simp)) fun w st' h =>
        ⟨h.1, ?_⟩
      rintro _ ⟨⟩ hw
      exact ⟨.int, h.2 hw, hT _⟩
  | long =>
      refine meets_mono (yields_number hst e _ Value.long (fun _ _ => rfl) (by simp)) fun w st' h =>
        ⟨h.1, ?_⟩
      rintro _ ⟨⟩ hw
      exact ⟨.long, h.2 hw, hT _⟩

/-- One field of an instance that is being filled in. -/
theorem yields_readField {g : Heap} {r : RecordSerializer} {done : FieldTable} (hr : r ∈ rs)
    {e : FieldEntry} (he : e ∈ r.entries) (hnew : ∀ e' ∈ done, e'.slot.index ≠ e.slot.index)
    {resolved : Option ConcreteType}
    (hres : resolved = none ∨ ∃ lookup, resolved = e.type.resolve lookup)
    (hst : st.Steady rs base) (ho : c.Opened T base g r.decl done st.heap) :
    Yields (c.readField nested e g.size resolved) st fun _ st' =>
      st'.Steady rs base ∧ c.Opened T base g r.decl (done ++ [e]) st'.heap := by
  have hfollows := (hc.plain r hr).follows
  have hvalue : Yields (c.readFieldValue nested e resolved) st fun w st' =>
      c.DecodeDone T rs base st w st' ∧
        ∀ t, e.rawType = some t → w ≠ .null → st'.heap.Suits T t w := by
    rw [readFieldValue_eq]
    refine meets_bind (yields_ofExcept _) ?_
    rintro p _ ⟨hp, rfl⟩
    refine meets_mono (yields_readPlanned hc hT hn (hfollows.bare e he) hp hst) ?_
    exact fun w st' h => ⟨h.1, fun t ht =>
      h.2 t (FieldEntryOf.type?_of_rawType (hfollows.bare e he) ht hres hp)⟩
  refine meets_bind hvalue ?_
  rintro w st₁ ⟨hdone, htype⟩
  -- a null where the field has none ends the pass; any other value goes into the slot
  by_cases hnull : (w.isNull && !e.nullable) = true
  · rw [if_pos hnull]
    exact trivial
  · rw [if_neg hnull]
    have ho₁ := ho.nested hdone.decodes
    have hadmits : st₁.heap.Admits T base e w := by
      refine ⟨?_, htype, hdone.within⟩
      rintro rfl
      simpa [Value.isNull] using hnull
    obtain ⟨old, hset⟩ := ho₁.filled.set_run hfollows he w
    exact meets_of_ok (setSlot_run hset)
      ⟨hdone.steady.store _ _ _, ho₁.store (hfollows.index_lt he) hnew hadmits⟩

/-- The fields of an instance that is being filled in, from a place of the table on. -/
theorem yields_readFields {g : Heap} {r : RecordSerializer} (hr : r ∈ rs)
    {args : List ConcreteType} {own : Option Resolution} (hown : r.own args = .ok own)
    {t before : FieldTable} (ht : before ++ t = r.entries) {index : Nat}
    (hindex : index = before.length) {st : ReadState} (hst : st.Steady rs base)
    (ho : c.Opened T base g r.decl (before.filter FieldEntryOf.serialized) st.heap) :
    Yields (c.readFields nested r own g.size index t) st fun _ st' => st'.Steady rs base ∧
      c.Opened T base g r.decl (r.entries.filter FieldEntryOf.serialized) st'.heap := by
  induction t generalizing before index st with
  | nil =>
      rw [List.append_nil] at ht
      exact ⟨hst, ht ▸ ho⟩
  | cons e t ih =>
      obtain ⟨he, hrest, hnew⟩ := (hc.plain r hr).follows.split ht FieldEntryOf.serialized
      have hat : r.entries[index]? = some e := by
        rw [← ht, hindex, List.getElem?_append_right le_rfl, Nat.sub_self]
        rfl
      have hindex' : index + 1 = (before ++ [e]).length := by
        rw [hindex, List.length_append, List.length_singleton]
      simp only [readFields]
      by_cases hp : e.serialized = true
      · have hfilter : (before ++ [e]).filter FieldEntryOf.serialized =
            before.filter FieldEntryOf.serialized ++ [e] := by simp [hp]
        have hfield := yields_readField hc hT hn hr he hnew
          (RecordSerializerOf.resolved_eq hown st.typing.scopes hat) hst ho
        rw [if_pos hp]
        refine meets_bind_of_ok (get_run st)
          (meets_bind (meets_inField hfield fun _ _ _ => trivial) ?_)
        rintro _ st₁ ⟨hst₁, ho₁⟩
        exact ih hrest hindex' hst₁ (hfilter ▸ ho₁)
      · have hfilter : (before ++ [e]).filter FieldEntryOf.serialized =
            before.filter FieldEntryOf.serialized := by simp [hp]
        rw [if_neg hp]
        exact ih hrest hindex' hst (hfilter ▸ ho)

/-! ### Objects and frames -/

/-- What is read in full inside a frame. -/
theorem yields_readBody {f : Frame} (hf : Served rs f.type f.serializer)
    (hst : st.Steady rs base) :
    Yields (c.readBody nested f) st fun w st' =>
      c.DecodeDone T rs base st w st' ∧ st'.heap.Suits T f.type w := by
  obtain ⟨t, s, args, nullable⟩ := f
  cases hf with
  | stock hs =>
      refine meets_bind_of_ok (ReadM.supply_stock_run _ args st) ?_
      cases t <;> cases hs <;> refine meets_bind (yields_take _) ?_ <;> rintro a _ ⟨i, rfl⟩ <;>
        exact ⟨.of_input hst (by simp) i, _, rfl, hT _⟩
  | record hr =>
      next r =>
      obtain ⟨cells, hq, hrun⟩ := ReadM.supply_takeArguments (α := Value) hr args hst.cells
      simp only [readBody, readWith, readRecord, Yields, Meets]
      rw [hrun]
      refine meets_bind (yields_ofExcept _) ?_
      rintro own _ ⟨hown, rfl⟩
      refine yields_inScope ?_
      by_cases hd : r.decl.constructible = true
      · refine meets_bind_of_ok (readInstance_run hc hr hd _) (meets_bind_of_ok (modify_run _ _) ?_)
        refine meets_bind (yields_readFields hc hT hn hr hown (List.nil_append _) rfl
          { hst.bind_alloc (.fresh r.decl) with cells := hq } (.start st.heap r.decl)) ?_
        rintro _ st₁ ⟨hst₁, ho⟩
        refine ⟨⟨{ hst₁ with }, ho.finish (hc.record_eq hr), ?_⟩, r.decl.type, ?_, hT _⟩
        · exact Value.within_object ⟨hst.size, ho.size⟩
        · exact congrArg (fun d : ClassDecl => some d.type) ho.filled.decl
      · -- the class has no instances, so that nothing is read
        exact meets_bind_of_error ((readInstance_eq hc hr _).trans (if_neg hd)) trivial

theorem yields_readFrame {back : ValueType → Nat → ReadM Value}
    (hback : ∀ t number st, st.Steady rs base → Yields (back t number) st fun w st' =>
      st' = st ∧ ∃ o, w = .object o ∧ st.heap.From base o ∧ st.heap.Suits T t w)
    {f : Frame} (hf : Served rs f.type f.serializer) (hst : st.Steady rs base) :
    Yields (c.readFrame nested back f) st (c.FrameDone T rs base st f) := by
  have hbody : ∀ st₁ : ReadState, st₁.Steady rs base → st₁.heap = st.heap →
      Yields (c.readBody nested f) st₁ (c.FrameDone T rs base st f) := by
    intro st₁ hst₁ hheap
    refine meets_mono (yields_readBody hc hT hn hf hst₁) fun w st' h => ?_
    refine ⟨{ h.1 with decodes := hheap ▸ h.1.decodes }, ?_, fun _ => h.2⟩
    rintro rfl
    obtain ⟨_, hu, -⟩ := h.2
    cases hu
  unfold readFrame
  split
  · refine meets_bind (yields_take _) ?_
    rintro code _ ⟨i, rfl⟩
    cases Marker.ofCode code with
    | null =>
        simp only
        split
        · next hnull => exact ⟨.of_input hst (by simp) i, fun _ => hnull, fun hw => absurd rfl hw⟩
        · exact trivial
    | known number =>
        -- all that is known of an object under a number is what `back` says
        refine meets_mono (hback f.type number _ { hst with }) ?_
        rintro _ _ ⟨rfl, o, rfl, ho, hs⟩
        exact ⟨⟨{ hst with }, .refl _, Value.within_object ho⟩, nofun, fun _ => hs⟩
    | new =>
        -- while the object is read its number stands for nothing, or for the instance itself
        have hreserve : ReadState.Steady rs base
            { st with input := i, reservations := st.reservations.reserve } := { hst.reserve with }
        refine yields_numbered (meets_mono (hbody _ hreserve rfl) fun w st' h => ?_)
        exact { h with steady := h.steady.finish h.within }
  · split
    · refine meets_bind (yields_take _) ?_
      rintro b _ ⟨i, rfl⟩
      cases b with
      | true => exact hbody { st with input := i } { hst with } rfl
      | false =>
          next hnull => exact ⟨.of_input hst (by simp) i, fun _ => hnull, fun hw => absurd rfl hw⟩
    · exact hbody st hst rfl

end

end Codec

end GraphCodec
