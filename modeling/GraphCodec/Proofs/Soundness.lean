import GraphCodec.Proofs.Decoding
import GraphCodec.Proofs.Standard
import GraphCodec.Proofs.Strict

/-!
# Reading — types of what was read

Whatever the bytes are, a slot of an object that was read holds null only where its field lets it.
A value of another type than the one that is asked for comes of numbers only: if reading strictly
does not fail at one, then all types are right, of fields and behind type tags (`readValue_typed`).

Reading itself does not check what a number stands for, and so a slot can come to hold an object of
another class than its field declares (`not_typed`).
-/

namespace GraphCodec.Codec

open Pass

/-- `P` holds of each slot that is written, of every object below `v`. -/
def EverySlot (c : Codec) (h : Heap) (v : Value) (P : FieldEntry → Value → Prop) : Prop :=
  ∀ o, h.Reach .all v o → ∃ r, c.record (.object (h.get o).owner) = .ok r ∧
    ∀ e ∈ r.entries, e.serialized = true →
      ∃ w, (h.get o).slots[e.slot.index]? = some w ∧ P e w

variable {T : ValueType → ValueType → Prop} {base : Nat} {c : Codec} {rs : List RecordSerializer}
  {st st' : ReadState}

/-- No object is below what was read but those that were read with it. -/
theorem DecodeDone.everySlot {w : Value} (hd : c.DecodeDone T rs base st w st')
    (hbase : st.heap.size ≤ base) : c.EverySlot st'.heap w (st'.heap.Admits T base) := by
  have hdecoded : ∀ o, st'.heap.From base o → c.Decoded T base st'.heap o := fun o ho =>
    hd.decodes.made o (hbase.trans ho.1) ho.2
  have hclosed : st'.heap.Closed .all (st'.heap.From base) := by
    rintro o ho i - _ hi p rfl
    obtain ⟨r, -, hx⟩ := hdecoded o ho
    obtain ⟨e, -, -, hadmits⟩ := hx.mem_of_object hi
    exact hadmits.within p rfl
  intro o ho
  obtain ⟨r, hr, hx⟩ := hdecoded o (Heap.reach_sub hclosed hd.within ho)
  exact ⟨r, hr, fun e he hp => hx.slots e (List.mem_filter.mpr ⟨he, hp⟩)⟩

theorem EverySlot.mono {h : Heap} {v : Value} {P Q : FieldEntry → Value → Prop}
    (hP : c.EverySlot h v P) (hPQ : ∀ e w, P e w → Q e w) : c.EverySlot h v Q := by
  intro o ho
  obtain ⟨r, hr, hslots⟩ := hP o ho
  refine ⟨r, hr, fun e he hp => ?_⟩
  obtain ⟨w, hw, h⟩ := hslots e he hp
  exact ⟨w, hw, hPQ e w h⟩

/-! ### Numbers -/

theorem yields_known (hst : st.Steady rs base) (number : Nat) :
    Yields (ReadM.known number) st fun w st' =>
      st' = st ∧ ∃ o, w = .object o ∧ st.heap.From base o := by
  refine meets_bind_of_ok (get_run st) ?_
  cases ho : st.reservations.get? number with
  | none => exact trivial
  | some o =>
      refine ⟨rfl, o, rfl, hst.numbers o ?_⟩
      exact List.mem_of_getElem? (Option.join_eq_some_iff.mp ho)

theorem yields_knownAs (hst : st.Steady rs base) (t : ValueType) (number : Nat) :
    Yields (ReadM.knownAs t number) st fun w st' => st' = st ∧ ∃ o, w = .object o ∧
      st.heap.From base o ∧ st.heap.Suits (fun expected found => found = expected) t w := by
  refine meets_bind (yields_known hst number) ?_
  rintro _ st₁ ⟨rfl, o, rfl, ho⟩
  refine meets_bind_of_ok (get_run st₁) ?_
  simp only [Heap.typeOf]
  split
  · next ht => exact ⟨rfl, o, rfl, ho, _, rfl, ht⟩
  · exact trivial

/-- A number may lead to an object of any type. -/
theorem yields_readFramed (hc : c.Lists rs) (n : Nat) (f : Frame)
    (hf : Served rs f.type f.serializer) (st : ReadState) (hst : st.Steady rs base) :
    Yields (c.readFramed n f) st (c.FrameDone (fun _ _ => True) rs base st f) := by
  induction n generalizing f st with
  | zero => exact trivial
  | succ n ih =>
      rw [readFramed_succ]
      refine yields_readFrame hc (fun _ => trivial) ih ?_ hf hst
      intro t number st hst
      refine meets_mono (yields_known hst number) ?_
      rintro _ _ ⟨rfl, o, rfl, ho⟩
      exact ⟨rfl, o, rfl, ho, _, rfl, trivial⟩

/-- A number that is read strictly leads to an object of the type that is asked for. -/
theorem yields_readStrict (hc : c.Lists rs) (n : Nat) (f : Frame)
    (hf : Served rs f.type f.serializer) (st : ReadState) (hst : st.Steady rs base) :
    Yields (c.readStrict n f) st
      (c.FrameDone (fun expected found => found = expected) rs base st f) := by
  induction n generalizing f st with
  | zero => exact trivial
  | succ n ih =>
      exact yields_readFrame hc (T := fun expected found => found = expected) (fun _ => rfl) ih
        (fun t number _ hst => yields_knownAs hst t number) hf hst

/-! ### Whole passes -/

/-- What reading a value yields, when a number may stand for what `T` says. -/
theorem everySlot_of_yields (hc : c.Lists rs) {g : Heap} {input : Input}
    {nested : Frame → ReadM Value}
    (hn : ∀ f, Served rs f.type f.serializer → ∀ st, st.Steady rs g.size →
      Yields (nested f) st (c.FrameDone T rs g.size st f)) {v : Value}
    (hv : (c.runRead g input (c.readTagged nested)).result = .ok v) :
    c.EverySlot (c.runRead g input (c.readTagged nested)).heap v
      ((c.runRead g input (c.readTagged nested)).heap.Admits T g.size) := by
  have hsteady : ReadState.Steady rs g.size ⟨input, g, .empty, ⟨.empty, c.cells⟩⟩ :=
    ⟨hc.quiet, le_rfl, nofun⟩
  have hread := yields_readTagged hc hn hsteady
  simp only [Yields, Meets] at hread
  rcases hr : c.readTagged nested ⟨input, g, .empty, ⟨.empty, c.cells⟩⟩ with ⟨_ | w, st⟩ <;>
    rw [runRead_of_run hr] at hv ⊢ <;> cases hv
  rw [hr] at hread
  exact hread.everySlot le_rfl

/-- **What was read has the types that are asked for, unless a number leads elsewhere.**  Either
reading strictly and an audit of all types change nothing, and then a field of a known type holds
values of that type; or both fail, at a number of an object of another type. -/
theorem readValue_typed (hc : c.Standard) (depth : Nat) (g : Heap) (input : Input) {v : Value}
    (hv : (c.readValue depth g input).result = .ok v) :
    c.EverySlot (c.readValue depth g input).heap v (fun e w => w = .null → e.nullable = true) ∧
    ((c.readValueStrict depth g input = c.readValue depth g input ∧
      c.readValueAudited depth g input = c.readValue depth g input ∧
      c.EverySlot (c.readValue depth g input).heap v fun e w => ∀ t, e.rawType = some t →
        w ≠ .null → (c.readValue depth g input).heap.typeOf w = some t) ∨
    ∃ e, CodecError.IsMismatch e ∧
      (c.readValueStrict depth g input).result = .error (.error e) ∧
      (c.readValueAudited depth g input).result = .error (.error e)) := by
  obtain ⟨rs, hc⟩ := hc.lists
  have hquiet : ReadState.Quiet rs g ⟨input, g, .empty, ⟨.empty, c.cells⟩⟩ := ⟨hc.quiet, .refl g⟩
  have hstrict := tracks_readTagged hc (tracks_readStrict (g := g) hc depth) _ hquiet
  have haudited : c.readValueAudited depth g input = c.readValueStrict depth g input := by
    rcases tracks_readTagged hc (tracks_readAudited (g := g) hc depth) _ hquiet with
      h | ⟨_, _, _, he⟩
    · exact runRead_congr h
    · exact he.elim
  refine ⟨(everySlot_of_yields hc (yields_readFramed hc depth) hv).mono fun e w h => h.nullable, ?_⟩
  rcases hstrict with hsame | ⟨e, st, hfail, he⟩
  · -- no number leads to an object of another type
    left
    have hsame : c.readValueStrict depth g input = c.readValue depth g input :=
      runRead_congr hsame
    refine ⟨hsame, haudited.trans hsame, ?_⟩
    rw [← hsame] at hv ⊢
    refine (everySlot_of_yields hc (yields_readStrict hc depth) hv).mono fun e w h t ht hw => ?_
    obtain ⟨u, hu, rfl⟩ := h.type t ht hw
    exact hu
  · -- some number does, and reading strictly ends there
    right
    have hresult : (c.readValueStrict depth g input).result = .error (.error e) :=
      congrArg WasRead.result (runRead_of_run hfail)
    exact ⟨e, he, hresult, by rw [haudited, hresult]⟩

/-! ### A codec with two classes -/

/-- A class without fields. -/
def leaf : ClassDecl := ⟨⟨"demo::Leaf"⟩, ⟨[]⟩, [], true⟩

/-- A class whose instances hold a leaf. -/
def box : ClassDecl where
  id := ⟨"demo::Box"⟩
  params := ⟨[]⟩
  fields := [⟨"inner", .fixed leaf.type, .empty⟩]
  constructible := true

/-- A codec with these two classes. -/
def boxes : Codec := ((new.registerClass leaf .standard).2.registerClass box .standard).2

theorem standard_boxes : boxes.Standard :=
  .registerClass (.registerClass .new (by unfold ClassDecl.Unbound; decide) (.inr (.inl rfl)))
    (by unfold ClassDecl.Unbound; decide) (.inr (.inl rfl))

theorem record_boxes : boxes.record box.type = .ok (.make box .standard .empty none 1) := rfl

/-- A box with a new leaf in it. -/
theorem readValue_boxes :
    (boxes.readValue 3 .empty ⟨0, [8, 1, 1]⟩).result = .ok (.object 0) ∧
      boxes.EverySlot (boxes.readValue 3 .empty ⟨0, [8, 1, 1]⟩).heap (.object 0) fun e w =>
        ∀ t, e.rawType = some t → w ≠ .null →
          (boxes.readValue 3 .empty ⟨0, [8, 1, 1]⟩).heap.typeOf w = some t := by
  have hv : (boxes.readValue 3 .empty ⟨0, [8, 1, 1]⟩).result = .ok (.object 0) := by
    decide +kernel
  refine ⟨hv, ?_⟩
  rcases (readValue_typed standard_boxes 3 .empty ⟨0, [8, 1, 1]⟩ hv).2 with
    ⟨-, -, htypes⟩ | ⟨e, -, hstrict, -⟩
  · exact htypes
  · have hok : (boxes.readValueStrict 3 .empty ⟨0, [8, 1, 1]⟩).result = .ok (.object 0) := by
      decide +kernel
    cases hok.symm.trans hstrict

/-- **A number can lead to an object of another class**: a box that holds itself in the place of the
leaf. -/
theorem not_typed : ¬ ∀ c : Codec, c.Standard → c.references = true →
    ∀ depth g input v, (c.readValue depth g input).result = .ok v →
      c.EverySlot (c.readValue depth g input).heap v fun e w =>
        (w = .null → e.nullable = true) ∧ ∀ t, e.rawType = some t → w ≠ .null →
          (c.readValue depth g input).heap.typeOf w = some t := by
  intro h
  obtain ⟨r, hr, hslots⟩ := h boxes standard_boxes rfl 3 .empty ⟨0, [8, 1, 2]⟩ (.object 0)
    (by decide +kernel) 0 (.root rfl)
  have howner : ((boxes.readValue 3 .empty ⟨0, [8, 1, 2]⟩).heap.get 0).owner = box.id := by
    decide +kernel
  rw [howner] at hr
  obtain rfl := Except.ok.inj (record_boxes.symm.trans hr)
  obtain ⟨w, hw, -, htype⟩ := hslots _ List.mem_cons_self rfl
  -- the slot for the leaf holds the box
  have hself : ((boxes.readValue 3 .empty ⟨0, [8, 1, 2]⟩).heap.get 0).slots[0]? =
      some (.object 0) := by decide +kernel
  obtain rfl : w = .object 0 := Option.some.inj (hw.symm.trans hself)
  have hbox := congrArg (fun c => some (ValueType.object c)) howner
  exact absurd (hbox.symm.trans (htype leaf.type rfl (by simp))) (by decide)

end GraphCodec.Codec
