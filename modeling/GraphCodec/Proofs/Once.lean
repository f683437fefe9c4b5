import GraphCodec.Proofs.Spelling

/-!
# Writing — each object once

Where objects keep their identity, a pass of writing goes through each object below the value once
(`writeValue_once`): there is one number and one marker for it, with its fields behind them.  This
is so of a pass that ends badly too.  `writeOnce` watches the writer, and fails as soon as a record
serializer is about to write an object a second time; it does what the writer does.
-/

namespace GraphCodec

namespace Codec

open Pass

variable {c : Codec} {rs : List RecordSerializer} {h : Heap}

/-! ### A second time -/

/-- Fails with `x` if the record serializer is about to write an object that was written before, and
notes down those that are.  The path has no other use where objects keep their identity. -/
def once (x : Failure) : Serializer → Value → WriteM Unit
  | .record _, .object o => fun st =>
    if o ∈ st.path then (.error x, st) else (.ok (), { st with path := o :: st.path })
  | _, _ => pure ()

/-- Writes as `writeFramed` does, but fails with `x` where an object is written a second time. -/
def writeOnce (c : Codec) (h : Heap) (x : Failure) : (depth : Nat) → Frame → Value → WriteM Unit
  | 0, _, _ => throw .tooDeep
  | depth + 1, f, v => c.writeAround h f v do
    once x f.serializer v
    c.writeBody h (c.writeOnce h x depth) f v

/-- The second writer is at the same place, and has noted down objects that have a number. -/
structure Noting (st st' : WriteState) : Prop where
  output : st'.output = st.output
  numbering : st'.numbering = st.numbering
  typing : st'.typing = st.typing
  noted : ∀ o ∈ st'.path, o ∈ st.numbering.seen

instance : WriteState.SameTyping Noting where
  scopes hst := congrArg Typing.scopes hst.typing
  output hst f := { hst with output := congrArg f hst.output }
  typing hst := hst.typing
  retype hst f := { hst with typing := congrArg f hst.typing }

/-- What has not been noted down can be. -/
theorem noting_once {o : ObjectId} (x : Failure) (s : Serializer) {st st' : WriteState}
    (hst : Noting st st') (hnew : o ∉ st'.path) (ho : o ∈ st.numbering.seen) :
    ∃ st'', once x s (.object o) st' = (.ok (), st'') ∧ Noting st st'' := by
  cases s with
  | record r =>
      exact ⟨_, if_neg hnew, { hst with noted := List.forall_mem_cons.mpr ⟨ho, hst.noted⟩ }⟩
  | _ => exact ⟨st', rfl, hst⟩

/-- **A new object has not been noted down**, and has a number from now on. -/
theorem noting_meet {o : ObjectId} (x : Failure) (s : Serializer) {m m' : WriteM Unit}
    (hm : Agrees Noting m m') :
    Agrees Noting (do let k ← WriteM.meet o; WriteM.varint k.code; if k = Marker.new then m)
      (do
        let k ← WriteM.meet o
        WriteM.varint k.code
        if k = Marker.new then do once x s (.object o); m') := by
  intro st st' hst
  by_cases ho : o ∈ st.numbering.seen
  · have hn := Numbering.number?_of_mem ho
    rw [WriteM.meet_of_known hn, WriteM.meet_of_known (by rw [hst.numbering, hn])]
    exact WriteM.agrees_varint _ st st' hst
  · rw [WriteM.meet_of_new ho, WriteM.meet_of_new (by rwa [hst.numbering]), hst.numbering]
    have hnoted : Noting
        { st with output := st.output.writeVarint 1, numbering := ⟨st.numbering.seen ++ [o]⟩ }
        { st' with output := st'.output.writeVarint 1, numbering := ⟨st.numbering.seen ++ [o]⟩ } :=
      { hst with
        output := by rw [hst.output]
        numbering := rfl
        noted := fun p hp => List.mem_append_left _ (hst.noted p hp) }
    obtain ⟨st'', hrun, hst''⟩ := noting_once x s hnoted (fun hp => ho (hst.noted o hp)) (by simp)
    have hright : (do WriteM.varint 1; once x s (.object o); m' : WriteM Unit)
        { st' with numbering := ⟨st.numbering.seen ++ [o]⟩ } = m' st'' :=
      bind_of_ok hrun _
    rw [hright]
    exact hm _ _ hst''

theorem noting_writeAround (hr : c.references = true) {f : Frame}
    (hf : Served rs f.type f.serializer) (v : Value) (x : Failure) {m m' : WriteM Unit}
    (hm : Agrees Noting m m') :
    Agrees Noting (c.writeAround h f v m)
      (c.writeAround h f v do once x f.serializer v; m') := by
  obtain ⟨t, s, args, nullable⟩ := f
  cases hf with
  | @record r hrs =>
      simp only [writeAround, hr, Bool.and_true, ValueType.isReference, if_true]
      split
      · exact noting_meet x _ hm
      · split
        · exact WriteM.agrees_varint _
        · exact agrees_fail _
  | @stock t s hs =>
      have hstock : (do once x (.stock s) v; m' : WriteM Unit) = m' := by cases v <;> rfl
      have href : t.isReference = false := ValueType.isReference_of_stock? hs
      simp only [writeAround, hstock, href, hr, Bool.false_and, Bool.false_eq_true, if_false,
        if_true]
      split
      · split
        · exact WriteM.agrees_item _
        · exact agrees_fail _
      · refine agrees_bind ?_ fun _ _ => ?_
        · split
          · exact WriteM.agrees_item _
          · exact agrees_pure _
        · split <;> exact hm

/-- **No object is written a second time**, so that nothing is ever noticed. -/
theorem noting_writeOnce (hc : c.Lists rs) (hr : c.references = true) (x : Failure) (n : Nat)
    (f : Frame) (v : Value) (hf : Served rs f.type f.serializer) :
    Agrees Noting (c.writeFramed h n f v) (c.writeOnce h x n f v) := by
  induction n generalizing f v with
  | zero => exact agrees_throw _
  | succ n ih =>
      rw [writeFramed_succ, writeOnce]
      exact noting_writeAround hr hf v x (agrees_writeBody hc ih hf v)

/-! ### Whole passes -/

theorem runWrite_of_noting {out : Output} {m m' : WriteM Unit} (hm : Agrees Noting m m') :
    c.runWrite out m' = c.runWrite out m := by
  obtain ⟨h₁, h₂⟩ := hm ⟨out, .empty, [], ⟨.empty, c.cells⟩⟩ ⟨out, .empty, [], ⟨.empty, c.cells⟩⟩
    ⟨rfl, rfl, rfl, List.forall_mem_nil _⟩
  rcases hrun : m ⟨out, .empty, [], ⟨.empty, c.cells⟩⟩ with ⟨y, st⟩
  rcases hrun' : m' ⟨out, .empty, [], ⟨.empty, c.cells⟩⟩ with ⟨y', st'⟩
  rw [hrun, hrun'] at h₁ h₂
  have h₁ : y' = y := h₁
  have hout : st'.output = st.output := h₂.output
  have htyping : st'.typing = st.typing := h₂.typing
  rw [runWrite_of_run hrun, runWrite_of_run hrun', h₁, hout, htyping]

/-- A pass of writing ends, and if it ends well, the output is what `Emits` says of the spots of the
value, with one marker of a new object for each object below the value, and no marker greater than
it takes for that many objects. -/
structure WritesOnce (c : Codec) (h : Heap) (out : Output) (v : Value) (root : List Spot)
    (w : Written) : Prop where
  ends : w.result ≠ .error .tooDeep
  emits : w.result = .ok () → ∃ ts seen, w.output = out.spell ts ∧ c.Emits h [] root ts seen ∧
    seen.Nodup ∧ ts.count (.marker .new) = seen.length ∧
    (∀ m, .marker m ∈ ts → m.code ≤ seen.length + 1) ∧
    ∀ o, o ∈ seen ↔ h.Reach c.writtenSlots v o

theorem writesOnce_of_spells {out : Output} {v : Value} {root : List Spot} {w : Written}
    {m : WriteM Unit} (hends : w.result ≠ .error .tooDeep)
    (hw : w.result = (m ⟨out, .empty, [], ⟨.empty, c.cells⟩⟩).1 ∧
      w.output = (m ⟨out, .empty, [], ⟨.empty, c.cells⟩⟩).2.output)
    (hm : c.Spells h .empty (· = root) m)
    (hroot : ∀ o, (∃ s ∈ root, s.object? = some o) ↔ v = .object o) :
    c.WritesOnce h out v root w := by
  refine ⟨hends, fun hok => ?_⟩
  rcases hrun : m ⟨out, .empty, [], ⟨.empty, c.cells⟩⟩ with ⟨e | ⟨⟩, st⟩ <;> rw [hrun] at hw
  · cases hok.symm.trans hw.1
  · obtain ⟨-, _, ts, rfl, hout, he⟩ := hm _ rfl () st hrun
    exact ⟨ts, st.numbering.seen, hw.2.trans hout, he, he.nodup List.nodup_nil,
      by simpa [Numbering.empty] using he.count_new.symm, fun m hm => he.code_le _ hm m rfl,
      he.mem_iff hroot⟩

/-- **Each object is written once.**  A pass of writing ends, and no record serializer ever writes
an object that was written before, whether the pass ends well or not.  If it does, then each object
below the value has been numbered in depth-first order, with its fields behind its marker, and has
been no more than its number afterwards; up to `2 ^ 32 - 2` objects have markers of 32 bits.  The
fields of an object come in the order in which its class declares them. -/
theorem writeValue_once (hc : c.Standard) (hr : c.references = true) (h : Heap) (out : Output)
    (v : Value) (args : List ConcreteType) :
    c.WritesOnce h out v (c.taggedSpots h .empty v) (c.writeValue h out v) ∧
      c.WritesOnce h out v (v.spots args .empty) (c.writeUntagged h out v args) ∧
      (∀ x, c.runWrite out (c.writeTagged h (c.writeOnce h x (writeDepth h)) v) =
        c.writeValue h out v) ∧
      (∀ x, c.runWrite out (c.writeFlat h (c.writeOnce h x (writeDepth h)) v args) =
        c.writeUntagged h out v args) ∧
      ∀ owner r, c.record (.object owner) = .ok r →
        r.entries.Pairwise fun e e' => e.slot.index < e'.slot.index := by
  obtain ⟨rs, hc⟩ := hc.lists
  have hspells := spells_writeDirect (h := h) hc hr (writeDepth h) .empty
  have honce : ∀ x f w, Served rs f.type f.serializer → Agrees Noting
      (c.writeFramed h (writeDepth h) f w) (c.writeOnce h x (writeDepth h) f w) :=
    fun x => noting_writeOnce hc hr x (writeDepth h)
  refine ⟨?_, ?_, fun x => ?_, fun x => ?_, fun owner r hrec => ?_⟩
  · exact writesOnce_of_spells (hc.writeValue_ends h out v) (hc.writeValue_direct h out v)
      (spells_writeTagged hc hspells v) fun o => object?_of_mem_taggedSpots
  · exact writesOnce_of_spells (hc.writeUntagged_ends h out v args)
      (hc.writeUntagged_direct h out v args) (spells_writeFlat hc hspells v args)
      fun o => object?_of_mem_spots _ _
  · exact runWrite_of_noting (agrees_writeTagged hc (honce x) v)
  · exact runWrite_of_noting (agrees_writeFlat hc (honce x) v args)
  · exact (hc.plain r (hc.mem_of_record hrec).1).follows.increasing

/-- Two links that lead to each other: behind the tag there are two new objects, the second of which
leads to the first one by its number. -/
theorem writeValue_once_links :
    let h : Heap := ⟨#[⟨link, [.object 1, .int 5]⟩, ⟨link, [.object 0, .int 5]⟩]⟩
    let w := links.writeValue h .empty (.object 0)
    w.result = .ok () ∧ w.output.bytes.toList = [7, 1, 1, 2] ∧
      links.WritesOnce h .empty (.object 0) (links.taggedSpots h .empty (.object 0)) w := by
  intro h w
  exact ⟨by decide +kernel, by decide +kernel,
    (writeValue_once standard_links rfl h .empty (.object 0) []).1⟩

end Codec

end GraphCodec
