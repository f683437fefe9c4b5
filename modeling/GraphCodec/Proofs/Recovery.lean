import GraphCodec.Proofs.Unfolding

/-!
# Round trip — with references or without them

Reading takes exactly the bytes off the input that writing has added to an output, with a type tag
in front of the value or without one, whether objects keep their identity or not: what comes back is
an isomorphic graph in the one case, and the tree that the graph unfolds to in the other
(`Portable.returns`).  The graph must be one that can be made again, and its numbers and lengths
must fit the words in which they are read (`Portable`).
-/

namespace GraphCodec.Codec

open Pass

/-- What is below the value can be made again: its objects are of constructible classes and have the
number of slots that their class was registered with, and what is written of them fits the words in
which it is read. -/
structure Portable (c : Codec) (h : Heap) (v : Value) : Prop where
  makes : ∀ o, h.Reach c.writtenSlots v o → ∀ r, c.record (.object (h.get o).owner) = .ok r →
    r.decl.constructible = true
  size : ∀ o, h.Reach c.writtenSlots v o → ∀ r, c.record (.object (h.get o).owner) = .ok r →
    (h.get o).slots.length = r.decl.fields.length
  tags : c.registrations.length < 2 ^ 32
  markers : c.references = true → {o | h.Reach c.writtenSlots v o}.encard + 1 < 2 ^ 32
  strings : ∀ s, h.Holds c.writtenSlots v (.str s) → s.utf8ByteSize < 2 ^ 64

/-- The pass has given `w` for `v`: an isomorphic graph where objects keep their identity, else the
tree that `v` unfolds to. -/
def Recovers (c : Codec) (h : Heap) (v : Value) (g : Heap) (was : WasRead) (w : Value) : Prop :=
  if c.references then ∃ f, c.Restores h v g was w f else ∃ f, c.Unfolds h v g was w f

/-- What was written for `v`, if writing has ended well, is read back, and what follows it is
left. -/
def Returns (c : Codec) (h : Heap) (v : Value) (out : Output) (written : Written)
    (read : Nat → Heap → Input → WasRead) : Prop :=
  written.result = .ok () →
    ∃ bytes, written.output.bytes.toList = out.bytes.toList ++ bytes ∧
      ∀ depth, writeDepth h ≤ depth → ∀ g position rest,
        (read depth g ⟨position, bytes ++ rest⟩).input = ⟨position + bytes.length, rest⟩ ∧
        ∃ w, c.Recovers h v g (read depth g ⟨position, bytes ++ rest⟩) w

variable {c k : Codec} {rs : List RecordSerializer} {h : Heap} {v : Value}

theorem Recovers.result {g : Heap} {was : WasRead} {w : Value} (hw : c.Recovers h v g was w) :
    was.result = .ok w := by
  unfold Recovers at hw
  split at hw
  · obtain ⟨f, hf⟩ := hw
    exact hf.result
  · obtain ⟨f, hf⟩ := hw
    exact hf.result

theorem ReadsBack.returns (hr : c.references = false) {out : Output} {written : Written}
    {read : Nat → Heap → Input → WasRead} (hback : c.ReadsBack h v out written read) :
    c.Returns h v out written read := by
  simp only [Returns, Recovers, hr]
  exact hback

theorem Portable.fits (hp : c.Portable h v) (hr : c.references = true) : c.Fits h v :=
  ⟨hp.tags, hp.markers hr, hp.strings⟩

/-- An object that leads to itself at most, and holds no text, can be made again if its class
can. -/
theorem portable_of_loop {o : ObjectId} (hloop : ∀ w ∈ (h.get o).slots, w.Within (· = o))
    (htext : ∀ s, Value.str s ∉ (h.get o).slots) (htags : c.registrations.length < 2 ^ 32)
    (hrecord : ∀ r, c.record (.object (h.get o).owner) = .ok r →
      r.decl.constructible = true ∧ (h.get o).slots.length = r.decl.fields.length) :
    c.Portable h (.object o) := by
  have hreach : ∀ {p}, h.Reach c.writtenSlots (.object o) p ↔ p = o := Heap.reach_loop hloop
  refine ⟨fun p hp r hr => ?_, fun p hp r hr => ?_, htags, fun _ => ?_, ?_⟩
  · obtain rfl := hreach.mp hp
    exact (hrecord r hr).1
  · obtain rfl := hreach.mp hp
    exact (hrecord r hr).2
  · simp only [hreach, Set.ofPred_eq_eq_singleton, Set.encard_singleton]
    exact_mod_cast (by decide : 1 + 1 < 2 ^ 32)
  · rintro s (hs | ⟨p, i, hp, -, hs⟩)
    · cases hs
    · obtain rfl := hreach.mp hp
      exact absurd (List.mem_of_getElem? hs) (htext s)

/-- Where objects have numbers, what is carried is read back as an isomorphic graph. -/
theorem Portable.returns_of_carries (hp : c.Portable h v) (hc : c.Lists rs)
    (hr : c.references = true) {cells : ArgumentCells} (hk : cells.Quiet rs) {m : WriteM Unit}
    {m' : Nat → ReadM Value}
    (hm : ∀ depth, writeDepth h ≤ depth →
      (c.imaging rs h (h.Holds c.writtenSlots v)).Carries v m (m' depth)) (out : Output) :
    c.Returns h v out (c.runWrite out m) fun depth g input =>
      (c.withCells cells).runRead g input (m' depth) := by
  intro hw
  rcases hrun : m ⟨out, .empty, [], ⟨.empty, c.cells⟩⟩ with ⟨x, wst⟩
  rw [runWrite_of_run hrun] at hw ⊢
  obtain rfl : x = .ok () := hw
  have hsound : WriteState.Sound rs (h.Holds c.writtenSlots v)
      ⟨out, .empty, [], ⟨.empty, c.cells⟩⟩ := ⟨hc.quiet, List.nodup_nil, List.forall_mem_nil _⟩
  -- the bytes are those of the writer, and do not depend on the depth of the reader
  obtain ⟨bytes, hb, -⟩ := hm _ le_rfl _ hsound _ _ hrun
  refine ⟨bytes, hb, fun depth hd g position rest => ?_⟩
  obtain ⟨bytes', hb', hw', hread⟩ := hm depth hd _ hsound _ _ hrun
  obtain rfl := List.append_cancel_left (hb.symm.trans hb')
  obtain ⟨w, rst, hrun', hi, hdone⟩ := hread g.size
    ⟨⟨position, bytes ++ rest⟩, g, .empty, ⟨.empty, cells⟩⟩ ⟨rfl, hk, rfl, rfl⟩ position rest rfl
  have hwas : (c.withCells cells).runRead g ⟨position, bytes ++ rest⟩ (m' depth) =
      ⟨.ok w, rst.input, rst.heap, { c with cells := rst.typing.cells }⟩ := runRead_of_run hrun'
  simp only [hwas, Recovers, hr, if_true]
  refine ⟨hi, w, _, hdone.restores hc rfl (fun o ho => ?_) hp.size _⟩
  exact Heap.holds_object.mp (hw'.within o ho)

/-- What was written is read back, with a type tag or without one, whatever type arguments go with
it. -/
theorem Portable.returns (hp : c.Portable h v) (hc : c.Standard) (hk : k.Standard)
    (hck : c.Alike k) (out : Output) :
    c.Returns h v out (c.writeValue h out v) k.readValue ∧
      ∀ t args, h.typeOf v = some t →
        c.Returns h v out (c.writeUntagged h out v args) fun depth g input =>
          k.readUntagged depth g input t args := by
  obtain ⟨rs, hc⟩ := hc.lists
  obtain ⟨_, hk⟩ := hk.lists
  have hk := hc.of_alike hk hck
  obtain ⟨cells, rfl⟩ := hck
  -- the reader's codec differs from the writer's in its cells only
  have hcells : ∀ depth, (c.withCells cells).readFramed depth = c.readFramed depth :=
    readFramed_withCells c cells
  cases hr : c.references with
  | true =>
      have hV := (hp.fits hr).readable hp.makes hp.size
      have hframed : ∀ depth, writeDepth h ≤ depth → ∀ f w, Served rs f.type f.serializer →
          h.Holds c.writtenSlots v w → (c.imaging rs h (h.Holds c.writtenSlots v)).Carries w
            (c.writeFramed h (writeDepth h) f w) (c.readFramed depth f) :=
        fun depth hd => echoes_framed hc hV hr hd
      refine ⟨?_, fun t args ht => ?_⟩
      · have h := hp.returns_of_carries hc hr hk.quiet (fun depth hd =>
          Following.carries_tagged hc hV.toLegible (hframed depth hd) (.inl rfl)) out
        simp only [← hcells] at h
        exact h
      · have h := hp.returns_of_carries hc hr hk.quiet (fun depth hd =>
          Following.carries_flat hc (hframed depth hd) (.inl rfl) ht args) out
        simp only [← hcells] at h
        exact h
  | false =>
      have hV := legible_holds hp.makes hp.size hp.tags hp.strings
      have hframed : ∀ depth, writeDepth h ≤ depth → ∀ f w, Served rs f.type f.serializer →
          h.Holds c.writtenSlots v w → (c.unrolling rs h).Carries w
            (c.writeFramed h (writeDepth h) f w) (c.readFramed depth f) :=
        fun depth hd => unrolls_framed hc hV hr hd
      refine ⟨?_, fun t args ht => ?_⟩
      · have h := readsBack_of_carries hp.size hc hk.quiet (fun depth hd =>
          Following.carries_tagged hc hV (hframed depth hd) (.inl rfl)) out
        simp only [← hcells] at h
        exact h.returns hr
      · have h := readsBack_of_carries hp.size hc hk.quiet (fun depth hd =>
          Following.carries_flat hc (hframed depth hd) (.inl rfl) ht args) out
        simp only [← hcells] at h
        exact h.returns hr

end GraphCodec.Codec
