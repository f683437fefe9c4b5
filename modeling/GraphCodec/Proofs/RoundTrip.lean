import Mathlib.Data.Set.Card
import GraphCodec.Proofs.Mirroring
import GraphCodec.Proofs.Standard

/-!
# Round trip — what was written is read back

Where objects keep their identity, reading takes exactly the bytes off the input that writing a
value has added to an output, whatever follows them, and gives a value that is isomorphic to the
written one (`readValue_writeValue`).  Fields that are not written are as in a fresh instance, and
objects that were in the reader's heap before stay as they were.

Type tags and markers are read as numbers of 32 bits and the lengths of strings as numbers of 64
bits, so that a graph must not have more objects, or a codec more types, than there are such
numbers (`Fits`).
-/

namespace GraphCodec

namespace Heap

/-- `w` is `v`, or stands in a selected slot of an object below `v`. -/
def Holds (h : Heap) (sel : Selection) (v w : Value) : Prop :=
  w = v ∨ ∃ o i, h.Reach sel v o ∧ sel (h.get o).owner i ∧ (h.get o).slots[i]? = some w

theorem holds_object {h : Heap} {sel : Selection} {v : Value} {o : ObjectId} :
    h.Holds sel v (.object o) ↔ h.Reach sel v o := by
  constructor
  · rintro (hv | ⟨p, i, hp, hi, hs⟩)
    · exact .root hv.symm
    · exact .step hp hi hs
  · rintro (hv | ⟨hp, hi, hs⟩)
    · exact .inl hv.symm
    · exact .inr ⟨_, _, hp, hi, hs⟩

end Heap

namespace Codec

/-- The numbers and lengths that are written for `v` fit the words in which they are read. -/
structure Fits (c : Codec) (h : Heap) (v : Value) : Prop where
  tags : c.registrations.length < 2 ^ 32
  markers : {o | h.Reach c.writtenSlots v o}.encard + 1 < 2 ^ 32
  strings : ∀ s, h.Holds c.writtenSlots v (.str s) → s.utf8ByteSize < 2 ^ 64

/-- All that is below a value can be read back. -/
theorem legible_holds {c : Codec} {h : Heap} {v : Value}
    (hmakes : ∀ o, h.Reach c.writtenSlots v o → ∀ r, c.record (.object (h.get o).owner) = .ok r →
      r.decl.constructible = true)
    (hsize : ∀ o, h.Reach c.writtenSlots v o → ∀ r, c.record (.object (h.get o).owner) = .ok r →
      (h.get o).slots.length = r.decl.fields.length)
    (htags : c.registrations.length < 2 ^ 32)
    (hstrings : ∀ s, h.Holds c.writtenSlots v (.str s) → s.utf8ByteSize < 2 ^ 64) :
    c.Legible h (h.Holds c.writtenSlots v) where
  closed o ho i hi _ hw := .inr ⟨o, i, Heap.holds_object.mp ho, hi, hw⟩
  makes o ho := hmakes o (Heap.holds_object.mp ho)
  size o ho := hsize o (Heap.holds_object.mp ho)
  tags := htags
  strings := hstrings

theorem Fits.readable {c : Codec} {h : Heap} {v : Value} (hf : c.Fits h v)
    (hmakes : ∀ o, h.Reach c.writtenSlots v o → ∀ r, c.record (.object (h.get o).owner) = .ok r →
      r.decl.constructible = true)
    (hsize : ∀ o, h.Reach c.writtenSlots v o → ∀ r, c.record (.object (h.get o).owner) = .ok r →
      (h.get o).slots.length = r.decl.fields.length) :
    c.Readable h (h.Holds c.writtenSlots v) where
  toLegible := legible_holds hmakes hsize hf.tags hf.strings
  numbers l hnd hl := by
    have hsub : (l.toFinset : Set ObjectId) ⊆ {o | h.Reach c.writtenSlots v o} := fun o ho =>
      Heap.holds_object.mp (hl o (by simpa using ho))
    have hle := Set.encard_le_encard hsub
    rw [Set.encard_coe_eq_coe_finsetCard, List.toFinset_card_of_nodup hnd] at hle
    exact_mod_cast (add_le_add_left hle 1).trans_lt hf.markers

/-- The pass has restored `v` as `w`: into new objects of a heap that was `g`, each with initial
values in the slots that are not written. -/
structure Restores (c : Codec) (h : Heap) (v : Value) (g : Heap) (was : WasRead) (w : Value)
    (f : ObjectId → ObjectId) : Prop where
  result : was.result = .ok w
  isomorphism : Heap.Isomorphism c.writtenSlots h v .all was.heap w f
  created : ∀ o, h.Reach c.writtenSlots v o → g.size ≤ f o
  fresh : ∀ o, h.Reach c.writtenSlots v o →
    c.FreshElsewhere FieldEntryOf.serialized (was.heap.get (f o))
  kept : ∀ p < g.size, was.heap.get p = g.get p

section

variable {c : Codec} {rs : List RecordSerializer} {h : Heap} {v : Value}

theorem ReadDone.restores (hc : c.Lists rs) {g : Heap} {rst rst' : ReadState} {wst' : WriteState}
    {w : Value} (hd : c.ReadDone rs h g.size [] rst v wst' w rst') (hg : rst.heap = g)
    (hsub : ∀ o ∈ wst'.numbering.seen, h.Reach c.writtenSlots v o)
    (hsize : ∀ o, h.Reach c.writtenSlots v o → ∀ r, c.record (.object (h.get o).owner) = .ok r →
      (h.get o).slots.length = r.decl.fields.length) (k : Codec) :
    c.Restores h v g ⟨.ok w, rst'.input, rst'.heap, k⟩ w
      fun o => g.size + wst'.numbering.seen.idxOf o := by
  obtain ⟨hiso, hreach⟩ := hd.grown.isomorphism hc hd.image hsub hsize
  refine ⟨rfl, hiso, fun o _ => Nat.le_add_right _ _, ?_, ?_⟩
  · intro o ho
    exact (hd.grown.made o ((hreach o).mp ho) List.not_mem_nil).freshElsewhere hc
  · intro p hp
    exact hg ▸ hd.grown.kept p hp

/-- **What was written is read back.**  Objects below the value are of constructible classes, and
have the number of slots that their class was registered with.  The reader's codec was set up like
the writer's, and the reader follows objects at least as deep as the writer. -/
theorem readValue_writeValue {k : Codec} (hc : c.Standard) (hk : k.Standard) (hck : c.Alike k)
    (hr : c.references = true)
    (hmakes : ∀ o, h.Reach c.writtenSlots v o → ∀ r, c.record (.object (h.get o).owner) = .ok r →
      r.decl.constructible = true)
    (hsize : ∀ o, h.Reach c.writtenSlots v o → ∀ r, c.record (.object (h.get o).owner) = .ok r →
      (h.get o).slots.length = r.decl.fields.length)
    (hfits : c.Fits h v) {out : Output} (hw : (c.writeValue h out v).result = .ok ()) :
    ∃ bytes, (c.writeValue h out v).output.bytes.toList = out.bytes.toList ++ bytes ∧
      ∀ depth, writeDepth h ≤ depth → ∀ g position rest,
        (k.readValue depth g ⟨position, bytes ++ rest⟩).input =
          ⟨position + bytes.length, rest⟩ ∧
        ∃ w f, c.Restores h v g (k.readValue depth g ⟨position, bytes ++ rest⟩) w f := by
  obtain ⟨rs, hc⟩ := hc.lists
  obtain ⟨_, hk⟩ := hk.lists
  have hk := hc.of_alike hk hck
  obtain ⟨cells, rfl⟩ := hck
  have hV := hfits.readable hmakes hsize
  have hsound : WriteState.Sound rs (h.Holds c.writtenSlots v)
      ⟨out, .empty, [], ⟨.empty, c.cells⟩⟩ := ⟨hc.quiet, List.nodup_nil, List.forall_mem_nil _⟩
  rcases hrun : c.writeTagged h (c.writeFramed h (writeDepth h)) v
    ⟨out, .empty, [], ⟨.empty, c.cells⟩⟩ with ⟨x, wst⟩
  have hwrite : c.writeValue h out v = ⟨x, wst.output, { c with cells := wst.typing.cells }⟩ :=
    runWrite_of_run hrun
  rw [hwrite] at hw ⊢
  obtain rfl : x = .ok () := hw
  -- the bytes are those of the writer, and do not depend on the depth of the reader
  have hechoes : ∀ depth, writeDepth h ≤ depth → _ := fun depth hd =>
    echoes_tagged hc hV (echoes_framed hc hV hr hd) (.inl rfl) _ hsound _ _ hrun
  obtain ⟨bytes, hb, -⟩ := hechoes _ le_rfl
  refine ⟨bytes, hb, fun depth hd g position rest => ?_⟩
  obtain ⟨bytes', hb', hw', hread⟩ := hechoes depth hd
  obtain rfl := List.append_cancel_left (hb.symm.trans hb')
  obtain ⟨w, rst', hrun', hi, hdone⟩ := hread g.size
    ⟨⟨position, bytes ++ rest⟩, g, .empty, ⟨.empty, cells⟩⟩ ⟨rfl, hk.quiet, rfl, rfl⟩ position rest
    rfl
  -- the reader's codec differs from the writer's in its cells only
  rw [← readFramed_withCells c cells] at hrun'
  have hwas : (c.withCells cells).readValue depth g ⟨position, bytes ++ rest⟩ =
      ⟨.ok w, rst'.input, rst'.heap, { c with cells := rst'.typing.cells }⟩ := runRead_of_run hrun'
  rw [hwas]
  refine ⟨hi, w, _, hdone.restores hc rfl (fun o ho => ?_) hsize _⟩
  exact Heap.holds_object.mp (hw'.within o ho)

end

/-- A link to itself is read back as a link to itself, behind the objects that are there. -/
theorem readValue_links :
    let h : Heap := ⟨#[⟨link, [.object 0, .int 5]⟩]⟩
    (links.writeValue h .empty (.object 0)).output.bytes = #[7, 1, 2] ∧
      ∃ w f, links.Restores h (.object 0) h (links.readValue 3 h ⟨0, [7, 1, 2, 9]⟩) w f := by
  have hfits : links.Fits ⟨#[⟨link, [.object 0, .int 5]⟩]⟩ (.object 0) := by
    refine ⟨by decide, ?_, ?_⟩
    · simp only [reach_links, Set.ofPred_eq_eq_singleton, Set.encard_singleton]
      exact_mod_cast (by decide : 1 + 1 < 2 ^ 32)
    · rintro s (hs | ⟨o, i, ho, hi, hs⟩)
      · cases hs
      · obtain rfl := reach_links.mp ho
        obtain rfl := writtenSlots_links.mp hi
        cases hs
  have hbytes :
      (links.writeValue ⟨#[⟨link, [.object 0, .int 5]⟩]⟩ .empty (.object 0)).output.bytes =
        #[7, 1, 2] := by decide +kernel
  have hwritten : (links.writeValue ⟨#[⟨link, [.object 0, .int 5]⟩]⟩ .empty (.object 0)).result =
      .ok () := by decide +kernel
  obtain ⟨bytes, hb, hread⟩ := readValue_writeValue standard_links standard_links (.refl _) rfl
    (fun o ho r hr => by
      rw [record_of_reach_links ho hr]
      rfl)
    (fun o ho r hr => by
      rw [record_of_reach_links ho hr, reach_links.mp ho]
      rfl)
    hfits hwritten
  rw [hbytes] at hb
  obtain rfl : [7, 1, 2] = bytes := hb
  exact ⟨hbytes, (hread 3 (by decide) _ 0 [9]).2⟩

end Codec

end GraphCodec
