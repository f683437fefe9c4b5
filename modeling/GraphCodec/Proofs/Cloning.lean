import GraphCodec.Proofs.Copying
import GraphCodec.Proofs.Standard

/-!
# Copying — an isomorphic, disjoint clone

A copy succeeds exactly if the codec makes the class of every object below the value, where only
the fields that are copied count.  The copy of the value is then isomorphic to it and consists of
new objects, one for each object below the value; fields that are not copied are as in a fresh
instance.  Objects that were there before stay as they were, also when the copy fails
(`copy_isomorphism`).
-/

namespace GraphCodec.Codec

/-- **A copy is an isomorphic, disjoint clone.**  Objects below the value are in the heap, and have
the number of slots that their class was registered with. -/
theorem copy_isomorphism {c : Codec} (hc : c.Standard) {h : Heap} {v : Value}
    (hin : ∀ o, h.Reach c.copiedSlots v o → o < h.size)
    (hsize : ∀ o, h.Reach c.copiedSlots v o → ∀ r, c.record (.object (h.get o).owner) = .ok r →
      (h.get o).slots.length = r.decl.fields.length) :
    (c.copy h v).result ≠ .error .tooDeep ∧
    ((∃ w, (c.copy h v).result = .ok w) ↔
      ∀ o, h.Reach c.copiedSlots v o → c.Makes (h.get o).owner) ∧
    (∀ w, (c.copy h v).result = .ok w →
      ∃ f, Heap.Isomorphism c.copiedSlots h v .all (c.copy h v).heap w f ∧
        Set.BijOn f {o | h.Reach c.copiedSlots v o}
          {p | h.size ≤ p ∧ p < (c.copy h v).heap.size} ∧
        ∀ o, h.Reach c.copiedSlots v o →
          c.FreshElsewhere FieldEntryOf.copied ((c.copy h v).heap.get (f o))) ∧
    ∀ p < h.size, (c.copy h v).heap.get p = h.get p := by
  obtain ⟨rs, hc⟩ := hc.lists
  have hrun := meets_copy hc hin (h.closed_reach c.copiedSlots v) hsize
    (h.within_reach c.copiedSlots v)
  have hcopy : c.copy h v =
      ⟨((c.copyValue (c.copyObject (copyDepth h)) v) ⟨h, .empty⟩).1,
        ((c.copyValue (c.copyObject (copyDepth h)) v) ⟨h, .empty⟩).2.heap⟩ := rfl
  unfold Pass.Meets at hrun
  rcases hr : c.copyValue (c.copyObject (copyDepth h)) v ⟨h, .empty⟩ with ⟨e | w, st⟩ <;>
    rw [hr] at hrun hcopy <;> rw [hcopy]
  · -- the copy has met an object that is not made
    obtain ⟨hdepth, ⟨o, ho, hm⟩, hold⟩ := hrun
    refine ⟨fun he => hdepth (Except.error.inj he), ⟨?_, ?_⟩, ?_, hold⟩
    · rintro ⟨w, hw⟩
      cases hw
    · intro hall
      exact absurd (hall o ho) hm
    · intro w hw
      cases hw
  · -- all that is below the value was met, and each object met has a complete copy
    obtain ⟨visits, hst, hg, hw⟩ := hrun
    obtain ⟨hiso, hreach⟩ := hg.isomorphism hc hw hst.within hsize
    have hcomplete : ∀ o, h.Reach c.copiedSlots v o →
        c.Complete FieldEntryOf.copied h h.size visits st.heap o := fun o ho =>
      hg.made o ((hreach o).mp ho) List.not_mem_nil
    have hset : {o | h.Reach c.copiedSlots v o} = {o | o ∈ visits} := Set.ext hreach
    refine ⟨nofun, ⟨?_, fun _ => ⟨w, rfl⟩⟩, ?_, hst.old⟩
    · intro _ o ho
      obtain ⟨r, hr, hd, -⟩ := hcomplete o ho
      exact ⟨r, hr, hd⟩
    · rintro _ ⟨⟩
      exact ⟨_, hiso, hset ▸ hst.bijOn, fun o ho => (hcomplete o ho).freshElsewhere hc⟩

/-- A link to itself is copied to a link to itself. -/
theorem copy_links :
    let h : Heap := ⟨#[⟨link, [.object 0, .int 5]⟩]⟩
    (links.copy h (.object 0)).result = .ok (.object 1) ∧
      (∃ f, Heap.Isomorphism links.copiedSlots h (.object 0) .all
        (links.copy h (.object 0)).heap (.object 1) f) ∧
      (links.copy h (.object 0)).heap.get 0 = h.get 0 := by
  have hresult : (links.copy ⟨#[⟨link, [.object 0, .int 5]⟩]⟩ (.object 0)).result =
      .ok (.object 1) := by decide +kernel
  obtain ⟨-, -, hclone, hold⟩ := copy_isomorphism standard_links
    (h := ⟨#[⟨link, [.object 0, .int 5]⟩]⟩) (v := .object 0)
    (fun o ho => by rw [reach_links.mp ho]; decide)
    (fun o ho r hr => by
      rw [record_of_reach_links ho hr, reach_links.mp ho]
      rfl)
  obtain ⟨f, hiso, -⟩ := hclone _ hresult
  exact ⟨hresult, ⟨f, hiso⟩, hold 0 (by decide)⟩

end GraphCodec.Codec
