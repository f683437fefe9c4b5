import GraphCodec.Proofs.Standard

/-!
# Writing — what is written depends on the written part of the graph

Two values whose written parts are isomorphic are written as the same bytes, or fail to be written
for the same reason (`writeValue_of_isomorphism`).  What the slots hold that are not written, the
numbers of the objects, and what earlier passes left in the codec have no influence, on failures no
more than on bytes.
-/

namespace GraphCodec

namespace Codec

/-- **What is written depends on the written part of the graph only.**  The two codecs were set up
alike, and `f` relates the objects below the two values. -/
theorem writeValue_of_isomorphism {c k : Codec} (hc : c.Standard) (hk : k.Standard)
    (hck : c.Alike k) {h h' : Heap} {v v' : Value} {f : ObjectId → ObjectId}
    (hf : Heap.Isomorphism c.writtenSlots h v c.writtenSlots h' v' f) (out : Output) :
    ((c.writeValue h out v).result ≠ .error .tooDeep ∧
      (k.writeValue h' out v').result = (c.writeValue h out v).result ∧
      (k.writeValue h' out v').output = (c.writeValue h out v).output) ∧
    ∀ args, (c.writeUntagged h out v args).result ≠ .error .tooDeep ∧
      (k.writeUntagged h' out v' args).result = (c.writeUntagged h out v args).result ∧
      (k.writeUntagged h' out v' args).output = (c.writeUntagged h out v args).output := by
  obtain ⟨rs, hc⟩ := hc.lists
  obtain ⟨_, hk⟩ := hk.lists
  have hk := hc.of_alike hk hck
  obtain ⟨cells, rfl⟩ := hck
  obtain rfl := hf.root
  have hv := h.within_reach c.writtenSlots v
  -- the second codec differs from the first one in its cells only, which no walk looks at
  refine ⟨?_, ?_⟩
  · have h := relates_writeValue hc hf.renames hv
    rw [← writeFramed_withCells c cells h'] at h
    exact (runWrite_of_relates hc.quiet hk.quiet out h).1
  · intro args
    have h := relates_writeUntagged hc hf.renames hv args
    rw [← writeFramed_withCells c cells h'] at h
    exact (runWrite_of_relates hc.quiet hk.quiet out h).1

/-- A link to itself, written twice: the second time from another heap, with another note. -/
theorem writeValue_links :
    let h : Heap := ⟨#[⟨link, [.object 0, .int 5]⟩]⟩
    let h' : Heap := ⟨#[⟨link, [.null, .null]⟩, ⟨link, [.object 1, .str "other"]⟩]⟩
    let once := links.writeValue h .empty (.object 0)
    let twice := once.codec.writeValue h' .empty (.object 1)
    once.output.bytes = #[7, 1, 2] ∧ twice.output = once.output := by
  refine ⟨by decide +kernel, ?_⟩
  have hiso : Heap.Isomorphism links.writtenSlots ⟨#[⟨link, [.object 0, .int 5]⟩]⟩ (.object 0)
      links.writtenSlots ⟨#[⟨link, [.null, .null]⟩, ⟨link, [.object 1, .str "other"]⟩]⟩
      (.object 1) (fun _ => 1) := by
    have hreach : ∀ p, Heap.Reach ⟨#[⟨link, [.null, .null]⟩, ⟨link, [.object 1, .str "other"]⟩]⟩
        links.writtenSlots (.object 1) p ↔ p = 1 := fun p =>
      Heap.reach_loop (by simp [Heap.get, Value.Within])
    refine ⟨rfl, ?_, ?_, ?_, ?_⟩ <;> simp only [reach_links, hreach, Set.ofPred_eq_eq_singleton]
    · exact ⟨fun _ _ => rfl, Set.injOn_singleton _ _, by simp [Set.SurjOn]⟩
    · rintro _ rfl
      rfl
    · rintro _ rfl
      rfl
    · rintro _ rfl i hi
      obtain rfl := writtenSlots_links.mp hi
      rfl
  exact (writeValue_of_isomorphism standard_links (standard_links.writeValue _ _ _)
    (alike_runWrite _ _ _) hiso .empty).1.2.2

end Codec

end GraphCodec
