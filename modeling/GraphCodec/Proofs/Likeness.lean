import GraphCodec.Proofs.Cloning

/-!
# Copying — a copy is written like its original

Where all fields that are written are copied too, writing cannot tell a copy from its original: it
gives the same bytes for both, or the same error (`write_copy`).  The objects below the original,
along the copied slots, are a closed set for the written ones, and on it the copy is a renaming;
that a copy has slots of its own, and that the two share what is not written, does not show.
-/

namespace GraphCodec

/-- Along fewer slots an isomorphism is still a renaming. -/
theorem Heap.Isomorphism.renames_of_sub {sel fewer sel' : Selection} {h h' : Heap} {v v' : Value}
    {f : ObjectId → ObjectId} (hf : Isomorphism sel h v sel' h' v' f)
    (hsub : ∀ owner i, fewer owner i → sel owner i) :
    Renames fewer (h.Reach sel v) f h h' :=
  ⟨fun o ho i hi => h.closed_reach sel v o ho i (hsub _ i hi), hf.bijective.injOn, hf.owner,
    fun o ho i hi => hf.slots o ho i (hsub _ i hi)⟩

/-- Objects that two heaps have in common keep their names. -/
theorem Heap.renames_id_of_eq {sel : Selection} {S : ObjectId → Prop} {h h' : Heap}
    (hclosed : h.Closed sel S) (heq : ∀ o, S o → h'.get o = h.get o) : Renames sel S id h h' := by
  refine ⟨hclosed, Set.injOn_id _, fun o ho => by rw [id, heq o ho], fun o ho i _ => ?_⟩
  rw [id, heq o ho, show Value.rename id = id from funext Value.rename_id, Option.map_id, id]

namespace Codec

open Pass

variable {c k : Codec} {h h' : Heap} {S : ObjectId → Prop} {f : ObjectId → ObjectId} {v : Value}

/-- Two codecs that were set up alike write a value and its renaming alike. -/
theorem write_rename (hc : c.Standard) (hk : k.Standard) (hck : c.Alike k)
    (hf : Heap.Renames c.writtenSlots S f h h') (hv : v.Within S) (out : Output) :
    ((c.writeValue h out v).result ≠ .error .tooDeep ∧
      (k.writeValue h' out (v.rename f)).result = (c.writeValue h out v).result ∧
      (k.writeValue h' out (v.rename f)).output = (c.writeValue h out v).output) ∧
    ∀ args, (c.writeUntagged h out v args).result ≠ .error .tooDeep ∧
      (k.writeUntagged h' out (v.rename f) args).result = (c.writeUntagged h out v args).result ∧
      (k.writeUntagged h' out (v.rename f) args).output = (c.writeUntagged h out v args).output := by
  obtain ⟨rs, hc⟩ := hc.lists
  obtain ⟨_, hk⟩ := hk.lists
  have hk := hc.of_alike hk hck
  obtain ⟨cells, rfl⟩ := hck
  refine ⟨?_, fun args => ?_⟩
  · have h := relates_writeValue hc hf hv
    rw [← writeFramed_withCells c cells h'] at h
    exact (runWrite_of_relates hc.quiet hk.quiet out h).1
  · have h := relates_writeUntagged hc hf hv args
    rw [← writeFramed_withCells c cells h'] at h
    exact (runWrite_of_relates hc.quiet hk.quiet out h).1

/-- A copy, where there is one, is a renaming of its original. -/
theorem Lists.isomorphism_of_copy {rs : List RecordSerializer} (hc : c.Lists rs)
    (hin : ∀ o, h.Reach c.copiedSlots v o → o < h.size)
    (hsize : ∀ o, h.Reach c.copiedSlots v o → ∀ r, c.record (.object (h.get o).owner) = .ok r →
      (h.get o).slots.length = r.decl.fields.length)
    {w : Value} (hw : (c.copy h v).result = .ok w) :
    (∃ f, Heap.Isomorphism c.copiedSlots h v .all (c.copy h v).heap w f) ∧
      ∀ p < h.size, (c.copy h v).heap.get p = h.get p := by
  have hrun := meets_copy hc hin (h.closed_reach c.copiedSlots v) hsize
    (h.within_reach c.copiedSlots v)
  have hcopy : c.copy h v =
      ⟨((c.copyValue (c.copyObject (copyDepth h)) v) ⟨h, .empty⟩).1,
        ((c.copyValue (c.copyObject (copyDepth h)) v) ⟨h, .empty⟩).2.heap⟩ := rfl
  rw [hcopy] at hw ⊢
  obtain ⟨visits, hst, hg, himg⟩ := meets_ok hrun hw
  exact ⟨⟨_, (hg.isomorphism hc himg hst.within hsize).1⟩, hst.old⟩

/-- **A copy is written like its original.**  Each field that is written is copied.  Once a copy of
`v` is made, what was written for `v` before is written for `v` and for its copy alike, with a type
tag or without one and with any arguments. -/
theorem write_copy (hc : c.Standard) (hk : k.Standard) (hck : c.Alike k)
    (hfields : ∀ owner r, c.record (.object owner) = .ok r →
      ∀ e ∈ r.entries, e.serialized = true → e.copied = true)
    (hin : ∀ o, h.Reach c.copiedSlots v o → o < h.size)
    (hsize : ∀ o, h.Reach c.copiedSlots v o → ∀ r, c.record (.object (h.get o).owner) = .ok r →
      (h.get o).slots.length = r.decl.fields.length)
    {w : Value} (hw : (c.copy h v).result = .ok w) {x : Value} (hx : x = v ∨ x = w)
    (out : Output) :
    ((c.writeValue h out v).result ≠ .error .tooDeep ∧
      (k.writeValue (c.copy h v).heap out x).result = (c.writeValue h out v).result ∧
      (k.writeValue (c.copy h v).heap out x).output = (c.writeValue h out v).output) ∧
    ∀ args, (c.writeUntagged h out v args).result ≠ .error .tooDeep ∧
      (k.writeUntagged (c.copy h v).heap out x args).result =
        (c.writeUntagged h out v args).result ∧
      (k.writeUntagged (c.copy h v).heap out x args).output =
        (c.writeUntagged h out v args).output := by
  obtain ⟨rs, hlists⟩ := hc.lists
  obtain ⟨⟨f, hf⟩, hold⟩ := hlists.isomorphism_of_copy hin hsize hw
  have hsub : ∀ owner i, c.writtenSlots owner i → c.copiedSlots owner i := by
    rintro owner i ⟨r, hr, e, he, hs, rfl⟩
    exact ⟨r, hr, e, he, hfields owner r hr e he hs, rfl⟩
  have hv := h.within_reach c.copiedSlots v
  rcases hx with rfl | rfl
  · -- the original is still there, among the objects that were there before
    have hren : Heap.Renames c.writtenSlots (h.Reach c.copiedSlots x) id h (c.copy h x).heap :=
      Heap.renames_id_of_eq (hf.renames_of_sub hsub).closed fun o ho => hold o (hin o ho)
    have h := write_rename hc hk hck hren hv out
    rwa [Value.rename_id] at h
  · rw [hf.root]
    exact write_rename hc hk hck (hf.renames_of_sub hsub) hv out

/-- A link to itself and its copy. -/
theorem write_copy_links :
    let h : Heap := ⟨#[⟨link, [.object 0, .int 5]⟩]⟩
    let g := (links.copy h (.object 0)).heap
    (links.writeValue h .empty (.object 0)).output.bytes = #[7, 1, 2] ∧
      (links.writeValue g .empty (.object 1)).output =
        (links.writeValue h .empty (.object 0)).output ∧
      (links.writeUntagged g .empty (.object 1) []).output =
        (links.writeUntagged h .empty (.object 0) []).output := by
  have hfields : ∀ owner r, links.record (.object owner) = .ok r →
      ∀ e ∈ r.entries, e.serialized = true → e.copied = true := by
    intro owner r hr
    obtain rfl := eq_of_registrations (.make link .standard .empty none 0) rfl hr
    decide
  have h := write_copy standard_links standard_links (.refl _) hfields
    (h := ⟨#[⟨link, [.object 0, .int 5]⟩]⟩) (v := .object 0) (w := .object 1)
    (fun o ho => by rw [reach_links.mp ho]; decide)
    (fun o ho r hr => by
      rw [record_of_reach_links ho hr, reach_links.mp ho]
      rfl)
    (by decide +kernel) (.inr rfl) .empty
  exact ⟨by decide +kernel, h.1.2.2, (h.2 []).2.2⟩

end Codec

end GraphCodec
