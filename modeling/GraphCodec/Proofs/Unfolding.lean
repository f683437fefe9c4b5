import GraphCodec.Proofs.Following
import GraphCodec.Proofs.RoundTrip
import GraphCodec.Proofs.Trees

/-!
# Unfolding — what was written is read back as a tree

Where objects do not keep their identity, an object is written in full for every way that leads to
it, and the reader makes an instance of it each time.  Reading takes exactly the bytes off the input
that writing a value has added to an output, whatever follows them, and gives the tree that the
graph below the value unfolds to (`read_unfolding`).  This holds with a type tag in front of the
value, and without one of a value whose type is known, whatever type arguments go with it.
-/

namespace GraphCodec

/-- Both sides are in the same scopes. -/
structure ReadState.Beside (rs : List RecordSerializer) (wst : WriteState) (rst : ReadState) :
    Prop where
  scopes : rst.typing.scopes = wst.typing.scopes
  quiet : rst.typing.cells.Quiet rs

namespace Codec

open Pass

variable {c : Codec} {rs : List RecordSerializer} {h : Heap} {V : Value → Prop} {v : Value}

/-- The reader makes a tree, and what is known is what the instances that are there were made
for. -/
def unrolling (c : Codec) (rs : List RecordSerializer) (h : Heap) :
    Following rs (ObjectId → ObjectId) where
  writer wst := wst.typing.cells.Quiet rs
  beside _ wst rst := rst.Beside rs wst
  done f _ rst v wst' w rst' := rst'.Beside rs wst' ∧
    ∃ f', c.Unrolled FieldEntryOf.serialized h v f rst.heap w f' rst'.heap
  quiet hw := hw
  writer_output _ hw := hw
  writer_typing _ hq _ := hq
  beside_bytes _ _ hr := { hr with }
  done_plain hv hr := ⟨hr, _, .refl hv _ _⟩
  done_bytes _ _ hd := hd

/-- The instance that is made for `o`.  What is known is the heap in which it is put, and what the
instances there were made for. -/
def unrollingStages {r : RecordSerializer} (hc : c.Lists rs) (hr : r ∈ rs) (o : ObjectId) :
    (c.unrolling rs h).Stages h o r ((ObjectId → ObjectId) × Heap) where
  place j := j.2.size
  filled j done wst rst := rst.Beside rs wst ∧
    ∃ f', c.Unrolling FieldEntryOf.serialized h o r.decl j.1 j.2 done f' rst.heap
  scopes hfill := hfill.1.scopes
  field := by
    rintro ⟨f, g⟩ done wst rst e v he hnew hv ⟨hb, f', hfill⟩
    refine ⟨f', hb, ?_⟩
    rintro wst' w rst' - ⟨hb', f'', hw⟩
    have hfollows := (hc.plain r hr).follows
    have hfilled := hfill.filled
    rw [← hw.kept _ hfill.grows] at hfilled
    obtain ⟨old, hset⟩ := hfilled.set_run hfollows he w
    refine ⟨by rw [hw.eq, Value.isNull_rename], old, _, hset, { hb' with }, f'', ?_⟩
    exact hfill.graft hw (hfollows.index_lt he) hnew hv

theorem unrolls_onPath {o : ObjectId} (owner : ClassId) {m : WriteM Unit} {m' : ReadM Value}
    (hm : (c.unrolling rs h).Carries v m m') :
    (c.unrolling rs h).Carries v (WriteM.onPath o owner m) m' := by
  intro wst hw
  refine appends_onPath (appends_mono (hm { wst with path := o :: wst.path } hw) ?_)
  rintro _ wst' bytes ⟨hw', hread⟩
  refine ⟨hw', fun f rst hb => replays_mono (hread f rst { hb with }) ?_⟩
  rintro w rst' ⟨hb', hdone⟩
  exact ⟨{ hb' with }, hdone⟩

section

variable (hc : c.Lists rs) (hV : c.Legible h V)
include hc hV

theorem unrolls_body {nested : Frame → Value → WriteM Unit} {nested' : Frame → ReadM Value}
    (hn : ∀ f v, Served rs f.type f.serializer → V v →
      (c.unrolling rs h).Carries v (nested f v) (nested' f))
    {f : Frame} (hf : Served rs f.type f.serializer) (hv : V v) :
    (c.unrolling rs h).Carries v (c.writeBody h nested f v) (c.readBody nested' f) := by
  obtain ⟨t, s, args, nullable⟩ := f
  cases hf with
  | stock hs =>
      have ht : t.isReference = false := ValueType.isReference_of_stock? hs
      exact Following.carries_plain (.stock hs) ht (fun s he => hV.strings s (he ▸ hv)) _ _
  | record hr =>
      next r =>
      intro wst hw
      refine appends_mono (Following.appends_record hc hV hn (unrollingStages hc hr) hr rfl hv hw)
        ?_
      rintro _ _ bytes ⟨o, rfl, hrec, cells, scope, wst₁, hw₁, rfl, hread⟩
      refine ⟨hw₁, fun f rst hb => ?_⟩
      -- the instance is put behind the others, and filled in
      refine replays_mono (hread ⟨f, rst.heap⟩ rst hb.quiet rfl fun cells' hq' =>
        ⟨⟨congrArg (ScopeStack.enter · scope) hb.scopes, hq'⟩, _, .start f rst.heap o r.decl⟩) ?_
      rintro _ _ ⟨rfl, rst₁, ⟨hb₁, f', hfill⟩, rfl⟩
      exact ⟨⟨congrArg (ScopeStack.leave · scope) hb₁.scopes, hb₁.quiet⟩, f',
        hfill.finish hrec (hV.makes o hv r hrec)⟩

/-- The walk itself: the reader goes as deep as the writer did. -/
theorem unrolls_framed (hr : c.references = false) {n m : Nat} (hle : n ≤ m) (f : Frame)
    (v : Value) (hf : Served rs f.type f.serializer) (hv : V v) :
    (c.unrolling rs h).Carries v (c.writeFramed h n f v) (c.readFramed m f) := by
  induction n generalizing m f v with
  | zero =>
      -- a writer without depth ends with a failure, and there is nothing to read back
      intro wst _ _ _ hrun
      cases hrun
  | succ n ih =>
      obtain ⟨m, rfl⟩ : ∃ k, m = k + 1 := ⟨m - 1, by omega⟩
      have hn : ∀ f v, Served rs f.type f.serializer → V v →
          (c.unrolling rs h).Carries v (c.writeFramed h n f v) (c.readFramed m f) := ih (by omega)
      have hm : (f.type.isReference && c.references) = false := by rw [hr, Bool.and_false]
      refine Following.carries_unmarked hm fun _ => ?_
      have hbody := unrolls_body hc hV hn hf hv
      rw [hr]
      cases v with
      | object o => exact unrolls_onPath _ hbody
      | _ => exact hbody

end

/-! ### Whole passes -/

/-- The pass has unfolded `v` into the tree `w`: new objects of a heap that was `g`, each with
initial values in the slots that are not written. -/
structure Unfolds (c : Codec) (h : Heap) (v : Value) (g : Heap) (was : WasRead) (w : Value)
    (f : ObjectId → ObjectId) : Prop where
  result : was.result = .ok w
  unfolding : Heap.Unfolding c.writtenSlots h v was.heap w f
  created : ∀ p, was.heap.Reach .all w p → g.size ≤ p
  fresh : ∀ p, was.heap.Reach .all w p → c.FreshElsewhere FieldEntryOf.serialized (was.heap.get p)
  kept : ∀ p < g.size, was.heap.get p = g.get p

/-- What was written for `v` is read back as the tree that `v` unfolds to, if writing has ended
well: reading takes off what was written, and leaves what follows it. -/
def ReadsBack (c : Codec) (h : Heap) (v : Value) (out : Output) (written : Written)
    (read : Nat → Heap → Input → WasRead) : Prop :=
  written.result = .ok () →
    ∃ bytes, written.output.bytes.toList = out.bytes.toList ++ bytes ∧
      ∀ depth, writeDepth h ≤ depth → ∀ g position rest,
        (read depth g ⟨position, bytes ++ rest⟩).input = ⟨position + bytes.length, rest⟩ ∧
        ∃ w f, c.Unfolds h v g (read depth g ⟨position, bytes ++ rest⟩) w f

section

variable {cells : ArgumentCells}
  (hsize : ∀ o, h.Reach c.writtenSlots v o → ∀ r, c.record (.object (h.get o).owner) = .ok r →
    (h.get o).slots.length = r.decl.fields.length)
include hsize

theorem readsBack_of_carries (hc : c.Lists rs) (hk : cells.Quiet rs) {m : WriteM Unit}
    {m' : Nat → ReadM Value}
    (hm : ∀ depth, writeDepth h ≤ depth → (c.unrolling rs h).Carries v m (m' depth))
    (out : Output) :
    c.ReadsBack h v out (c.runWrite out m) fun depth g input =>
      (c.withCells cells).runRead g input (m' depth) := by
  intro hw
  rcases hrun : m ⟨out, .empty, [], ⟨.empty, c.cells⟩⟩ with ⟨x, wst⟩
  rw [runWrite_of_run hrun] at hw ⊢
  obtain rfl : x = .ok () := hw
  have hquiet : (c.unrolling rs h).writer ⟨out, .empty, [], ⟨.empty, c.cells⟩⟩ := hc.quiet
  -- the bytes are those of the writer, and do not depend on the depth of the reader
  obtain ⟨bytes, hb, -⟩ := hm _ le_rfl _ hquiet _ _ hrun
  refine ⟨bytes, hb, fun depth hd g position rest => ?_⟩
  obtain ⟨bytes', hb', -, hread⟩ := hm depth hd _ hquiet _ _ hrun
  obtain rfl := List.append_cancel_left (hb.symm.trans hb')
  obtain ⟨w, rst, hrun', hi, -, f, htree⟩ := hread id
    ⟨⟨position, bytes ++ rest⟩, g, .empty, ⟨.empty, cells⟩⟩ ⟨rfl, hk⟩ position rest rfl
  have hwas : (c.withCells cells).runRead g ⟨position, bytes ++ rest⟩ (m' depth) =
      ⟨.ok w, rst.input, rst.heap, { c with cells := rst.typing.cells }⟩ := runRead_of_run hrun'
  simp only [hwas]
  refine ⟨hi, w, f, rfl, htree.unfolding hc hsize, ?_, ?_, htree.kept⟩
  · exact fun p hp => (htree.between_of_reach hp).1
  · exact fun p hp => Made.freshElsewhere hc (htree.made_of_reach hp)

/-- **Without references, what was written is read back as a tree.**  Objects below the value are
of constructible classes, and have the number of slots that their class was registered with.  The
reader's codec was set up like the writer's, and the reader follows objects at least as deep as the
writer. -/
theorem read_unfolding {k : Codec} (hc : c.Standard) (hk : k.Standard) (hck : c.Alike k)
    (hr : c.references = false)
    (hmakes : ∀ o, h.Reach c.writtenSlots v o → ∀ r, c.record (.object (h.get o).owner) = .ok r →
      r.decl.constructible = true)
    (htags : c.registrations.length < 2 ^ 32)
    (hstrings : ∀ s, h.Holds c.writtenSlots v (.str s) → s.utf8ByteSize < 2 ^ 64) (out : Output) :
    c.ReadsBack h v out (c.writeValue h out v) k.readValue ∧
      ∀ t args, h.typeOf v = some t →
        c.ReadsBack h v out (c.writeUntagged h out v args) fun depth g input =>
          k.readUntagged depth g input t args := by
  obtain ⟨rs, hc⟩ := hc.lists
  obtain ⟨_, hk⟩ := hk.lists
  have hk := hc.of_alike hk hck
  obtain ⟨cells, rfl⟩ := hck
  have hV := legible_holds hmakes hsize htags hstrings
  have hframed : ∀ depth, writeDepth h ≤ depth → ∀ f w, Served rs f.type f.serializer →
      h.Holds c.writtenSlots v w →
        (c.unrolling rs h).Carries w (c.writeFramed h (writeDepth h) f w) (c.readFramed depth f) :=
    fun depth hd => unrolls_framed hc hV hr hd
  constructor
  · have hback := readsBack_of_carries hsize hc hk.quiet
      (fun depth hd => Following.carries_tagged hc hV (hframed depth hd) (.inl rfl)) out
    simp only [← readFramed_withCells c cells] at hback
    exact hback
  · intro t args ht
    have hback := readsBack_of_carries hsize hc hk.quiet
      (fun depth hd => Following.carries_flat hc (hframed depth hd) (.inl rfl) ht args) out
    simp only [← readFramed_withCells c cells] at hback
    exact hback

end

/-! ### A codec with one class -/

/-- A class whose instances lead two ways. -/
def fork : ClassDecl where
  id := ⟨"demo::Fork"⟩
  params := ⟨[]⟩
  fields :=
    [⟨"left", .fixed (.object ⟨"demo::Fork"⟩), .empty⟩,
      ⟨"right", .fixed (.object ⟨"demo::Fork"⟩), .empty⟩]
  constructible := true

/-- A codec with this class only, whose objects do not keep their identity. -/
def forks : Codec := (new.registerClass fork .standard).2.setReferences false

theorem standard_forks : forks.Standard :=
  .setReferences (.registerClass .new (by unfold ClassDecl.Unbound; decide) (.inr (.inl rfl))) false

/-- Both ways of a fork lead to the same one, of which two instances are made. -/
theorem read_unfolding_forks :
    let h : Heap := ⟨#[⟨fork, [.object 1, .object 1]⟩, ⟨fork, [.null, .null]⟩]⟩
    (forks.writeValue h .empty (.object 0)).output.bytes = #[7, 1, 0, 0, 1, 0, 0] ∧
      (forks.readValue 4 h ⟨0, [7, 1, 0, 0, 1, 0, 0, 9]⟩).heap.size = h.size + 3 ∧
      ∃ w f, forks.Unfolds h (.object 0) h (forks.readValue 4 h ⟨0, [7, 1, 0, 0, 1, 0, 0, 9]⟩) w
        f := by
  intro h
  have hrecord : forks.record fork.type = .ok (.make fork .standard .empty none 0) := rfl
  have hslots : ∀ o < 2, (h.get o).owner = fork.id ∧ (h.get o).slots.length = 2 ∧
      ∀ v ∈ (h.get o).slots, v = .null ∨ v = .object 1 := by decide
  have hreach : ∀ o, h.Reach forks.writtenSlots (.object 0) o → o < 2 := by
    intro o ho
    refine Heap.reach_sub (S := (· < 2)) ?_ (Value.within_object (by decide)) ho
    intro p hp i _ v hv x hx
    rcases (hslots p hp).2.2 v (List.mem_of_getElem? hv) with rfl | rfl
    · cases hx
    · cases hx
      decide
  have hmake : ∀ o, h.Reach forks.writtenSlots (.object 0) o → ∀ r,
      forks.record (.object (h.get o).owner) = .ok r → r = .make fork .standard .empty none 0 := by
    intro o ho r hr
    rw [(hslots o (hreach o ho)).1] at hr
    exact (Except.ok.inj (hrecord.symm.trans hr)).symm
  have hbytes : (forks.writeValue h .empty (.object 0)).output.bytes = #[7, 1, 0, 0, 1, 0, 0] := by
    decide +kernel
  obtain ⟨bytes, hb, hread⟩ := (read_unfolding (v := .object 0)
    (fun o ho r hr => by rw [hmake o ho r hr]; exact (hslots o (hreach o ho)).2.1)
    standard_forks standard_forks (.refl _) rfl
    (fun o ho r hr => by rw [hmake o ho r hr]; rfl) (by decide)
    (by
      rintro s (hs | ⟨o, i, ho, -, hs⟩)
      · cases hs
      · rcases (hslots o (hreach o ho)).2.2 _ (List.mem_of_getElem? hs) with hs | hs <;> cases hs)
    .empty).1 (by decide +kernel)
  rw [hbytes] at hb
  obtain rfl : [7, 1, 0, 0, 1, 0, 0] = bytes := hb
  exact ⟨hbytes, by decide +kernel, (hread 4 (by decide) _ 0 [9]).2⟩

end Codec

end GraphCodec
