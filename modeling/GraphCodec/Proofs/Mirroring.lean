import GraphCodec.Proofs.Following
import GraphCodec.Proofs.Images

/-!
# Reading — what was written, with references

A pass of reading follows a pass of writing through the same frames.  The writer numbers an object
when it meets it, and the reader puts the image of the object into its heap at the same time, so
that the images come in the order of the numbers (`ReadState.Follows`).  Reading back a value gives
its image, and complete images of the objects that were met in between (`Echoes`).
-/

namespace GraphCodec

/-- The cells are quiet, and the objects that were met have one number each. -/
structure WriteState.Sound (rs : List RecordSerializer) (V : Value → Prop) (st : WriteState) :
    Prop where
  quiet : st.typing.cells.Quiet rs
  nodup : st.numbering.seen.Nodup
  within : ∀ o ∈ st.numbering.seen, V (.object o)

theorem WriteState.Sound.meet {rs : List RecordSerializer} {V : Value → Prop} {st : WriteState}
    (hst : st.Sound rs V) {o : ObjectId} (ho : V (.object o)) (hnew : o ∉ st.numbering.seen) :
    WriteState.Sound rs V { st with numbering := ⟨st.numbering.seen ++ [o]⟩ } := by
  refine { hst with nodup := ?_, within := ?_ }
  · exact List.concat_eq_append ▸ hst.nodup.concat hnew
  · exact List.forall_mem_append.mpr ⟨hst.within, List.forall_mem_singleton.mpr ho⟩

/-- The reader has what the writer has: the same scopes, and under each number the image of the
object that has the number. -/
structure ReadState.Follows (rs : List RecordSerializer) (base : Nat) (wst : WriteState)
    (rst : ReadState) : Prop where
  scopes : rst.typing.scopes = wst.typing.scopes
  quiet : rst.typing.cells.Quiet rs
  size : rst.heap.size = base + wst.numbering.seen.length
  objects : rst.reservations.objects =
    (List.range wst.numbering.seen.length).map fun n => some (base + n)

/-- An object is put into the heap under the number that was reserved for it. -/
theorem Reservations.bind_reserve (t : Reservations) (p : ObjectId) :
    t.reserve.bind p = ⟨t.objects ++ [some p], t.objects.length :: t.pending⟩ := by
  simp [bind, reserve, assign, List.modify_eq_take_drop]

/-- A number that stands for an object already goes on to do so. -/
theorem Reservations.finish_of_bound {t : Reservations} {n : Nat} {rest : List Nat} {p : ObjectId}
    (hp : t.pending = n :: rest) (hn : t.objects[n]? = some (some p)) (o : ObjectId) :
    t.finish (.object o) = ⟨t.objects, rest⟩ := by
  simp only [finish, assign, hp]
  simp only [Reservations.mk.injEq, and_true]
  refine List.ext_getElem? fun m => ?_
  rw [List.getElem?_modify]
  by_cases hm : n = m
  · subst hm
    simp [hn]
  · simp [hm]

theorem ReadState.Follows.getElem?_objects {rs : List RecordSerializer} {base : Nat}
    {wst : WriteState} {rst : ReadState} (hf : rst.Follows rs base wst) {n : Nat}
    (hn : n < wst.numbering.seen.length) :
    rst.reservations.objects[n]? = some (some (base + n)) := by
  rw [hf.objects, List.getElem?_map, List.getElem?_range hn]
  rfl

/-- Numbers are bound while their objects are open, so that closing one only takes it off. -/
theorem ReadState.Follows.finish {rs : List RecordSerializer} {base : Nat} {wst : WriteState}
    {rst : ReadState} (hf : rst.Follows rs base wst) {n : Nat} {rest : List Nat}
    (hn : n < wst.numbering.seen.length) (hp : rst.reservations.pending = n :: rest)
    (o : ObjectId) :
    rst.reservations.finish (.object o) = ⟨rst.reservations.objects, rest⟩ :=
  Reservations.finish_of_bound hp (hf.getElem?_objects hn) o

/-- Both sides go on to the next number and into the same scope. -/
theorem ReadState.Follows.meet {rs : List RecordSerializer} {base : Nat} {wst : WriteState}
    {rst : ReadState} (hf : rst.Follows rs base wst) (o : ObjectId) (x : Object)
    (scope : Option TypeScope) (cells : ArgumentCells) {cells' : ArgumentCells}
    (hq : cells'.Quiet rs) :
    ReadState.Follows rs base
      ⟨wst.output, ⟨wst.numbering.seen ++ [o]⟩, wst.path,
        Typing.enter ⟨wst.typing.scopes, cells⟩ scope⟩
      ⟨rst.input, (rst.heap.alloc x).2, rst.reservations.reserve.bind rst.heap.size,
        Typing.enter ⟨rst.typing.scopes, cells'⟩ scope⟩ := by
  refine ⟨?_, hq, ?_, ?_⟩
  · show rst.typing.scopes.enter scope = wst.typing.scopes.enter scope
    rw [hf.scopes]
  · rw [Heap.size_alloc, hf.size, List.length_append]
    rfl
  · rw [Reservations.bind_reserve, hf.objects, hf.size]
    simp [List.range_succ]

namespace Codec

open Pass

/-- What can be read back where objects have numbers, which fit the words for them. -/
structure Readable (c : Codec) (h : Heap) (V : Value → Prop) : Prop extends c.Legible h V where
  numbers : ∀ l : List ObjectId, l.Nodup → (∀ o ∈ l, V (.object o)) → l.length + 1 < 2 ^ 32

variable {c : Codec} {rs : List RecordSerializer} {h : Heap} {V : Value → Prop}
  {v : Value}

/-! ### Values -/

/-- How reading back `v` ends, from a state with `rst`'s heap in which `seen` had been met. -/
structure ReadDone (c : Codec) (rs : List RecordSerializer) (h : Heap) (base : Nat)
    (seen : List ObjectId) (rst : ReadState) (v : Value) (wst' : WriteState) (w : Value)
    (rst' : ReadState) : Prop where
  follows : rst'.Follows rs base wst'
  grown : c.Grown FieldEntryOf.serialized h base seen rst.heap wst'.numbering.seen rst'.heap
  pending : rst'.reservations.pending = rst.reservations.pending
  image : v.Image base wst'.numbering.seen w

/-- What `m` writes for `v` is read back by `m'` as the image of `v`. -/
def Echoes (c : Codec) (rs : List RecordSerializer) (h : Heap) (V : Value → Prop) (v : Value)
    (m : WriteM Unit) (m' : ReadM Value) : Prop :=
  ∀ wst, wst.Sound rs V → Appends m wst fun _ wst' bytes => wst'.Sound rs V ∧
    ∀ base rst, rst.Follows rs base wst →
      Replays m' rst bytes fun w rst' => c.ReadDone rs h base wst.numbering.seen rst v wst' w rst'

/-- The reader follows the writer, and what is known is where the images begin. -/
def imaging (c : Codec) (rs : List RecordSerializer) (h : Heap) (V : Value → Prop) :
    Following rs Nat where
  writer := WriteState.Sound rs V
  beside base wst rst := rst.Follows rs base wst
  done base wst rst v wst' w rst' := c.ReadDone rs h base wst.numbering.seen rst v wst' w rst'
  quiet hw := hw.quiet
  writer_output _ hw := { hw with }
  writer_typing _ hq hw := { hw with quiet := hq }
  beside_bytes _ _ hr := { hr with }
  done_plain hv hr := ⟨hr, .refl _ _, rfl, Value.image_self hv⟩
  done_bytes _ _ hd := { hd with }

theorem echoes_tagged (hc : c.Lists rs) (hV : c.Readable h V)
    {nested : Frame → Value → WriteM Unit} {nested' : Frame → ReadM Value}
    (hn : ∀ f v, Served rs f.type f.serializer → V v →
      Echoes c rs h V v (nested f v) (nested' f)) (hv : V v) :
    Echoes c rs h V v (c.writeTagged h nested v) (c.readTagged nested') :=
  Following.carries_tagged (F := c.imaging rs h V) hc hV.toLegible hn hv

/-! ### Objects -/

/-- The image of an object that was met after `visits`.  What is known is where the images begin,
the heap in which the image is put, and the numbers that are being read. -/
def imagingStages {r : RecordSerializer} (hc : c.Lists rs) (hr : r ∈ rs) (visits : List ObjectId)
    (o : ObjectId) : (c.imaging rs h V).Stages h o r (Nat × Heap × List Nat) where
  place j := j.1 + visits.length
  filled j done wst rst := rst.Follows rs j.1 wst ∧
    c.Filling FieldEntryOf.serialized h j.1 visits j.2.1 o r.decl done wst.numbering.seen
      rst.heap ∧ rst.reservations.pending = j.2.2
  scopes hfill := hfill.1.scopes
  field := by
    rintro ⟨base, g, pending⟩ done wst rst e v he hnew hv ⟨hf, hfill, hpending⟩
    refine ⟨base, hf, fun {wst' w rst'} hw' hd => ?_⟩
    have hfollows := (hc.plain r hr).follows
    have hfill := hfill.nested hd.grown
    have hsize : base + visits.length < rst'.heap.size := by
      rw [hd.follows.size]
      exact Nat.add_lt_add_left hfill.length_lt _
    obtain ⟨old, hset⟩ := hfill.filled.set_run hfollows he w
    refine ⟨by rw [hd.image.eq, Value.isNull_rename], old, _, hset, ?_, ?_, ?_⟩
    · exact { hd.follows with size := (Heap.size_store _ _ _ _).trans hd.follows.size }
    · exact hfill.store hsize hw'.nodup (hfollows.index_lt he) hnew hv hd.image
    · exact hd.pending.trans hpending

/-- The image of an object is complete when its fields were read.  It keeps its number, and both
sides leave the scope of its class. -/
theorem readDone_of_filling {r : RecordSerializer} {o p : ObjectId} {base : Nat}
    {wst wst' : WriteState} {rst rst' : ReadState}
    (hr : c.record (.object (h.get o).owner) = .ok r) (hmade : r.decl.constructible = true)
    (hf : rst.Follows rs base wst) (hf' : rst'.Follows rs base wst')
    (hnd : wst'.numbering.seen.Nodup)
    (hfill : c.Filling FieldEntryOf.serialized h base wst.numbering.seen rst.heap o r.decl
      (r.entries.filter FieldEntryOf.serialized) wst'.numbering.seen rst'.heap)
    (hpending : rst'.reservations.pending = (rst.reservations.reserve.bind p).pending)
    (scope : Option TypeScope) :
    c.ReadDone rs h base wst.numbering.seen rst (.object o)
      { wst' with typing := wst'.typing.leave scope } (.object (base + wst.numbering.seen.length))
      { rst' with
        typing := rst'.typing.leave scope
        reservations :=
          rst'.reservations.finish (.object (base + wst.numbering.seen.length)) } := by
  rw [Reservations.bind_reserve, hf.objects, List.length_map, List.length_range] at hpending
  rw [hf'.finish hfill.length_lt hpending]
  refine ⟨⟨?_, hf'.quiet, hf'.size, hf'.objects⟩, hfill.finish hr hmade hnd, rfl, ?_⟩
  · show rst'.typing.scopes.leave _ = wst'.typing.scopes.leave _
    rw [hf'.scopes]
  · rw [← idxOf_last hfill.grows hnd]
    exact Value.image_object (hfill.grows.subset (by simp))

/-- A new object is read under the next number, which stands for its image before its fields are
read. -/
theorem echoes_new (hc : c.Lists rs) (hV : c.Readable h V)
    {nested : Frame → Value → WriteM Unit} {nested' : Frame → ReadM Value}
    (hn : ∀ f v, Served rs f.type f.serializer → V v →
      Echoes c rs h V v (nested f v) (nested' f))
    {f : Frame} (hf : Served rs f.type f.serializer) {o : ObjectId} (ho : V (.object o))
    {wst : WriteState} (hw : wst.Sound rs V) (hnew : o ∉ wst.numbering.seen) :
    Appends (c.writeBody h nested f (.object o))
      { wst with numbering := ⟨wst.numbering.seen ++ [o]⟩ } fun _ wst' bytes =>
        wst'.Sound rs V ∧ ∀ base rst, rst.Follows rs base wst →
          Replays (ReadM.numbered (c.readBody nested' f)) rst bytes fun w rst' =>
            c.ReadDone rs h base wst.numbering.seen rst (.object o) wst' w rst' := by
  obtain ⟨t, s, args, nullable⟩ := f
  cases hf with
  | stock hs =>
      -- no serializer of the stock writes an object
      intro a wst' hrun
      obtain ⟨_, _, -, hrun⟩ := bind_eq_ok.mp hrun
      cases t <;> cases hs <;> cases hrun
  | record hr =>
      next r =>
      refine appends_mono (Following.appends_record (F := c.imaging rs h V) hc hV.toLegible hn
        (imagingStages hc hr wst.numbering.seen) hr rfl ho (hw.meet ho hnew)) ?_
      rintro _ _ bytes ⟨p, hp, hrec, cells, scope, wst₁, hw₁, rfl, hread⟩
      obtain rfl : o = p := Value.object.inj hp
      refine ⟨{ hw₁ with }, fun base rst hf => replays_numbered ?_⟩
      -- the image is put under the number, and filled in
      refine replays_mono (hread ⟨base, rst.heap, _⟩ _ hf.quiet hf.size fun cells' hq' =>
        ⟨hf.meet o (.fresh r.decl) scope cells hq', .start hf.size o r.decl, rfl⟩) ?_
      rintro _ _ ⟨rfl, rst₁, ⟨hf₁, hfill, hpending⟩, rfl⟩
      exact readDone_of_filling (p := rst.heap.size) hrec (hV.makes o ho r hrec) hf hf₁ hw₁.nodup
        hfill hpending scope

/-! ### Frames -/

/-- An object that was met before is read back as the instance under its number. -/
theorem replays_known {base : Nat} {wst : WriteState} {rst : ReadState}
    (hf : rst.Follows rs base wst) {o : ObjectId} (ho : o ∈ wst.numbering.seen) :
    Replays (ReadM.known (wst.numbering.seen.idxOf o)) rst [] fun w rst' =>
      c.ReadDone rs h base wst.numbering.seen rst (.object o) wst w rst' := by
  have hlt := List.idxOf_lt_length_of_mem ho
  have hget : rst.reservations.get? (wst.numbering.seen.idxOf o) =
      some (base + wst.numbering.seen.idxOf o) := by
    rw [Reservations.get?, hf.getElem?_objects hlt]
    rfl
  refine replays_bind_of_ok (get_run rst) rfl ?_
  rw [hget]
  exact replays_pure ⟨hf, .refl _ _, rfl, Value.image_object ho⟩

section

variable (hc : c.Lists rs) (hV : c.Readable h V) (hr : c.references = true) {n m : Nat}
  (hn : ∀ f v, Served rs f.type f.serializer → V v →
    Echoes c rs h V v (c.writeFramed h n f v) (c.readFramed m f))
  {f : Frame} (hf : Served rs f.type f.serializer)
include hV hr hf

include hc hn in
/-- An object is written as its number, or in full behind the marker of a new one. -/
theorem echoes_object (ht : f.type.isReference = true) {o : ObjectId} (ho : V (.object o)) :
    Echoes c rs h V (.object o) (c.writeFramed h (n + 1) f (.object o))
      (c.readFramed (m + 1) f) := by
  rw [writeFramed_object _ _ hr ht, readFramed_succ, readFrame_marked _ _ _ hr ht]
  intro wst hw
  by_cases hmet : o ∈ wst.numbering.seen
  · -- the number of an object that was met before
    have hlt := List.idxOf_lt_length_of_mem hmet
    have hnumber : wst.numbering.seen.idxOf o + 2 < 2 ^ 32 := by
      have := hV.numbers _ hw.nodup hw.within
      omega
    refine appends_of_run (WriteM.meet_of_known (Numbering.number?_of_mem hmet) _) rfl
      (appends_varint ⟨{ hw with }, fun base rst hrf => ?_⟩)
    rw [← List.append_nil (Varint.encode _)]
    refine replays_take_bind (Read.reads_varU32 hnumber) fun i => ?_
    have hfollows : ReadState.Follows rs base wst { rst with input := i } := { hrf with }
    exact replays_mono (replays_known hfollows hmet) fun _ _ hd =>
      { hd with follows := { hd.follows with } }
  · -- the marker of a new object, and the object
    refine appends_of_run (WriteM.meet_of_new hmet _) rfl ?_
    have hone : Appends (WriteM.varint 1)
        { wst with numbering := ⟨wst.numbering.seen ++ [o]⟩ } fun _ st bytes =>
          (∃ out, st = ⟨out, ⟨wst.numbering.seen ++ [o]⟩, wst.path, wst.typing⟩) ∧
            bytes = Varint.encode 1 :=
      appends_varint ⟨⟨_, rfl⟩, rfl⟩
    refine appends_bind hone ?_
    rintro _ _ _ ⟨⟨out, rfl⟩, rfl⟩
    have hsound : WriteState.Sound rs V { wst with output := out } := { hw with }
    refine appends_mono (echoes_new hc hV hn hf ho hsound hmet) ?_
    rintro _ wst' bytes ⟨hw', hread⟩
    refine ⟨hw', fun base rst hrf => replays_take_bind (Read.reads_varU32 (by decide)) fun i => ?_⟩
    exact replays_mono (hread base { rst with input := i } { hrf with }) fun _ _ hd => { hd with }

omit hV hf in
/-- Nothing but null stands in a frame of a class when it is not an object. -/
theorem echoes_no_object (ht : f.type.isReference = true) (hv : ∀ o, v ≠ .object o) :
    Echoes c rs h V v (c.writeFramed h (n + 1) f v) (c.readFramed (m + 1) f) := by
  rw [writeFramed_no_object _ _ hr ht _ hv, readFramed_succ, readFrame_marked _ _ _ hr ht]
  by_cases hnull : (v.isNull && f.nullable) = true
  · rw [if_pos hnull]
    obtain ⟨hnull, hnullable⟩ := Bool.and_eq_true_iff.mp hnull
    obtain rfl := Value.eq_null_of_isNull hnull
    refine Exchanges.carries (F := c.imaging rs h V)
      (fun wst => appends_varint ⟨⟨_, rfl⟩, fun rst => ?_⟩) hv
    rw [← List.append_nil (Varint.encode 0)]
    refine replays_take_bind (Read.reads_varU32 (by decide)) fun i => ?_
    show Replays (if f.nullable then return Value.null else fail _) _ _ _
    rw [if_pos hnullable]
    exact replays_pure ⟨rfl, _, rfl⟩
  · rw [if_neg hnull]
    exact fun _ _ => appends_fail _

theorem echoes_unmarked (ht : f.type.isReference = false) (hv : V v) :
    Echoes c rs h V v (c.writeFramed h (n + 1) f v) (c.readFramed (m + 1) f) := by
  have hm : (f.type.isReference && c.references) = false := by rw [ht]; rfl
  refine Following.carries_unmarked (F := c.imaging rs h V) hm fun _ => ?_
  have hbody := Following.carries_plain (c := c) (h := h) (F := c.imaging rs h V) hf ht
    (fun s he => hV.strings s (he ▸ hv)) (c.writeFramed h n) (c.readFramed m)
  rw [hr]
  cases v <;> exact hbody

end

/-- The walk itself: the reader goes as deep as the writer did. -/
theorem echoes_framed (hc : c.Lists rs) (hV : c.Readable h V) (hr : c.references = true)
    {n m : Nat} (hle : n ≤ m) (f : Frame) (v : Value) (hf : Served rs f.type f.serializer)
    (hv : V v) : Echoes c rs h V v (c.writeFramed h n f v) (c.readFramed m f) := by
  induction n generalizing m f v with
  | zero =>
      -- a writer without depth ends with a failure, and there is nothing to read back
      intro wst _ _ _ hrun
      cases hrun
  | succ n ih =>
      obtain ⟨m, rfl⟩ : ∃ k, m = k + 1 := ⟨m - 1, by omega⟩
      have hn : ∀ f v, Served rs f.type f.serializer → V v →
          Echoes c rs h V v (c.writeFramed h n f v) (c.readFramed m f) := ih (by omega)
      cases ht : f.type.isReference with
      | false => exact echoes_unmarked hV hr hf ht hv
      | true =>
          by_cases hobj : ∃ o, v = .object o
          · obtain ⟨o, rfl⟩ := hobj
            exact echoes_object hc hV hr hn hf ht hv
          · exact echoes_no_object hr ht fun o ho => hobj ⟨o, ho⟩

end Codec

end GraphCodec
