import GraphCodec.Proofs.Recopying
import GraphCodec.Proofs.Repeating

/-!
# Codecs — more classes

A codec to which more classes are registered has the old registrations under their old numbers: a
class that is in the catalog already is refused, and so no registration is ever exchanged.  Whether
the new classes get hooks, serializers of their own or no serializer at all is of no account.
Whatever worked before works afterwards in the same way (`works_extended`); what is read or copied
for a second time, after the classes were registered, is the same graph as before.
-/

namespace GraphCodec

/-- A serializer of another codec, or of none, gets its cell behind those of `rs`. -/
theorem ArgumentCells.Quiet.grow {t : ArgumentCells} {rs : List RecordSerializer}
    (h : t.Quiet rs) : t.alloc.2.Quiet rs where
  apart := h.apart
  inside r hr := Nat.lt_of_lt_of_eq (Nat.lt_succ_of_lt (h.inside r hr)) (Array.size_push _).symm
  pending := by simpa only [get_alloc] using h.pending
  cached := by simpa only [get_alloc] using h.cached

namespace Codec

open Pass

variable {c k : Codec} {rs : List RecordSerializer}

/-! ### Registering classes -/

/-- `k` comes from `c` by registering classes, in any way and whether they are accepted or not. -/
inductive ExtendsTo (c : Codec) : Codec → Prop
  | refl : ExtendsTo c c
  | registerClass {k : Codec} (h : ExtendsTo c k) (d : ClassDecl) (plan : ClassPlan Value) :
      ExtendsTo c (k.registerClass d plan).2

/-- The codec includes `c`, it has left the cells of `rs` quiet, and all registered classes are in
its catalog, so that none of them is accepted for a second time. -/
structure Extended (rs : List RecordSerializer) (c k : Codec) : Prop where
  includes : k.Includes c
  quiet : k.cells.Quiet rs
  known : ∀ x ∈ k.registrations, ∀ id, x.type = .object id → k.catalog.get? id ≠ none

theorem Lists.extended (hc : c.Lists rs) : Extended rs c c := by
  refine ⟨⟨List.prefix_rfl, id, rfl⟩, hc.quiet, fun x hx id hid => ?_⟩
  rw [hc.registrations, List.mem_append] at hx
  rcases hx with hx | hx
  · simp only [builtIns, List.mem_cons, List.not_mem_nil, or_false] at hx
    rcases hx with rfl | rfl | rfl | rfl | rfl | rfl <;> cases hid
  · obtain ⟨r, hr, rfl⟩ := List.mem_map.mp hx
    cases hid
    simp [hc.known r hr]

namespace Extended

/-- What building a serializer changes of a codec. -/
theorem withCells (hk : Extended rs c k) {cells : ArgumentCells} (hq : cells.Quiet rs) :
    Extended rs c (k.withCells cells) :=
  ⟨{ hk.includes with }, hq, hk.known⟩

/-- A new class is none of those that have a serializer. -/
theorem addClass (hk : Extended rs c k) {d : ClassDecl} (hd : k.catalog.get? d.id = none) :
    Extended rs c { k with catalog := k.catalog.add d } := by
  refine ⟨{ hk.includes with decls := fun {id d'} h => ?_ }, hk.quiet, fun x hx id hid => ?_⟩
  · have h := hk.includes.decls h
    show (k.catalog.add d).get? id = some d'
    rw [get?_add, if_neg]
    · exact h
    · rintro rfl
      cases hd.symm.trans h
  · show (k.catalog.add d).get? id ≠ none
    rw [get?_add]
    split
    · exact Option.some_ne_none d
    · exact hk.known x hx id hid

/-- A type that had no serializer gets the next number. -/
theorem register (hk : Extended rs c k) {x : Registration} (hx : ∀ y ∈ k.registrations,
    y.type ≠ x.type) (hknown : ∀ id, x.type = .object id → k.catalog.get? id ≠ none) :
    Extended rs c (k.register x) := by
  have hplace : (k.register x).registrations = k.registrations ++ [x] := place_of_forall_ne hx
  refine ⟨{ hk.includes with registrations := ?_ }, hk.quiet, ?_⟩
  · rw [hplace]
    exact hk.includes.registrations.trans (List.prefix_append _ _)
  · rw [hplace]
    exact List.forall_mem_append.mpr ⟨hk.known, List.forall_mem_singleton.mpr hknown⟩

end Extended

/-! Building a serializer changes the cells only. -/

theorem buildRecord_cells {owner : ClassId} {options : FieldOptions} {hooks : Option (Hooks Value)}
    {r : RecordSerializer} {k' : Codec} (h : k.buildRecord owner options hooks = .ok (r, k')) :
    k' = k.withCells k.cells.alloc.2 := by
  obtain ⟨d, -, h⟩ := except_bind_eq_ok.mp h
  cases h
  rfl

theorem build_cells (hq : k.cells.Quiet rs) {spec : SerializerSpec Value} {s : Serializer}
    {k' : Codec} (h : k.build spec = .ok (s, k')) :
    ∃ cells : ArgumentCells, cells.Quiet rs ∧ k' = k.withCells cells := by
  induction spec generalizing s with
  | stock s =>
      cases h
      exact ⟨k.cells, hq, rfl⟩
  | record owner options hooks =>
      obtain ⟨⟨r, k''⟩, hr, h⟩ := except_bind_eq_ok.mp h
      cases h
      exact ⟨_, hq.grow, buildRecord_cells hr⟩
  | catching inner ih =>
      obtain ⟨⟨s, k''⟩, hs, h⟩ := except_bind_eq_ok.mp h
      cases h
      exact ih hs
  | orNew inner ih =>
      obtain ⟨⟨s, k''⟩, hs, h⟩ := except_bind_eq_ok.mp h
      cases h
      exact ih hs

theorem buildPlan_cells (hq : k.cells.Quiet rs) {owner : ClassId} {plan : ClassPlan Value}
    {s : Serializer} {exposed : Bool} {k' : Codec}
    (h : k.buildPlan owner plan = .ok (s, exposed, k')) :
    ∃ cells : ArgumentCells, cells.Quiet rs ∧ k' = k.withCells cells := by
  cases plan with
  | refuse => cases h
  | custom spec =>
      obtain ⟨⟨s, k''⟩, hs, h⟩ := except_bind_eq_ok.mp h
      cases h
      exact build_cells hq hs
  | _ =>
      obtain ⟨⟨r, k''⟩, hr, h⟩ := except_bind_eq_ok.mp h
      cases h
      exact ⟨_, hq.grow, buildRecord_cells hr⟩

/-- One more class. -/
theorem Extended.registerClass (hk : Extended rs c k) (d : ClassDecl) (plan : ClassPlan Value) :
    Extended rs c (k.registerClass d plan).2 := by
  simp only [Codec.registerClass]
  cases hreg : k.catalog.register d with
  | error e => exact hk
  | ok catalog =>
      obtain ⟨hfault, rfl⟩ := Catalog.register_ok hreg
      have hnew := (of_fault?_eq_none hfault).1
      have hadd := hk.addClass hnew
      simp only
      split
      · exact hadd
      · next s exposed k' hbuild =>
        obtain ⟨cells, hq, rfl⟩ := buildPlan_cells hadd.quiet hbuild
        refine (hadd.withCells hq).register (fun y hy hy' => ?_) fun id hid => ?_
        · exact hk.known y hy d.id hy' hnew
        · cases hid
          show (k.catalog.add d).get? d.id ≠ none
          rw [get?_add, if_pos rfl]
          exact Option.some_ne_none d

theorem ExtendsTo.extended (hc : c.Lists rs) (hk : c.ExtendsTo k) : Extended rs c k := by
  induction hk with
  | refl => exact hc.extended
  | registerClass _ d plan ih => exact ih.registerClass d plan

/-! ### Passes -/

/-- The use has come to what it is for. -/
def Answer.Succeeds : Answer → Prop
  | .written result _ => result.isOk = true
  | .wasRead result _ _ | .copied result _ => result.isOk = true
  | .changed result => result.isOk = true

theorem runWrite_of_repeats {out : Output} {body body' : WriteM Unit} (hb : Repeats body body')
    (hcells : k.cells = c.cells) (hok : (Answer.ofWritten (c.runWrite out body)).Succeeds) :
    Answer.ofWritten (k.runWrite out body') = .ofWritten (c.runWrite out body) := by
  rcases hr : body ⟨out, .empty, [], ⟨.empty, c.cells⟩⟩ with ⟨x, st⟩
  rw [runWrite_of_run hr] at hok ⊢
  cases x with
  | error e => cases hok
  | ok u =>
      have hr' := hb _ _ _ hr
      rw [← hcells] at hr'
      rw [runWrite_of_run hr']
      rfl

theorem runRead_of_repeats {h : Heap} {input : Input} {body body' : ReadM Value}
    (hb : Repeats body body') (hcells : k.cells = c.cells)
    (hok : (Answer.ofWasRead (c.runRead h input body)).Succeeds) :
    Answer.ofWasRead (k.runRead h input body') = .ofWasRead (c.runRead h input body) := by
  rcases hr : body ⟨input, h, .empty, ⟨.empty, c.cells⟩⟩ with ⟨x, st⟩
  rw [runRead_of_run hr] at hok ⊢
  cases x with
  | error e => cases hok
  | ok w =>
      have hr' := hb _ _ _ hr
      rw [← hcells] at hr'
      rw [runRead_of_run hr']
      rfl

/-- What ends well ends in the same way on a codec that has more, and the same cells. -/
theorem Includes.runCall (hk : k.Includes c) (hc : c.Lists rs) (hcells : k.cells = c.cells)
    (x : Call) (hok : (c.runCall x).1.Succeeds) : (k.runCall x).1 = (c.runCall x).1 := by
  cases x with
  | write h out v =>
      exact runWrite_of_repeats
        (repeats_writeTagged hc hk (repeats_writeFramed hc hk (writeDepth h)) v) hcells hok
  | writeUntagged h out v args =>
      simp only [Codec.runCall, writeUntagged_eq] at hok ⊢
      exact runWrite_of_repeats
        (repeats_writeFlat hc hk (repeats_writeFramed hc hk (writeDepth h)) v args) hcells hok
  | read depth h input =>
      exact runRead_of_repeats
        (repeats_readTagged hc hk (repeats_readFramed hc hk depth)) hcells hok
  | readUntagged depth h input t args =>
      exact runRead_of_repeats
        (repeats_readFlat hc hk (repeats_readFramed hc hk depth) t args) hcells hok
  | copy h v =>
      have hcopy : ∀ k : Codec, k.copy h v =
          ⟨((k.copyValue (k.copyObject (copyDepth h)) v) ⟨h, .empty⟩).1,
            ((k.copyValue (k.copyObject (copyDepth h)) v) ⟨h, .empty⟩).2.heap⟩ := fun _ => rfl
      rcases hr : c.copyValue (c.copyObject (copyDepth h)) v ⟨h, .empty⟩ with ⟨e | w, st⟩
      · simp only [Codec.runCall, hcopy, hr] at hok
        cases hok
      · have hr' := repeats_copyValue hc hk
          (fun t s v => repeats_copyObject hc hk (copyDepth h) t s v) v _ _ _ hr
        simp only [Codec.runCall, hcopy, hr, hr']

/-- A call is answered in the same way whatever quiet cells the codec has. -/
theorem Lists.runCall_withCells (hc : c.Lists rs) {cells : ArgumentCells} (hq : cells.Quiet rs)
    (x : Call) : ((c.withCells cells).runCall x).1 = (c.runCall x).1 :=
  have hcells : (c.withCells cells).Lists rs := { hc with quiet := hq }
  (runCall_direct hcells x).1.symm.trans (runCall_direct hc x).1

theorem Extended.runCall (hk : Extended rs c k) (hc : c.Lists rs) (x : Call)
    (hok : (c.runCall x).1.Succeeds) : (k.runCall x).1 = (c.runCall x).1 := by
  have hcells : (c.withCells k.cells).Lists rs := { hc with quiet := hk.quiet }
  have hincludes : k.Includes (c.withCells k.cells) := { hk.includes with }
  rw [← hc.runCall_withCells hk.quiet x] at hok ⊢
  exact hincludes.runCall hcells rfl x hok

/-- **More classes change nothing that works.**  Where a pass ends well, the codec with more classes
gives the same answer.  A value that is read or copied once more with this codec, in the heap that
the first time has left, is the same graph as the first one. -/
theorem works_extended (hc : c.Standard) (hk : c.ExtendsTo k) :
    (∀ x : Call, (c.runCall x).1.Succeeds → (k.runCall x).1 = (c.runCall x).1) ∧
    (∀ depth h input w, (c.readValue depth h input).result = .ok w →
      ∃ w', (k.readValue depth (c.readValue depth h input).heap input).result = .ok w' ∧
        (k.readValue depth (c.readValue depth h input).heap input).input =
          (c.readValue depth h input).input ∧
        (k.readValue depth (c.readValue depth h input).heap input).heap.sameGraph w w' = true) ∧
    (∀ depth h input t args w, (c.readUntagged depth h input t args).result = .ok w →
      let g := (c.readUntagged depth h input t args).heap
      ∃ w', (k.readUntagged depth g input t args).result = .ok w' ∧
        (k.readUntagged depth g input t args).input =
          (c.readUntagged depth h input t args).input ∧
        (k.readUntagged depth g input t args).heap.sameGraph w w' = true) ∧
    ∀ h v w, (∀ o, h.Reach c.copiedSlots v o → o < h.size) → (c.copy h v).result = .ok w →
      ∃ w', (k.copy (c.copy h v).heap v).result = .ok w' ∧
        (k.copy (c.copy h v).heap v).heap.sameGraph w w' = true := by
  obtain ⟨rs, hc⟩ := hc.lists
  have hk := hk.extended hc
  refine ⟨hk.runCall hc, fun depth h input w hw => ?_, fun depth h input t args w hw => ?_,
    fun h v w hin hw => ?_⟩
  · obtain ⟨w', hw', hinput, hsame⟩ := hc.read_again depth h input hw
    have hagain := hk.runCall hc (.read depth (c.readValue depth h input).heap input)
    simp only [Codec.runCall, Answer.ofWasRead, Answer.wasRead.injEq, Answer.Succeeds,
      hw'] at hagain
    obtain ⟨h₁, h₂, h₃⟩ := hagain rfl
    exact ⟨w', h₁, h₂.trans hinput, h₃ ▸ hsame⟩
  · obtain ⟨w', hw', hinput, hsame⟩ := hc.readUntagged_again depth h input t args hw
    have hagain := hk.runCall hc
      (.readUntagged depth (c.readUntagged depth h input t args).heap input t args)
    simp only [Codec.runCall, Answer.ofWasRead, Answer.wasRead.injEq, Answer.Succeeds,
      hw'] at hagain
    obtain ⟨h₁, h₂, h₃⟩ := hagain rfl
    exact ⟨w', h₁, h₂.trans hinput, h₃ ▸ hsame⟩
  · obtain ⟨w', hw', hsame⟩ := hc.copy_again hin hw
    have hagain := hk.runCall hc (.copy (c.copy h v).heap v)
    simp only [Codec.runCall, Answer.ofCopied, Answer.copied.injEq, Answer.Succeeds, hw'] at hagain
    obtain ⟨h₁, h₂⟩ := hagain rfl
    exact ⟨w', h₁, h₂ ▸ hsame⟩

/-- The codec with links gets leaves too, and links once more, which are refused.  A link to itself
is written, read and copied as before. -/
theorem works_extended_links :
    let k := ((links.registerClass leaf .standard).2.registerClass link .refuse).2
    let h : Heap := ⟨#[⟨link, [.object 0, .int 5]⟩]⟩
    let g := (links.readValue 3 .empty ⟨0, [7, 1, 2]⟩).heap
    links.ExtendsTo k ∧
      (links.writeValue h .empty (.object 0)).result = .ok () ∧
      (k.runCall (.write h .empty (.object 0))).1 =
        (links.runCall (.write h .empty (.object 0))).1 ∧
      (∃ w, (k.readValue 3 g ⟨0, [7, 1, 2]⟩).result = .ok w ∧
        (k.readValue 3 g ⟨0, [7, 1, 2]⟩).heap.sameGraph (.object 0) w = true) ∧
      ∃ w, (k.copy (links.copy h (.object 0)).heap (.object 0)).result = .ok w ∧
        (k.copy (links.copy h (.object 0)).heap (.object 0)).heap.sameGraph (.object 1) w =
          true := by
  have hk : links.ExtendsTo
      ((links.registerClass leaf .standard).2.registerClass link .refuse).2 :=
    .registerClass (.registerClass .refl _ _) _ _
  have hok : (links.writeValue ⟨#[⟨link, [.object 0, .int 5]⟩]⟩ .empty (.object 0)).result =
      .ok () := by decide +kernel
  obtain ⟨hcall, hread, -, hcopy⟩ := works_extended standard_links hk
  refine ⟨hk, hok, hcall (.write _ _ _) ?_, ?_, ?_⟩
  · simp only [Codec.runCall, Answer.ofWritten, Answer.Succeeds, hok]
    rfl
  · obtain ⟨w, hw, -, hsame⟩ := hread 3 .empty ⟨0, [7, 1, 2]⟩ (.object 0) (by decide +kernel)
    exact ⟨w, hw, hsame⟩
  · exact hcopy _ (.object 0) (.object 1) (fun o ho => by rw [reach_links.mp ho]; decide)
      (by decide +kernel)

end Codec

end GraphCodec
