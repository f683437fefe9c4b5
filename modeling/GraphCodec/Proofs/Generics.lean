import GraphCodec.Proofs.Counterparts
import GraphCodec.Proofs.Likeness
import GraphCodec.Proofs.Stateless
import GraphCodec.Proofs.Twins

/-!
# Generics — type arguments or type tags

Handing type arguments on saves type tags, and nothing else comes of it.  What can be written with
optimised generics can be written without them, and what is read back in the one way and in the
other are equal graphs (`write_twins`), with a type tag in front of the value or without one,
whatever type arguments go with it, and whether objects keep their identity or not.
-/

namespace GraphCodec

namespace Codec

open Pass

/-- What `written` has added for a value to an output is added to another one by `written'` too, in
its own way, and what is read back of the first bytes and then of the second ones are equal graphs
in one heap: the second pass of reading leaves what the first one has made. -/
def SameBack (h : Heap) (out out' : Output) (written written' : Written)
    (read read' : Nat → Heap → Input → WasRead) : Prop :=
  written.result = .ok () → written'.result = .ok () ∧
    ∃ bytes bytes', written.output.bytes.toList = out.bytes.toList ++ bytes ∧
      written'.output.bytes.toList = out'.bytes.toList ++ bytes' ∧
      ∀ depth depth', writeDepth h ≤ depth → writeDepth h ≤ depth' →
        ∀ g position rest position' rest',
          let was := read depth g ⟨position, bytes ++ rest⟩
          let was' := read' depth' was.heap ⟨position', bytes' ++ rest'⟩
          ∃ w w', was.result = .ok w ∧ was'.result = .ok w' ∧
            (∀ p < was.heap.size, was'.heap.get p = was.heap.get p) ∧
            was'.heap.sameGraph w w' = true

variable {c k c' k' : Codec} {rs rs' : List RecordSerializer} {h : Heap} {v : Value}

/-! ### What twins have in common -/

section

variable (ht : c.Twins k) (hc : c.Lists rs) (hk : k.Lists rs')
include ht hc hk

theorem Twins.record {id : ClassId} {r : RecordSerializer} (hr : c.record (.object id) = .ok r) :
    ∃ s, k.record (.object id) = .ok s ∧ r.Twin s := by
  obtain ⟨hmem, rfl⟩ := hc.mem_of_record hr
  obtain ⟨s, hs, hrs⟩ := exists_mem_of_forall₂ (ht.records hc hk) hmem
  refine ⟨s, ?_, hrs⟩
  rw [← hrs.decl]
  exact hk.record_eq hs

theorem Twins.record_of_second {id : ClassId} {s : RecordSerializer}
    (hs : k.record (.object id) = .ok s) : ∃ r, c.record (.object id) = .ok r ∧ r.Twin s := by
  obtain ⟨hmem, rfl⟩ := hk.mem_of_record hs
  obtain ⟨r, hr, hrs⟩ := exists_mem_of_forall₂ (ht.records hc hk).flip hmem
  refine ⟨r, ?_, hrs⟩
  rw [hrs.decl]
  exact hc.record_eq hr

theorem Twins.slots (part : FieldEntry → Bool) : k.slots part = c.slots part := by
  funext id i
  refine propext ⟨?_, ?_⟩
  · rintro ⟨s, hs, e, he, hpart, rfl⟩
    obtain ⟨r, hr, hrs⟩ := ht.record_of_second hc hk hs
    exact ⟨r, hr, e, hrs.entries ▸ he, hpart, rfl⟩
  · rintro ⟨r, hr, e, he, hpart, rfl⟩
    obtain ⟨s, hs, hrs⟩ := ht.record hc hk hr
    exact ⟨s, hs, e, hrs.entries.symm ▸ he, hpart, rfl⟩

theorem Twins.portable (hp : c.Portable h v) : k.Portable h v := by
  have hslots : k.writtenSlots = c.writtenSlots := ht.slots hc hk _
  refine ⟨fun o ho s hs => ?_, fun o ho s hs => ?_, ?_, fun hr => ?_, ?_⟩
  · obtain ⟨r, hr, hrs⟩ := ht.record_of_second hc hk hs
    rw [hrs.decl]
    exact hp.makes o (hslots ▸ ho) r hr
  · obtain ⟨r, hr, hrs⟩ := ht.record_of_second hc hk hs
    rw [hrs.decl]
    exact hp.size o (hslots ▸ ho) r hr
  · rw [← ht.registrations.length_eq]
    exact hp.tags
  · rw [hslots]
    exact hp.markers (ht.references ▸ hr)
  · rw [hslots]
    exact hp.strings

theorem Twins.freshElsewhere {part : FieldEntry → Bool} {x : Object}
    (hx : k.FreshElsewhere part x) : c.FreshElsewhere part x := by
  obtain ⟨s, hs, hdecl, hfresh⟩ := hx
  obtain ⟨r, hr, hrs⟩ := ht.record_of_second hc hk hs
  rw [ht.slots hc hk, hrs.decl] at hfresh
  exact ⟨r, hr, hdecl.trans hrs.decl, hfresh⟩

theorem Twins.counterparts {g : Heap} {w : Value} {S : ObjectId → ObjectId → Prop}
    (hS : k.Counterparts h v g w S) : c.Counterparts h v g w S := by
  have hslots : k.writtenSlots = c.writtenSlots := ht.slots hc hk _
  exact
    { root := hS.root
      reach := fun hx => hslots ▸ hS.reach hx
      owner := hS.owner
      size := hS.size
      slots := fun hx i hi => hS.slots hx i (hslots.symm ▸ hi)
      fresh := fun hx => ht.freshElsewhere hc hk (hS.fresh hx) }

/-! ### Equal graphs -/

/-- What was read back of the same value by the first codec and then by the second one is equal. -/
theorem Twins.sameGraph (hp : c.Portable h v) {g : Heap} {was was' : WasRead} {w w' : Value}
    (hw : c.Recovers h v g was w) (hw' : k.Recovers h v was.heap was' w') :
    (∀ p < was.heap.size, was'.heap.get p = was.heap.get p) ∧
      was'.heap.sameGraph w w' = true := by
  unfold Recovers at hw hw'
  rw [ht.references] at hw'
  split at hw
  · next hr =>
    rw [if_pos hr] at hw'
    obtain ⟨f, hf⟩ := hw
    obtain ⟨f', hf'⟩ := hw'
    have hS := hf.counterparts
    have hS' := ht.counterparts hc hk hf'.counterparts
    have hslots : k.writtenSlots = c.writtenSlots := ht.slots hc hk _
    -- there is one object for each of the original ones on either side
    have hmatch := hS.matching hS' (fun hx => hf'.kept _ (hS.lt_size hp hx))
      (fun {x x' y} hxy hxy' => by
        obtain ⟨o, ⟨-, rfl⟩, ho, rfl⟩ := hS.beside hS' hxy
        obtain ⟨o', ⟨-, rfl⟩, ho', heq⟩ := hS.beside hS' hxy'
        rw [hf'.isomorphism.bijective.injOn ho ho' heq])
      (fun {x y y'} hxy hxy' => by
        obtain ⟨o, ⟨ho, rfl⟩, -, rfl⟩ := hS.beside hS' hxy
        obtain ⟨o', ⟨ho', heq⟩, -, rfl⟩ := hS.beside hS' hxy'
        rw [hf.isomorphism.bijective.injOn ho ho' heq])
    exact ⟨hf'.kept, hmatch.sameGraph (hS.root_beside hS')⟩
  · next hr =>
    rw [if_neg hr] at hw'
    obtain ⟨f, hf⟩ := hw
    obtain ⟨f', hf'⟩ := hw'
    have hS := hf.counterparts
    have hS' := ht.counterparts hc hk hf'.counterparts
    -- both sides are trees
    have hmatch := hS.matching hS' (fun hx => hf'.kept _ (hS.lt_size hp hx))
      (fun hxy hxy' => Heap.Beside.left_unique hf'.unfolding.tree hxy hxy')
      (fun hxy hxy' => Heap.Beside.right_unique hf.unfolding.tree hxy hxy')
    exact ⟨hf'.kept, hmatch.sameGraph (hS.root_beside hS')⟩

/-! ### Whole passes -/

omit ht in
/-- Where the first pass ends well, the second one does, as it never gets too deep. -/
theorem result_of_allows {out out' : Output} {m d m' d' : WriteM Unit}
    (hm : Agrees (WriteState.Matches (QuietFirst rs) []) m d)
    (hm' : Agrees (WriteState.Matches (QuietFirst rs') []) m' d')
    (hd : Allows WriteState.Apace d d') (hdeep : (k.runWrite out' m').result ≠ .error .tooDeep)
    (hw : (c.runWrite out m).result = .ok ()) : (k.runWrite out' m').result = .ok () := by
  have hfirst := (hm ⟨out, .empty, [], ⟨.empty, c.cells⟩⟩ ⟨out, .empty, [], ⟨.empty, c.cells⟩⟩
    ⟨rfl, rfl, rfl, rfl, rfl, hc.quiet⟩).1
  have hsecond := (hm' ⟨out', .empty, [], ⟨.empty, k.cells⟩⟩
    ⟨out', .empty, [], ⟨.empty, k.cells⟩⟩ ⟨rfl, rfl, rfl, rfl, rfl, hk.quiet⟩).1
  rcases hrun : d ⟨out, .empty, [], ⟨.empty, c.cells⟩⟩ with ⟨x, t⟩
  rw [hrun] at hfirst
  obtain rfl : x = .ok () := hfirst.trans hw
  rcases hd ⟨out, .empty, [], ⟨.empty, c.cells⟩⟩ ⟨out', .empty, [], ⟨.empty, k.cells⟩⟩ ⟨rfl, rfl⟩ ()
    t hrun with htoo | ⟨t', hrun', -⟩
  · exact absurd (hsecond.symm.trans htoo) hdeep
  · rw [hrun'] at hsecond
    exact hsecond.symm

theorem Twins.sameBack (hp : c.Portable h v) {out out' : Output} {written written' : Written}
    {read read' : Nat → Heap → Input → WasRead} (hback : c.Returns h v out written read)
    (hback' : k.Returns h v out' written' read')
    (hresult : written.result = .ok () → written'.result = .ok ()) :
    SameBack h out out' written written' read read' := by
  intro hw
  obtain ⟨bytes, hb, hread⟩ := hback hw
  obtain ⟨bytes', hb', hread'⟩ := hback' (hresult hw)
  refine ⟨hresult hw, bytes, bytes', hb, hb', ?_⟩
  intro depth depth' hd hd' g position rest position' rest'
  obtain ⟨-, w, hrec⟩ := hread depth hd g position rest
  obtain ⟨-, w', hrec'⟩ := hread' depth' hd' (read depth g ⟨position, bytes ++ rest⟩).heap position'
    rest'
  exact ⟨w, w', hrec.result, hrec'.result, ht.sameGraph hc hk hp hrec hrec'⟩

end

/-- **Type arguments and type tags come to the same.**  The first of two twins has optimised
generics, and the second one has not; what is below the value can be made again.  What the first one
writes the second one writes too, and both read equal graphs back, each with a codec that was set up
like the one that has written. -/
theorem write_twins (hc : c.Standard) (hk : k.Standard) (ht : c.Twins k) (hc' : c'.Standard)
    (hcc' : c.Alike c') (hk' : k'.Standard) (hkk' : k.Alike k') (hp : c.Portable h v)
    (out out' : Output) :
    SameBack h out out' (c.writeValue h out v) (k.writeValue h out' v) c'.readValue k'.readValue ∧
      ∀ t args, h.typeOf v = some t →
        SameBack h out out' (c.writeUntagged h out v args) (k.writeUntagged h out' v args)
          (fun depth g input => c'.readUntagged depth g input t args)
          (fun depth g input => k'.readUntagged depth g input t args) := by
  obtain ⟨rs, hlc⟩ := hc.lists
  obtain ⟨rs', hlk⟩ := hk.lists
  obtain ⟨hback, hbackUntagged⟩ := hp.returns hc hc' hcc' out
  obtain ⟨hback', hbackUntagged'⟩ := (ht.portable hlc hlk hp).returns hk hk' hkk' out'
  -- the second codec never gets too deep
  have hdeep := write_rename hk hk (.refl k) (Heap.renames_id k.writtenSlots h)
    (v := v) (fun _ _ => trivial) out'
  have hframed := fun f v => agrees_writeDirect (h := h) (A := []) hlc c.cells (writeDepth h) f v
  have hframed' := fun f v => agrees_writeDirect (h := h) (A := []) hlk k.cells (writeDepth h) f v
  have hallows := allows_writeDirect (h := h) ht hlc hlk (writeDepth h) (writeDepth h)
  refine ⟨ht.sameBack hlc hlk hp hback hback' ?_, fun t args htype =>
    ht.sameBack hlc hlk hp (hbackUntagged t args htype) (hbackUntagged' t args htype) ?_⟩
  · exact result_of_allows hlc hlk (agrees_writeTagged hlc hframed v)
      (agrees_writeTagged hlk hframed' v) (allows_writeTagged ht hlc hlk hallows v) hdeep.1.1
  · exact result_of_allows hlc hlk (agrees_writeFlat hlc hframed v args)
      (agrees_writeFlat hlk hframed' v args) (allows_writeFlat ht hlc hlk hallows v args)
      (hdeep.2 args).1

/-- A codec with crates that are written without optimised generics. -/
def plainCrates : Codec :=
  (new.registerClass crate
    (.configured { FieldOptions.standard with optimizedGenerics := false })).2

theorem standard_plainCrates : plainCrates.Standard :=
  .registerClass .new (by unfold ClassDecl.Unbound; decide) (.inr (.inr ⟨_, rfl⟩))

theorem twins_crates : crates.Twins plainCrates where
  registrations := by
    iterate 6 refine .cons ⟨rfl, rfl, .stock _⟩ ?_
    exact .cons ⟨rfl, rfl, .record ⟨rfl, rfl, rfl, rfl⟩⟩ .nil
  references := rfl

/-- A crate that holds itself, as the argument says: the type tag of the item is saved, and the
crates that are read back are equal graphs. -/
theorem write_twins_crates :
    let h : Heap := ⟨#[⟨crate, [.object 0]⟩]⟩
    let args : List ConcreteType := [.ofType crate.type]
    (crates.writeUntagged h .empty (.object 0) args).output.bytes = #[1, 2] ∧
      (plainCrates.writeUntagged h .empty (.object 0) args).output.bytes = #[1, 7, 2] ∧
      let was := crates.readUntagged 3 .empty ⟨0, [1, 2]⟩ crate.type args
      let was' := plainCrates.readUntagged 3 was.heap ⟨0, [1, 7, 2]⟩ crate.type args
      ∃ w w', was.result = .ok w ∧ was'.result = .ok w' ∧ was'.heap.sameGraph w w' = true := by
  have hportable : crates.Portable ⟨#[⟨crate, [.object 0]⟩]⟩ (.object 0) :=
    portable_of_loop (by simp [Heap.get, Value.Within]) (by simp [Heap.get]) (by decide)
      fun r hr => by
        rw [eq_of_registrations (.make crate .standard .empty none 0) rfl hr]
        exact ⟨rfl, rfl⟩
  have hbytes : (crates.writeUntagged ⟨#[⟨crate, [.object 0]⟩]⟩ .empty (.object 0)
      [.ofType crate.type]).output.bytes = #[1, 2] := by decide +kernel
  have hbytes' : (plainCrates.writeUntagged ⟨#[⟨crate, [.object 0]⟩]⟩ .empty (.object 0)
      [.ofType crate.type]).output.bytes = #[1, 7, 2] := by decide +kernel
  obtain ⟨-, bytes, bytes', hb, hb', hback⟩ := (write_twins standard_crates standard_plainCrates
    twins_crates standard_crates (.refl _) standard_plainCrates (.refl _) hportable .empty
    .empty).2 crate.type [.ofType crate.type] rfl (by decide +kernel)
  rw [hbytes] at hb
  rw [hbytes'] at hb'
  obtain rfl : [1, 2] = bytes := hb
  obtain rfl : [1, 7, 2] = bytes' := hb'
  obtain ⟨w, w', hw, hw', -, hsame⟩ := hback 3 3 (by decide) (by decide) .empty 0 [] 0 []
  exact ⟨hbytes, hbytes', w, w', hw, hw', hsame⟩

end Codec

end GraphCodec
