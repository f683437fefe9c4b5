import GraphCodec.Proofs.Recovery
import GraphCodec.Proofs.Shortfall

/-!
# Reading — every truncation is detected

What was written for a value cannot be read if bytes are missing at its end.  Reading follows the
full run up to the first byte that is missing, and fails there with an error that says so, and that
says how many bytes are missing at least: never more than really are (`read_truncated`).  It follows
that nothing that was written begins something else that was written.
-/

namespace GraphCodec.Codec

open Pass

/-- The bytes were added to the output. -/
def Written.Adds (written : Written) (out : Output) (bytes : List UInt8) : Prop :=
  written.output.bytes.toList = out.bytes.toList ++ bytes

/-- If writing has ended well, no strict prefix `p` of the bytes can be read: below all fields on
the way, the error is that at least `needed` bytes are missing, and no fewer are. -/
def DetectsCuts (h : Heap) (out : Output) (written : Written)
    (read : Nat → Heap → Input → WasRead) : Prop :=
  written.result = .ok () →
    ∃ bytes, written.Adds out bytes ∧
      ∀ depth, writeDepth h ≤ depth → ∀ g position p q, bytes = p ++ q → q ≠ [] →
        ∃ e place needed, (read depth g ⟨position, p⟩).result = .error (.error e) ∧
          e.root = .decode (.unexpectedEnd place needed) ∧ 1 ≤ needed ∧
          p.length + needed ≤ bytes.length

/-- If writing has ended well both times, the bytes of the first time do not begin other ones of the
second time. -/
def NeverContinues (out : Output) (written : Written) (out' : Output) (written' : Written) : Prop :=
  written.result = .ok () → written'.result = .ok () →
    ∀ bytes bytes', written.Adds out bytes → written'.Adds out' bytes' →
      bytes <+: bytes' → bytes = bytes'

variable {c k : Codec} {h h' : Heap} {v v' : Value} {out out' : Output}

theorem Alike.symm (hck : c.Alike k) : k.Alike c := by
  obtain ⟨cells, rfl⟩ := hck
  exact ⟨c.cells, rfl⟩

/-- Where the pass of reading senses missing bytes, it detects that they are missing. -/
theorem Returns.detectsCuts {written : Written} {m : Nat → ReadM Value}
    (hback : c.Returns h v out written fun depth g input => k.runRead g input (m depth))
    (hm : ∀ depth, Senses (m depth)) :
    DetectsCuts h out written fun depth g input => k.runRead g input (m depth) := by
  intro hw
  obtain ⟨bytes, hb, hread⟩ := hback hw
  refine ⟨bytes, hb, fun depth hd g position p q hpq hq => ?_⟩
  obtain ⟨hi, w, hres⟩ := hread depth hd g position []
  have hres := hres.result
  rw [List.append_nil, hpq] at hi hres
  simp only at hi hres ⊢
  rcases hcut : m depth ⟨⟨position, p⟩, g, .empty, ⟨.empty, k.cells⟩⟩ with ⟨x, st⟩
  have hfull : m depth ⟨⟨position, p ++ q⟩, g, .empty, ⟨.empty, k.cells⟩⟩ =
      m depth (ReadState.extend ⟨⟨position, p⟩, g, .empty, ⟨.empty, k.cells⟩⟩ q) := rfl
  rw [runRead_of_run hcut]
  cases x with
  | ok a =>
      -- then the full run would have left `q`
      rw [runRead_of_run (hfull.trans ((hm depth).ok q hcut))] at hi
      have hnil : st.input.rest ++ q = [] := congrArg Input.rest hi
      exact absurd (List.append_eq_nil_iff.mp hnil).2 hq
  | error e =>
      rcases (hm depth).error q hcut with hsame | ⟨e, place, needed, rfl, hroot, hn, hok⟩
      · rw [runRead_of_run (hfull.trans hsame)] at hres
        cases hres
      · refine ⟨e, place, needed, rfl, hroot, hn, ?_⟩
        rcases hrun : m depth (ReadState.extend ⟨⟨position, p⟩, g, .empty, ⟨.empty, k.cells⟩⟩ q)
          with ⟨y, st'⟩
        rw [runRead_of_run (hfull.trans hrun)] at hi hres
        obtain rfl : y = .ok w := hres
        -- the full run has left nothing
        have hlen := hok w st' hrun
        rw [show st'.input.rest = [] from congrArg Input.rest hi, List.length_nil] at hlen
        rw [hpq, List.length_append]
        omega

/-- What can be read back by one reader is never continued. -/
theorem Returns.neverContinues {written written' : Written} {read : Nat → Heap → Input → WasRead}
    (hback : c.Returns h v out written read) (hback' : k.Returns h' v' out' written' read) :
    NeverContinues out written out' written' := by
  intro hw hw' bytes bytes' hb hb' hpre
  obtain ⟨_, hb₁, hread⟩ := hback hw
  obtain ⟨_, hb₂, hread'⟩ := hback' hw'
  obtain rfl := List.append_cancel_left (hb.symm.trans hb₁)
  obtain rfl := List.append_cancel_left (hb'.symm.trans hb₂)
  obtain ⟨q, rfl⟩ := hpre
  -- the same run leaves what follows, and leaves nothing
  have hi := (hread _ (Nat.le_max_left _ (writeDepth h')) .empty 0 q).1
  have hi' := (hread' _ (Nat.le_max_right (writeDepth h) _) .empty 0 []).1
  rw [List.append_nil, hi] at hi'
  have hq : q = [] := congrArg Input.rest hi'
  rw [hq, List.append_nil]

/-- **Every truncation is detected.**  What is below the values can be made again, and the codecs
were set up alike.  No strict prefix of what was written for `v` can be read, and what was written
for `v` does not begin what was written for another value `v'`: with a type tag, or without one of
values of the same type with the same type arguments. -/
theorem read_truncated (hc : c.Standard) (hk : k.Standard) (hck : c.Alike k)
    (hp : c.Portable h v) (out : Output) :
    (DetectsCuts h out (c.writeValue h out v) k.readValue ∧
      ∀ t args, h.typeOf v = some t →
        DetectsCuts h out (c.writeUntagged h out v args) fun depth g input =>
          k.readUntagged depth g input t args) ∧
    ∀ {h' : Heap} {v' : Value}, k.Portable h' v' → ∀ out',
      NeverContinues out (c.writeValue h out v) out' (k.writeValue h' out' v') ∧
      ∀ t args, h.typeOf v = some t → h'.typeOf v' = some t →
        NeverContinues out (c.writeUntagged h out v args) out' (k.writeUntagged h' out' v' args) := by
  obtain ⟨rs, hlists⟩ := hk.lists
  obtain ⟨htagged, huntagged⟩ := hp.returns hc hk hck out
  have hframed := senses_readFramed hlists
  refine ⟨⟨?_, fun t args ht => ?_⟩, fun {h' v'} hp' out' => ⟨?_, fun t args ht ht' => ?_⟩⟩
  · exact htagged.detectsCuts fun depth => senses_readTagged hlists (hframed depth)
  · exact (huntagged t args ht).detectsCuts fun depth =>
      senses_readFlat hlists (hframed depth) t args
  · exact htagged.neverContinues (hp'.returns hk hk (.refl k) out').1
  · exact (huntagged t args ht).neverContinues ((hp'.returns hk hk (.refl k) out').2 t args ht')

/-- The marker of a link was written, and not what it leads to. -/
theorem read_truncated_links :
    let h : Heap := ⟨#[⟨link, [.object 0, .int 5]⟩]⟩
    (links.writeValue h .empty (.object 0)).output.bytes = #[7, 1, 2] ∧
      ∃ e place needed, (links.readValue 3 .empty ⟨0, [7, 1]⟩).result = .error (.error e) ∧
        e.root = .decode (.unexpectedEnd place needed) ∧ 1 ≤ needed ∧ 2 + needed ≤ 3 := by
  have hportable : links.Portable ⟨#[⟨link, [.object 0, .int 5]⟩]⟩ (.object 0) :=
    portable_of_loop (by simp [Heap.get, Value.Within]) (by simp [Heap.get]) (by decide)
      fun r hr => by
        rw [eq_of_registrations (.make link .standard .empty none 0) rfl hr]
        exact ⟨rfl, rfl⟩
  have hbytes :
      (links.writeValue ⟨#[⟨link, [.object 0, .int 5]⟩]⟩ .empty (.object 0)).output.bytes =
        #[7, 1, 2] := by decide +kernel
  obtain ⟨bytes, hb, hcuts⟩ := (read_truncated standard_links standard_links (.refl _) hportable
    .empty).1.1 (by decide +kernel)
  unfold Written.Adds at hb
  rw [hbytes] at hb
  obtain rfl : [7, 1, 2] = bytes := hb
  exact ⟨hbytes, hcuts 3 (by decide) .empty 0 [7, 1] [2] rfl (List.cons_ne_nil _ _)⟩

end GraphCodec.Codec
