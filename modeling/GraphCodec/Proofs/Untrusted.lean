import GraphCodec.Proofs.Totality

/-!
# Reading — untrusted input

Where objects keep their identity, a closed codec handles any bytes (`readValue_total`).  Reading
ends, however deep the pass may go; it takes bytes off the front of the input and creates at most
one object for each of them; it never uses an index beyond the list of instances, and never
subtracts more than there is (`readIndexed`).  What it complains about are the bytes.

There is one exception: a type tag may stand for a class of which there are no instances, although
no field is of this class (`not_total`).
-/

namespace GraphCodec.Codec

open Pass

variable {c : Codec} {rs : List RecordSerializer} {k : Nat}

/-! ### The table of numbers -/

/-- Fails with `x` if the innermost number has no place in the list of instances. -/
def indexed (x : Failure) : ReadM Unit := do
  let numbers := (← get).reservations
  if numbers.pending.head?.all fun n => n < numbers.objects.length then return else throw x

section

variable (c : Codec) (x : Failure) (nested : Frame → ReadM Value)

/-- Reads an object as `readRecord` does, with an index in the list of instances. -/
def readRecordIndexed (r : RecordSerializer) : ReadM Value := do
  let own ← ReadM.takeArguments r
  ReadM.inScope (own.map Resolution.scope) do
    let o ← c.readInstance r
    indexed x
    ReadM.reference o
    c.readFields nested r own o 0 r.entries
    return .object o

/-- Reads what stands inside a frame. -/
def readBodyIndexed (f : Frame) : ReadM Value := do
  ReadM.supply f.serializer f.args
  match f.serializer with
  | .record r => c.readRecordIndexed x nested r
  | s => c.readWith nested f.type s

/-- Reads an object, or a number that stands for one; numbers are counted from 2 on. -/
def readMarkedIndexed (nullable : Bool) (body : ReadM Value) : ReadM Value := do
  let code ← ReadM.take Read.varU32
  if code = 1 then
    ReadM.numbered do
      let v ← body
      indexed x
      return v
  else if code = 0 then
    if nullable then return .null else fail (.decode .unexpectedNull)
  else if 2 ≤ code then ReadM.known (code - 2)
  else throw x

end

/-- Reads as `readFramed` does, but fails with `x` where an index is out of range, or where a
difference of numbers is negative. -/
def readIndexed (c : Codec) (x : Failure) : (depth : Nat) → Frame → ReadM Value
  | 0, _ => throw .tooDeep
  | depth + 1, f =>
    let body := c.readBodyIndexed x (c.readIndexed x depth) f
    if f.type.isReference && c.references then readMarkedIndexed x f.nullable body
    else if f.nullable then do
      if ← ReadM.take Read.bool then body else return .null
    else body

/-! ### Nothing is noticed -/

section

variable {P : ArgumentCells → ArgumentCells → Prop}

theorem indexed_run (x : Failure) {st : ReadState} (hst : st.reservations.Inside) :
    indexed x st = (.ok (), st) := by
  have hall : (st.reservations.pending.head?.all fun n => n < st.reservations.objects.length) =
      true := by
    cases hp : st.reservations.pending with
    | nil => rfl
    | cons n rest => simpa using hst n (hp ▸ List.mem_cons_self)
  show (if st.reservations.pending.head?.all fun n => n < st.reservations.objects.length then
    return else throw x : ReadM Unit) st = _
  rw [if_pos hall]
  rfl

theorem agrees_indexed_then (x : Failure) {α : Type} {m m' : ReadM α}
    (hm : Agrees (ReadState.Matches P k) m m') :
    Agrees (ReadState.Matches P k) m (do indexed x; m') := by
  intro st st' hst
  rw [bind_of_ok (indexed_run x (hst.reservations ▸ hst.inside))]
  exact hm st st' hst

theorem agrees_then_indexed (x : Failure) {α : Type} {m m' : ReadM α}
    (hm : Agrees (ReadState.Matches P k) m m') :
    Agrees (ReadState.Matches P k) m (do let v ← m'; indexed x; return v) := by
  have h := agrees_bind hm fun v _ => agrees_indexed_then x (agrees_pure v)
  rwa [bind_pure] at h

theorem agrees_readMarkedIndexed (x : Failure) (nullable : Bool) {body body' : ReadM Value}
    (hb : ∀ j < k, Agrees (ReadState.Matches P j) body body') :
    Agrees (ReadState.Matches P k)
      (do
        match Marker.ofCode (← ReadM.take Read.varU32) with
        | .null => if nullable then return .null else fail (.decode .unexpectedNull)
        | .known number => ReadM.known number
        | .new => ReadM.numbered body)
      (readMarkedIndexed x nullable body') := by
  refine ReadM.agrees_varU32_bind fun code j hj => ?_
  match code with
  | 0 =>
      simp only [Marker.ofCode]
      split
      · exact agrees_pure _
      · exact agrees_fail _
  | 1 => exact ReadM.agrees_numbered (agrees_then_indexed x (hb j hj))
  | number + 2 =>
      simp only [Marker.ofCode]
      rw [if_neg (by omega), if_neg (by omega), if_pos (by omega), Nat.add_sub_cancel]
      exact ReadM.agrees_known _

end

theorem agrees_takeArguments (r : RecordSerializer) :
    Agrees (ReadState.Matches Eq k) (ReadM.takeArguments r) (ReadM.takeArguments r) := by
  refine agrees_get_bind fun st st' hst => ?_
  obtain rfl := hst.eq
  exact agrees_bind (agrees_modify fun st st' hst => by
    obtain rfl := hst.eq
    exact { hst with scopes := rfl, cells := rfl }) fun _ _ => agrees_ofExcept _

theorem agrees_readBodyIndexed (hc : c.Lists rs) (x : Failure)
    {nested nested' : Frame → ReadM Value}
    {f : Frame} (hf : Served rs f.type f.serializer)
    (hn : f.type.isReference = true → ∀ f, Served rs f.type f.serializer →
      Agrees (ReadState.Matches Eq k) (nested f) (nested' f)) :
    Agrees (ReadState.Matches Eq k) (c.readBody nested f) (c.readBodyIndexed x nested' f) := by
  obtain ⟨t, s, args, nullable⟩ := f
  refine agrees_bind (agrees_modify fun st st' hst => ?_) fun _ _ => ?_
  · obtain rfl := hst.eq
    exact { hst with scopes := rfl, cells := rfl }
  · cases hf with
    | stock hs => exact agrees_readStock hs
    | @record r hr =>
        refine agrees_bind (agrees_takeArguments r) fun own _ => ReadM.agrees_inScope _ ?_
        refine agrees_bind (agrees_readInstance hc hr) fun o _ => agrees_indexed_then x ?_
        refine agrees_bind (ReadM.agrees_reference o) fun _ _ => ?_
        exact agrees_bind (agrees_readFields hc (hn rfl) hr own o (fun _ he => he) 0)
          fun _ _ => agrees_pure _

/-- **No index is out of range**, and as many levels as there are bytes are deep enough. -/
theorem agrees_readIndexed (hc : c.Lists rs) (href : c.references = true) (x : Failure) {n m : Nat}
    (hn : k < n) (hm : k < m) (f : Frame) (hf : Served rs f.type f.serializer) :
    Agrees (ReadState.Matches Eq k) (c.readFramed n f) (c.readIndexed x m f) := by
  induction n generalizing k m f with
  | zero => exact absurd hn (Nat.not_lt_zero _)
  | succ n ih =>
      obtain ⟨m, rfl⟩ : ∃ m', m = m' + 1 := ⟨m - 1, by omega⟩
      rw [readFramed_eq_readAround]
      simp only [readAround, readIndexed, href, Bool.and_true]
      split
      · refine agrees_readMarkedIndexed x f.nullable fun j hj => ?_
        exact agrees_readBodyIndexed hc x hf fun _ f hf => ih (by omega) (by omega) f hf
      · next hmarked =>
        have hbody : Agrees (ReadState.Matches Eq k) (c.readBody (c.readFramed n) f)
            (c.readBodyIndexed x (c.readIndexed x m) f) :=
          agrees_readBodyIndexed hc x hf fun h => absurd h hmarked
        split
        · refine agrees_bind (ReadM.agrees_take Read.advances_bool) fun b _ => ?_
          split
          · exact hbody
          · exact agrees_pure _
        · exact hbody

/-! ### Whole passes -/

/-- **Any bytes are handled.**  With references, a closed codec reads every input: the pass ends
well or complains about the bytes, unless a type tag asks for a class without instances.  It takes
bytes off the front of the input, creates at most one object for each of them, and uses no index
that is out of range. -/
theorem readValue_total (hc : c.Standard) (href : c.references = true) (hcl : c.Closed) (g : Heap)
    (input : Input) {depth : Nat} (hd : input.rest.length < depth) :
    ((∃ v, (c.readValue depth g input).result = .ok v) ∨
      ∃ e, (c.readValue depth g input).result = .error (.error e) ∧
        (e.kind = .decode ∨ c.Unmakeable e)) ∧
    (∃ taken, input.rest = taken ++ (c.readValue depth g input).input.rest ∧
      (c.readValue depth g input).input.position = input.position + taken.length ∧
      g.size ≤ (c.readValue depth g input).heap.size ∧
      (c.readValue depth g input).heap.size ≤ g.size + taken.length) ∧
    ∀ x, c.runRead g input (c.readTagged (c.readIndexed x (input.rest.length + 1))) =
      c.readValue depth g input := by
  obtain ⟨rs, hc⟩ := hc.lists
  rcases hrun : c.readTagged (c.readFramed depth) ⟨input, g, .empty, ⟨.empty, c.cells⟩⟩ with ⟨y, st⟩
  have hwas : c.readValue depth g input =
      ⟨y, st.input, st.heap, { c with cells := st.typing.cells }⟩ := runRead_of_run hrun
  rw [hwas]
  have hcopes := copes_readValue hc hcl href g hd
  simp only [Copes, Meets] at hcopes
  rw [hrun] at hcopes
  refine ⟨?_, ?_, fun x => ?_⟩
  · cases y with
    | ok v => exact .inl ⟨v, rfl⟩
    | error e =>
        obtain ⟨-, e, rfl, he⟩ := hcopes
        exact .inr ⟨e, rfl, he⟩
  · cases y with
    | ok v => exact hcopes.bounds
    | error e => exact hcopes.1.bounds
  · have h := agrees_readTagged hc
      (agrees_readIndexed hc href x hd (Nat.lt_succ_self input.rest.length))
      ⟨input, g, .empty, ⟨.empty, c.cells⟩⟩ _
      ⟨rfl, rfl, rfl, rfl, rfl, le_rfl, List.forall_mem_nil _⟩
    rw [hrun] at h
    exact runRead_of_run (Prod.ext h.1 h.2.eq)

/-! ### Codecs with one class -/

/-- Links lead to links only. -/
theorem closed_links : links.Closed := by
  refine ⟨fun owner r hr f hf => ?_, fun owner r hr e he p hp => ?_⟩ <;>
    obtain rfl := eq_of_registrations (.make link .standard .empty none 0) rfl hr
  · simp only [RecordSerializerOf.make, link, List.mem_cons, List.not_mem_nil, or_false] at hf
    rcases hf with rfl | rfl
    · refine .fixed ?_
      rintro _ ⟨⟩
      exact ⟨_, record_links, rfl⟩
    · exact .fixed fun owner ho => by cases ho
  · have h : ∀ e ∈ (RecordSerializerOf.make link .standard .empty none 0).entries,
        e.valueType = none := by decide
    rw [h e he] at hp
    cases hp

/-- Bytes that end in the middle of a link: the link that was begun has been created. -/
theorem readValue_total_links :
    (links.readValue 3 .empty ⟨0, [7, 1]⟩).result =
        .error (.error (.inField link.id "next" (.decode (.unexpectedEnd 2 1)))) ∧
      ∃ taken, [7, 1] = taken ++ (links.readValue 3 .empty ⟨0, [7, 1]⟩).input.rest ∧
        (links.readValue 3 .empty ⟨0, [7, 1]⟩).heap.size ≤ taken.length := by
  have htotal := readValue_total standard_links rfl closed_links .empty ⟨0, [7, 1]⟩
    (show 2 < 3 by decide)
  obtain ⟨taken, hb, -, -, hsize⟩ := htotal.2.1
  exact ⟨by decide +kernel, taken, hb, by simpa [Heap.size, Heap.empty] using hsize⟩

/-- A class of which there are no instances. -/
def handle : ClassDecl := ⟨⟨"demo::Handle"⟩, ⟨[]⟩, [], false⟩

/-- A codec with this class only. -/
def handles : Codec := (new.registerClass handle .standard).2

theorem standard_handles : handles.Standard :=
  .registerClass .new (by unfold ClassDecl.Unbound; decide) (.inr (.inl rfl))

/-- **A tag can ask for an instance of a class without instances**, even if no field does. -/
theorem not_total : ¬ ∀ c : Codec, c.Standard → c.references = true → c.Closed →
    ∀ (g : Heap) (input : Input) (depth : Nat), input.rest.length < depth →
      (∃ v, (c.readValue depth g input).result = .ok v) ∨
        ∃ e, (c.readValue depth g input).result = .error (.error e) ∧ e.kind = .decode := by
  intro h
  have hclosed : handles.Closed := by
    refine ⟨fun owner r hr => ?_, fun owner r hr => ?_⟩ <;>
      obtain rfl := eq_of_registrations (.make handle .standard .empty none 0) rfl hr <;>
        exact nofun
  have hresult : (handles.readValue 3 .empty ⟨0, [7, 1]⟩).result =
      .error (.error (.construction handle.id "class has no zero-argument construction")) := by
    decide +kernel
  rcases h handles standard_handles rfl hclosed .empty ⟨0, [7, 1]⟩ 3 (by decide) with
    ⟨v, hv⟩ | ⟨e, he, hkind⟩
  · rw [hresult] at hv
    cases hv
  · rw [hresult] at he
    cases he
    cases hkind

end GraphCodec.Codec
