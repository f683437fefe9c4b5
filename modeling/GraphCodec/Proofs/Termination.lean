import GraphCodec.Proofs.Unfolding
import GraphCodec.Proofs.Weight

/-!
# Reading — termination without references

Where objects do not keep their identity, nothing in the bytes bounds how deep objects nest: an
object whose place must not be null starts with no byte of its own.  Reading comes to an end if no
object that it can get into falls on and on (`Grounded`), by induction on the bytes that are left,
and for the same number of bytes along the falls.  If the object that is asked for falls on and on,
reading never comes to an end, whatever the input is (`read_terminates`).

There are such classes: the one of a loop has a field that must hold another loop
(`not_terminating`).
-/

namespace GraphCodec

namespace Pass

variable {σ α β : Type} {m : Nat → Pass σ α} {st : σ}

/-- From some depth on, the pass ends in the same way, and not because it gets too deep. -/
def Settles (m : Nat → Pass σ α) (st : σ) : Prop :=
  ∃ N y, y.1 ≠ .error .tooDeep ∧ ∀ n, N ≤ n → m n st = y

theorem settles_of_ne {m : Pass σ α} (h : (m st).1 ≠ .error .tooDeep) : Settles (fun _ => m) st :=
  ⟨0, _, h, fun _ _ => rfl⟩

theorem settles_pure (a : α) : Settles (fun _ => (pure a : Pass σ α)) st := settles_of_ne nofun

theorem settles_fail (e : CodecError) : Settles (fun _ => (fail e : Pass σ α)) st :=
  settles_of_ne nofun

theorem settles_ofExcept (x : Except CodecError α) :
    Settles (fun _ => (ofExcept x : Pass σ α)) st := by
  cases x with
  | error e => exact settles_fail e
  | ok a => exact settles_pure a

theorem settles_succ (h : Settles (fun n => m (n + 1)) st) : Settles m st := by
  obtain ⟨N, y, hy, hN⟩ := h
  refine ⟨N + 1, y, hy, fun n hn => ?_⟩
  obtain ⟨n, rfl⟩ : ∃ k, n = k + 1 := ⟨n - 1, by omega⟩
  exact hN n (by omega)

theorem settles_bind {k : Nat → α → Pass σ β} (hm : Settles m st)
    (hk : ∀ n a st', m n st = (.ok a, st') → Settles (fun n => k n a) st') :
    Settles (fun n => m n >>= k n) st := by
  obtain ⟨N, ⟨x, st'⟩, hx, hN⟩ := hm
  cases x with
  | error e =>
      refine ⟨N, (.error e, st'), fun h => hx ?_, fun n hn => bind_of_error (hN n hn) (k n)⟩
      cases h
      rfl
  | ok a =>
      obtain ⟨M, y, hy, hM⟩ := hk N a st' (hN N le_rfl)
      exact ⟨max N M, y, hy, fun n hn =>
        (bind_of_ok (hN n ((Nat.le_max_left N M).trans hn)) (k n)).trans
          (hM n ((Nat.le_max_right N M).trans hn))⟩

theorem settles_get_bind {k : Nat → σ → Pass σ β} (hk : Settles (fun n => k n st) st) :
    Settles (fun n => get >>= k n) st := hk

theorem settles_inField (owner : ClassId) (field : String) (hm : Settles m st) :
    Settles (fun n => inField owner field (m n)) st := by
  obtain ⟨N, ⟨x, st'⟩, hx, hN⟩ := hm
  rcases x with (e | _) | a
  · exact ⟨N, (.error (.error (.inField owner field e)), st'), nofun, fun n hn =>
      inField_error (hN n hn)⟩
  · exact absurd rfl hx
  · exact ⟨N, (.ok a, st'), nofun, fun n hn => inField_ok (hN n hn)⟩

end Pass

namespace Codec

open Pass

variable {α : Type} {c : Codec} {rs : List RecordSerializer} {st : ReadState} {s : Opening}
  {own : Option TypeScope} {e : FieldEntry}

/-! ### Parts of a pass -/

theorem settles_inScope (scope : Option TypeScope) {m : Nat → ReadM α}
    (hm : Settles m { st with typing := st.typing.enter scope }) :
    Settles (fun n => ReadM.inScope scope (m n)) st := by
  obtain ⟨N, ⟨x, st'⟩, hx, hN⟩ := hm
  refine ⟨N, (x, { st' with typing := st'.typing.leave scope }), hx, fun n hn => ?_⟩
  simp only [ReadM.inScope, hN n hn]

theorem settles_take (r : Read α) : Settles (fun _ => ReadM.take r) st := by
  refine settles_of_ne ?_
  simp only [ReadM.take]
  rcases r.onInput st.input with ⟨_ | a, j⟩ <;> simp

theorem settles_readTag : Settles (fun _ => c.readTag) st := by
  refine settles_get_bind (settles_bind (settles_take _) fun _ n st' _ => ?_)
  cases n with
  | zero => exact settles_pure _
  | succ n =>
      simp only
      split
      · exact settles_pure _
      · exact settles_fail _

theorem settles_number (e : FieldEntry) (r : Read α) (f : α → Value) :
    Settles (fun _ => do if ← readPresence e then return f (← ReadM.take r) else return .null)
      st := by
  have hpresence : Settles (fun _ => readPresence e) st := by
    simp only [readPresence]
    split
    · exact settles_take _
    · exact settles_pure _
  refine settles_bind hpresence fun _ b st' _ => ?_
  split
  · exact settles_bind (settles_take _) fun _ _ _ _ => settles_pure _
  · exact settles_pure _

theorem settles_readStock {nested : Nat → Frame → ReadM Value} {t : ValueType} {x : Stock}
    (hx : t.stock? = some x) : Settles (fun n => c.readStock (nested n) t x) st := by
  cases t <;> cases hx <;>
    exact settles_bind (settles_take _) fun _ _ _ _ => settles_pure _

theorem settles_putField (e : FieldEntry) (o : ObjectId) (v : Value) :
    Settles (fun _ => putField e o v) st := by
  simp only [putField]
  split
  · exact settles_fail _
  · exact settles_get_bind (settles_bind (settles_ofExcept _) fun _ _ _ _ =>
      settles_of_ne (by simp [modify_run]))

/-! ### Objects -/

/-- What stands in a frame settles if the objects do for which it can be a frame: they are read
where the frame stands, or after a byte. -/
theorem settles_frame (hr : c.references = false) {f : Frame} (hf : Served rs f.type f.serializer)
    (hbody : ∀ s st', f.Opens st.typing.scopes s → s.record ∈ rs →
      st'.typing.scopes = st.typing.scopes →
      (f.nullable = false ∧ st' = st ∨ st'.input.rest.length < st.input.rest.length) →
      Settles (fun n => c.readRecordDirect (c.readDirect n) s.record s.args) st') :
    Settles (fun n => c.readDirect n f) st := by
  refine settles_succ ?_
  simp only [readDirect_succ hr]
  have hinside : ∀ st', st'.typing.scopes = st.typing.scopes →
      (f.nullable = false ∧ st' = st ∨ st'.input.rest.length < st.input.rest.length) →
      Settles (fun n => c.readWithDirect (c.readDirect n) f.type f.args f.serializer) st' := by
    intro st' hscopes hst'
    rcases f.stock_or_opens hf st.typing.scopes with ⟨x, hx, hser⟩ | ⟨s, hopens, hs⟩
    · rw [hser]
      exact settles_readStock hx
    · simp only [readWithDirect_of_opens hopens]
      exact hbody s st' hopens hs hscopes hst'
  cases hnull : f.nullable with
  | true =>
      refine settles_bind (settles_take _) fun n b st' hb => ?_
      obtain ⟨hscopes, hlt | ⟨-, hfalse⟩⟩ := takes_take Read.bites_bool b st' hb
      · split
        · exact hinside st' hscopes (.inr hlt)
        · exact settles_pure _
      · exact hfalse.elim
  | false => exact hinside st rfl (.inl ⟨hnull, rfl⟩)

section

variable (hc : c.Lists rs) (hr : c.references = false) (hs : s.record ∈ rs) {k : Nat}
  (hless : ∀ s', c.Leads s s' → ∀ st : ReadState, st.typing.scopes = s'.scopes →
    st.input.rest.length < k →
      Settles (fun n => c.readRecordDirect (c.readDirect n) s'.record s'.args) st)
  (hfall : ∀ s', c.Falls s s' → ∀ st : ReadState, st.typing.scopes = s'.scopes →
    st.input.rest.length ≤ k →
      Settles (fun n => c.readRecordDirect (c.readDirect n) s'.record s'.args) st)
  (hown : s.record.bindings s.args = .ok own) (hmade : s.record.decl.constructible = true)
include hc hr hs hless hfall hown hmade

/-- A field settles that is reached after a byte, or behind fields that hold weightless objects. -/
theorem settles_readPlanned {before after : FieldTable}
    (hentries : s.record.entries = before ++ e :: after) (hser : e.serialized = true)
    (hst : st.typing.scopes = s.scopes.enter own)
    (hleft : st.input.rest.length < k ∨ st.input.rest.length ≤ k ∧
      ∀ e' ∈ before, e'.serialized = true → c.HoldsWeightless s own e') {p : Plan}
    (hplan : c.planIn s own e = .ok p) :
    Settles (fun n => c.readPlanned (c.readDirect n) e p) st := by
  have he : e ∈ s.record.entries := by simp [hentries]
  have hle : st.input.rest.length ≤ k := hleft.elim Nat.le_of_lt And.left
  cases p with
  | int => exact settles_number e _ Value.int
  | long => exact settles_number e _ Value.long
  | dynamic =>
      refine settles_bind settles_readTag fun _ x st₁ hx => ?_
      cases x with
      | none => exact settles_pure _
      | some x =>
          obtain ⟨hscopes, hlt | ⟨-, hfalse⟩⟩ := takes_readTag _ st₁ hx
          · obtain ⟨n, hat⟩ := registrationAt?_of_readTag ⟨st, st₁, hx⟩
            refine settles_frame hr (hc.served_of_registrationAt? hat)
              fun s' st₂ hopens _ hscopes' hst₂ => ?_
            rw [hscopes, hst] at hopens
            refine hless s' ⟨own, e, x.frame, hown, he, .inr ⟨hplan, n, x, hat, rfl⟩, hopens⟩
              st₂ ?_ ?_
            · rw [hscopes', hscopes, hst, hopens.scopes]
            · rcases hst₂ with ⟨-, rfl⟩ | hlt' <;> omega
          · exact hfalse.elim
  | known f =>
      refine settles_frame hr (served_of_planIn hc hs he hplan).1
        fun s' st₁ hopens _ hscopes hst₁ => ?_
      rw [hst] at hopens
      have hscopes' : st₁.typing.scopes = s'.scopes := by rw [hscopes, hst, hopens.scopes]
      have hlead : c.Leads s s' := ⟨own, e, f, hown, he, .inl hplan, hopens⟩
      rcases hst₁ with ⟨hnull, rfl⟩ | hlt
      · rcases hleft with hlt | ⟨-, hbefore⟩
        · exact hless s' hlead st₁ hscopes' hlt
        · exact hfall s' ⟨own, before, e, after, hown, hmade, hentries, hser,
            ⟨f, hplan, hnull, hopens⟩, hbefore⟩ st₁ hscopes' hle
      · exact hless s' hlead st₁ hscopes' (by omega)

theorem settles_readField {before after : FieldTable}
    (hentries : s.record.entries = before ++ e :: after) (hser : e.serialized = true)
    (hst : st.typing.scopes = s.scopes.enter own)
    (hleft : st.input.rest.length < k ∨ st.input.rest.length ≤ k ∧
      ∀ e' ∈ before, e'.serialized = true → c.HoldsWeightless s own e') (o : ObjectId) :
    Settles (fun n => c.readField (c.readDirect n) e o
      (s.record.fieldType own st.typing.scopes e)) st := by
  simp only [readField_eq_planIn _ o hst]
  refine settles_bind (settles_bind (settles_ofExcept _) fun _ p st' hp => ?_)
    fun _ v _ _ => settles_putField e o v
  obtain ⟨hplan, rfl⟩ := ofExcept_eq_ok.mp hp
  exact settles_readPlanned hc hr hs hless hfall hown hmade hentries hser hst hleft hplan

theorem settles_readFieldsDirect {before t : FieldTable} (hentries : s.record.entries = before ++ t)
    (hst : st.typing.scopes = s.scopes.enter own)
    (hleft : st.input.rest.length < k ∨ st.input.rest.length ≤ k ∧
      ∀ e' ∈ before, e'.serialized = true → c.HoldsWeightless s own e') (o : ObjectId) :
    Settles (fun n => c.readFieldsDirect (c.readDirect n) s.record own o t) st := by
  induction t generalizing before st with
  | nil => exact settles_pure _
  | cons e t ih =>
      have hnext : s.record.entries = (before ++ [e]) ++ t := by simp [hentries]
      have he : e ∈ s.record.entries := by simp [hentries]
      simp only [readFieldsDirect]
      split
      · next hser =>
        refine settles_get_bind (settles_bind (settles_inField _ _ (settles_readField hc hr hs hless
          hfall hown hmade hentries hser hst hleft o)) fun n _ st' h => ?_)
        have htakes := takes_readField hc (fun f st => takes_readDirect hc hr n f st) hs
          he hst o
        obtain ⟨hscopes, hinput⟩ := htakes _ st' (inField_eq_ok.mp h)
        refine ih hnext (hscopes.trans hst) ?_
        -- a byte was taken by now, or the field holds a weightless object as well
        rcases hinput with hlt | ⟨hi, hfield⟩
        · exact .inl (by rcases hleft with h | ⟨h, -⟩ <;> omega)
        · rw [hi]
          refine hleft.imp_right (And.imp_right fun hbefore => ?_)
          exact List.forall_mem_append.mpr ⟨hbefore, by simpa using fun _ => hfield⟩
      · next hser =>
        refine ih hnext hst (hleft.imp_right (And.imp_right fun hbefore => ?_))
        exact List.forall_mem_append.mpr ⟨hbefore, by simp [hser]⟩

end

/-- The walk itself: by induction on the bytes that are left, and along the falls. -/
theorem settles_readRecordDirect (hc : c.Lists rs) (hr : c.references = false) :
    ∀ k s, s.record ∈ rs → c.Grounded s → ∀ st : ReadState, st.typing.scopes = s.scopes →
      st.input.rest.length ≤ k →
        Settles (fun n => c.readRecordDirect (c.readDirect n) s.record s.args) st := by
  intro k
  induction k using Nat.strong_induction_on with
  | _ k ihk =>
      intro s hs hg
      induction hg s .refl with
      | intro s _ ihs =>
          intro st hst hle
          have hless : ∀ s', c.Leads s s' → ∀ st : ReadState, st.typing.scopes = s'.scopes →
              st.input.rest.length < k →
                Settles (fun n => c.readRecordDirect (c.readDirect n) s'.record s'.args) st :=
            fun s' hlead st' hst' hlt => ihk _ hlt s' (hlead.record_mem hc hs) (hg.leads hlead) st'
              hst' le_rfl
          have hfall : ∀ s', c.Falls s s' → ∀ st : ReadState, st.typing.scopes = s'.scopes →
              st.input.rest.length ≤ k →
                Settles (fun n => c.readRecordDirect (c.readDirect n) s'.record s'.args) st :=
            fun s' hf => ihs s' hf (hf.leads.record_mem hc hs) (hg.leads hf.leads)
          cases hown : s.record.bindings s.args with
          | error x =>
              simp only [readRecordDirect, hown]
              exact settles_fail _
          | ok own =>
              cases hmade : s.record.decl.constructible with
              | true =>
                  have hfields : ∀ st' : ReadState, st'.input = st.input →
                      st'.typing.scopes = s.scopes.enter own → Settles (fun n =>
                        c.readFieldsDirect (c.readDirect n) s.record own st.heap.size
                          s.record.entries) st' := by
                    intro st' hinput hscopes
                    have hentries : s.record.entries = [] ++ s.record.entries := rfl
                    exact settles_readFieldsDirect hc hr hs hless hfall hown hmade hentries hscopes
                      (.inr ⟨hinput ▸ hle, List.forall_mem_nil _⟩) _
                  simp only [Settles, readRecordDirect_run hc hs hown hmade]
                  exact settles_inScope own (settles_bind (hfields _ rfl
                    (congrArg (ScopeStack.enter · own) hst)) fun _ _ _ _ => settles_pure _)
              | false =>
                  simp only [readRecordDirect, hown, Except.mapError, Pass.ofExcept, pure_bind]
                  refine settles_inScope own (settles_bind (settles_of_ne ?_) fun _ o st' h => ?_)
                  · simp [readInstance_eq hc hs, hmade]
                  · rw [readInstance_eq hc hs, hmade] at h
                    cases h

/-! ### Whole passes -/

/-- From some depth on reading ends in the same way, with a value or with an error. -/
def Terminates (read : Nat → WasRead) : Prop :=
  ∃ N, (read N).result ≠ .error .tooDeep ∧ ∀ n, N ≤ n → (read n).result = (read N).result ∧
    (read n).input = (read N).input ∧ (read n).heap = (read N).heap

section

variable (hc : c.Lists rs) (hr : c.references = false)
include hc hr

theorem settles_readTagged (hst : st.typing.scopes = .empty)
    (hg : ∀ n x r, c.registrationAt? n = some x → x.serializer = .record r →
      c.Grounded ⟨r, [], .empty⟩) :
    Settles (fun n => c.readTagged (c.readDirect n)) st := by
  refine settles_bind settles_readTag fun _ x st₁ hx => ?_
  cases x with
  | none => exact settles_pure _
  | some x =>
      obtain ⟨hscopes, -⟩ := takes_readTag _ st₁ hx
      obtain ⟨n, hat⟩ := registrationAt?_of_readTag ⟨st, st₁, hx⟩
      refine settles_frame hr (hc.served_of_registrationAt? hat) fun s st₂ hopens hs hst₂ _ => ?_
      obtain ⟨record, args, scopes⟩ := s
      obtain ⟨hrecord, rfl, rfl⟩ := hopens
      refine settles_readRecordDirect hc hr _ _ hs ?_ st₂ hst₂ le_rfl
      rw [hscopes, hst]
      exact hg n x record hat hrecord

theorem settles_readFlat (hst : st.typing.scopes = .empty) (t : ValueType)
    (args : List ConcreteType)
    (hg : ∀ r, c.serializer t = .ok (.record r) → c.Grounded ⟨r, args, .empty⟩) :
    Settles (fun n => c.readFlat (c.readDirect n) t args) st := by
  simp only [readFlat]
  cases hser : c.serializer t with
  | error e => exact settles_fail _
  | ok x =>
      refine settles_frame hr (hc.served_of_serializer hser) fun s st₂ hopens hs hst₂ _ => ?_
      obtain ⟨record, args', scopes⟩ := s
      obtain ⟨rfl, hargs, rfl⟩ := hopens
      obtain rfl : args = args' := hargs
      refine settles_readRecordDirect hc hr _ _ hs ?_ st₂ hst₂ le_rfl
      rw [hst]
      exact hg record hser

theorem sinks_readFlat {t : ValueType} {r : RecordSerializer} {args : List ConcreteType} {n : Nat}
    (hst : st.typing.scopes = .empty) (hser : c.serializer t = .ok (.record r))
    (hfall : ¬ Acc (fun a b => c.Falls b a) ⟨r, args, .empty⟩) :
    Sinks (c.readFlat (c.readDirect n) t args) st := by
  have hopens : (Frame.mk t (.record r) args false).Opens st.typing.scopes ⟨r, args, .empty⟩ :=
    ⟨rfl, rfl, hst.symm⟩
  simp only [readFlat, hser]
  exact sinks_readDirect hc hr n rfl hopens
    (hopens.record_mem (hc.served_of_serializer hser)) hfall

theorem sinks_readTagged {x : Registration} {r : RecordSerializer} {n m : Nat} {j : Input}
    (hst : st.typing.scopes = .empty) (htag : Read.varU32.onInput st.input = (.ok (m + 1), j))
    (hat : c.registrationAt? m = some x) (hser : x.serializer = .record r)
    (hfall : ¬ Acc (fun a b => c.Falls b a) ⟨r, [], .empty⟩) :
    Sinks (c.readTagged (c.readDirect n)) st := by
  have hopens : x.frame.Opens st.typing.scopes ⟨r, [], .empty⟩ := ⟨hser, rfl, hst.symm⟩
  have htake : ReadM.take Read.varU32 st = (.ok (m + 1), { st with input := j }) := by
    simp only [ReadM.take, htag]
  have hread : c.readTag st = (.ok (some x), { st with input := j }) := by
    simp only [readTag]
    exact (bind_of_ok htake _).trans (by simp only [hat]; rfl)
  rw [Sinks, readTagged, bind_of_ok hread]
  exact sinks_readDirect hc hr n rfl hopens
    (hopens.record_mem (hc.served_of_registrationAt? hat)) hfall

end

section

variable (hc : c.Lists rs) (h : Heap) (input : Input) {m m' : Nat → ReadM Value}
  (hm : ∀ n, Agrees (ReadState.Matches (QuietFirst rs) input.rest.length) (m n) (m' n))
include hc hm

theorem terminates_of_settles (hs : Settles m' ⟨input, h, .empty, ⟨.empty, c.cells⟩⟩) :
    Terminates fun n => c.runRead h input (m n) := by
  obtain ⟨N, y, hy, hN⟩ := hs
  have hrun : ∀ n, N ≤ n → (c.runRead h input (m n)).result = y.1 ∧
      (c.runRead h input (m n)).input = y.2.input ∧ (c.runRead h input (m n)).heap = y.2.heap := by
    intro n hn
    obtain ⟨h₁, h₂⟩ := hm n _ _ (matches_start hc h input)
    rw [hN n hn] at h₁ h₂
    exact ⟨h₁.symm, h₂.input.symm, h₂.heap.symm⟩
  obtain ⟨hresult, hinput, hheap⟩ := hrun N le_rfl
  refine ⟨N, hresult ▸ hy, fun n hn => ?_⟩
  rw [hresult, hinput, hheap]
  exact hrun n hn

theorem tooDeep_of_sinks {n : Nat} (hs : Sinks (m' n) ⟨input, h, .empty, ⟨.empty, c.cells⟩⟩) :
    (c.runRead h input (m n)).result = .error .tooDeep :=
  (hm n _ _ (matches_start hc h input)).1.symm.trans hs

end

/-- **Reading without references terminates where nothing falls on and on**, whatever the bytes
are.  What is asked for and falls on and on is never read. -/
theorem read_terminates (hc : c.Standard) (hr : c.references = false) (h : Heap) (input : Input) :
    ((∀ n x r, c.registrationAt? n = some x → x.serializer = .record r →
        c.Grounded ⟨r, [], .empty⟩) → Terminates fun depth => c.readValue depth h input) ∧
      (∀ t args, (∀ r, c.serializer t = .ok (.record r) → c.Grounded ⟨r, args, .empty⟩) →
        Terminates fun depth => c.readUntagged depth h input t args) ∧
      (∀ n x r j, Read.varU32.onInput input = (.ok (n + 1), j) → c.registrationAt? n = some x →
        x.serializer = .record r → ¬ Acc (fun a b => c.Falls b a) ⟨r, [], .empty⟩ →
          ∀ depth, (c.readValue depth h input).result = .error .tooDeep) ∧
      ∀ t args r, c.serializer t = .ok (.record r) →
        ¬ Acc (fun a b => c.Falls b a) ⟨r, args, .empty⟩ →
          ∀ depth, (c.readUntagged depth h input t args).result = .error .tooDeep := by
  obtain ⟨rs, hlists⟩ := hc.lists
  have hread : ∀ depth k f, _ := fun depth k f =>
    agrees_readDirect (k := k) hlists c.cells depth f
  have htagged := fun n => agrees_readTagged hlists (hread n input.rest.length)
  have hflat := fun t args n => agrees_readFlat hlists (hread n input.rest.length) t args
  refine ⟨fun hg => ?_, fun t args hg => ?_, fun n x r j htag hat hser hfall depth => ?_,
    fun t args r hser hfall depth => ?_⟩
  · exact terminates_of_settles hlists h input htagged (settles_readTagged hlists hr rfl hg)
  · exact terminates_of_settles hlists h input (hflat t args)
      (settles_readFlat hlists hr rfl t args hg)
  · exact tooDeep_of_sinks hlists h input htagged
      (sinks_readTagged hlists hr rfl htag hat hser hfall)
  · exact tooDeep_of_sinks hlists h input (hflat t args) (sinks_readFlat hlists hr rfl hser hfall)

/-! ### A codec that never gets to an end -/

/-- A class whose instances must lead to another one. -/
def loop : ClassDecl where
  id := ⟨"demo::Loop"⟩
  params := ⟨[]⟩
  fields := [⟨"next", .fixed (.object ⟨"demo::Loop"⟩), .ofList [.notNull]⟩]
  constructible := true

/-- A codec with this class only, whose objects do not keep their identity. -/
def loops : Codec := (new.registerClass loop .standard).2.setReferences false

theorem standard_loops : loops.Standard :=
  .setReferences (.registerClass .new (by unfold ClassDecl.Unbound; decide) (.inr (.inl rfl))) false

/-- A loop falls into a loop. -/
theorem falls_loop : ¬ Acc (fun a b => loops.Falls b a)
    ⟨.make loop .standard .empty none 0, [], .empty⟩ := by
  intro hacc
  have hself : loops.Falls ⟨.make loop .standard .empty none 0, [], .empty⟩
      ⟨.make loop .standard .empty none 0, [], .empty⟩ :=
    ⟨none, [], _, [], rfl, rfl, rfl, rfl, ⟨⟨loop.type, .record (.make loop .standard .empty none 0),
      [], false⟩, rfl, rfl, rfl, rfl, rfl⟩, nofun⟩
  generalize (⟨.make loop .standard .empty none 0, [], .empty⟩ : Opening) = s at hacc hself
  induction hacc with
  | intro s _ ih => exact ih s hself hself

/-- Where all fields may be null reading terminates, and a loop is never read. -/
theorem read_terminates_forks :
    (Terminates fun depth => forks.readValue depth .empty ⟨0, [7, 1, 0, 0, 1, 0, 0]⟩) ∧
      ∀ depth, (loops.readValue depth .empty ⟨0, [7]⟩).result = .error .tooDeep := by
  obtain ⟨rs, hlists⟩ := standard_forks.lists
  have hnull : ∀ r ∈ rs, ∀ e ∈ r.entries, e.nullable = true := by
    intro r hr
    rw [eq_of_registrations (.make fork .standard .empty none 0) rfl (hlists.record_eq hr)]
    decide
  have hgrounded : ∀ n x r, forks.registrationAt? n = some x → x.serializer = .record r →
      forks.Grounded ⟨r, [], .empty⟩ := by
    intro n x r hat hser
    have hopens : x.frame.Opens .empty ⟨r, [], .empty⟩ := ⟨hser, rfl, rfl⟩
    exact grounded_of_nullable hlists hnull
      (hopens.record_mem (hlists.served_of_registrationAt? hat))
  refine ⟨(read_terminates standard_forks rfl .empty _).1 hgrounded, ?_⟩
  exact (read_terminates standard_loops rfl .empty ⟨0, [7]⟩).2.2.1 6 _ _ ⟨1, []⟩ rfl rfl rfl
    falls_loop

/-- **Reading without references can fail to terminate**: a loop is one field, that holds a loop. -/
theorem not_terminating : ¬ ∀ c : Codec, c.Standard → c.references = false → ∀ h input,
    (Terminates fun depth => c.readValue depth h input) ∧
      ∀ t args, Terminates fun depth => c.readUntagged depth h input t args := by
  intro h
  obtain ⟨⟨N, hN, -⟩, -⟩ := h loops standard_loops rfl .empty ⟨0, [7]⟩
  obtain ⟨rs, hlists⟩ := standard_loops.lists
  exact hN (tooDeep_of_sinks hlists .empty ⟨0, [7]⟩
    (fun n => agrees_readTagged hlists fun f => agrees_readDirect hlists loops.cells n f)
    (sinks_readTagged (m := 6) (j := ⟨1, []⟩) hlists rfl rfl rfl rfl rfl falls_loop))

end Codec

end GraphCodec
