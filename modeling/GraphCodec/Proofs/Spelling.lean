import GraphCodec.Proofs.Emission

/-!
# Writing — parts of an output

`Spells` says of a part of writing that what it adds to the output, if it ends well, is what `Emits`
says of some spots.  A direct pass spells the spots of its value (`spells_writeDirect`): the fields
of an object are those that its type arguments and the scopes around it make of them.
-/

namespace GraphCodec

namespace Codec

open Pass

variable {c : Codec} {rs : List RecordSerializer} {h : Heap}

/-! ### What a part of writing adds to the output -/

/-- Inside these scopes, the part adds to the output what `Emits` says of some spots as `S` says,
and leaves the scopes as they are, if it ends well. -/
def Spells (c : Codec) (h : Heap) (scopes : ScopeStack) (S : List Spot → Prop) {α : Type}
    (m : WriteM α) : Prop :=
  ∀ st, st.typing.scopes = scopes → ∀ a st', m st = (.ok a, st') →
    st'.typing.scopes = scopes ∧ ∃ spots ts, S spots ∧ st'.output = st.output.spell ts ∧
      c.Emits h st.numbering.seen spots ts st'.numbering.seen

section

variable {α β : Type} {scopes : ScopeStack} {S S' S'' : List Spot → Prop}

theorem Spells.congr {m : WriteM α} (hm : c.Spells h scopes S m) (hS : ∀ l, S l → S' l) :
    c.Spells h scopes S' m := by
  intro st hst a st' hr
  obtain ⟨hst', spots, ts, hspots, hout, he⟩ := hm st hst a st' hr
  exact ⟨hst', spots, ts, hS spots hspots, hout, he⟩

theorem spells_pure (hS : S []) (a : α) : c.Spells h scopes S (pure a) := by
  rintro st hst _ _ ⟨⟩
  exact ⟨hst, [], [], hS, rfl, .nil⟩

theorem spells_nothing (a : α) : c.Spells h scopes (· = []) (pure a) :=
  spells_pure (S := (· = [])) rfl a

theorem spells_fail (e : CodecError) : c.Spells h scopes S (fail e : WriteM α) := nofun

theorem spells_put {s : Spot} {t : Token} (hs : s.token? = some t) (hS : S [s]) :
    c.Spells h scopes S
      (modify fun st => { st with output := st.output.put t } : WriteM PUnit) := by
  rintro st hst _ _ ⟨⟩
  exact ⟨hst, [s], [t], hS, rfl, .token hs .nil⟩

theorem spells_item {i : Item} (hS : S [.item i]) : c.Spells h scopes S (WriteM.item i) :=
  spells_put (t := .item i) rfl hS

theorem spells_bind {m : WriteM β} {k : β → WriteM α} (hm : c.Spells h scopes S m)
    (hk : ∀ b, CanReturn m b → c.Spells h scopes S' (k b))
    (hS : ∀ l l', S l → S' l' → S'' (l ++ l')) : c.Spells h scopes S'' (m >>= k) := by
  intro st hst a st'' hr
  obtain ⟨b, st', hr₁, hr₂⟩ := bind_eq_ok.mp hr
  obtain ⟨hst', l, ts, hl, hout, he⟩ := hm st hst b st' hr₁
  obtain ⟨hst'', l', ts', hl', hout', he'⟩ := hk b ⟨st, st', hr₁⟩ st' hst' a st'' hr₂
  exact ⟨hst'', l ++ l', ts ++ ts', hS l l' hl hl', by rw [hout', hout, Output.spell_append],
    he.append he'⟩

/-- Spots that are known in advance. -/
theorem spells_seq {m : WriteM β} {k : β → WriteM α} {l l' : List Spot}
    (hm : c.Spells h scopes (· = l) m)
    (hk : ∀ b, CanReturn m b → c.Spells h scopes (· = l') (k b)) :
    c.Spells h scopes (· = l ++ l') (m >>= k) :=
  spells_bind hm hk (by rintro _ _ rfl rfl; rfl)

theorem spells_ofExcept_bind {x : Except CodecError β} {k : β → WriteM α}
    (hk : ∀ b, x = .ok b → c.Spells h scopes S (k b)) :
    c.Spells h scopes S (Pass.ofExcept x >>= k) := by
  cases x with
  | error e => exact spells_fail e
  | ok b => exact hk b rfl

theorem spells_get_bind {k : WriteState → WriteM α}
    (hk : ∀ st, st.typing.scopes = scopes → c.Spells h scopes S (k st)) :
    c.Spells h scopes S (get >>= k) :=
  fun st hst => hk st hst st hst

theorem spells_inField {owner : ClassId} {field : String} {m : WriteM α}
    (hm : c.Spells h scopes S m) : c.Spells h scopes S (inField owner field m) :=
  fun st hst a st' hr => hm st hst a st' (inField_eq_ok.mp hr)

theorem spells_inScope (scope : Option TypeScope) {m : WriteM α}
    (hm : c.Spells h (scopes.enter scope) S m) :
    c.Spells h scopes S (WriteM.inScope scope m) := by
  rintro st rfl a st' hr
  simp only [WriteM.inScope] at hr
  rcases hb : m { st with typing := st.typing.enter scope } with ⟨x, st₁⟩
  rw [hb] at hr
  cases hr
  obtain ⟨hst₁, hrest⟩ := hm _ rfl a st₁ hb
  refine ⟨?_, hrest⟩
  show st₁.typing.scopes.leave scope = _
  rw [hst₁, ScopeStack.leave_enter]

/-- An object with a number is the number, and the fields of a new one follow it. -/
theorem spells_meet {o : ObjectId} {args : List ConcreteType} {m : WriteM Unit}
    (hm : c.Spells h scopes (c.Opens h o args scopes) m) :
    c.Spells h scopes (· = [.object o args scopes])
      (do let x ← WriteM.meet o; WriteM.varint x.code; if x = Marker.new then m) := by
  intro st hst a st' hr
  by_cases ho : o ∈ st.numbering.seen
  · rw [WriteM.meet_of_known (Numbering.number?_of_mem ho)] at hr
    cases hr
    have hat : st.numbering.seen[st.numbering.seen.idxOf o]? = some o := by
      rw [List.getElem?_eq_getElem (List.idxOf_lt_length_of_mem ho), List.getElem_idxOf]
    exact ⟨hst, _, [.marker (.known _)], rfl, rfl, .known hat .nil⟩
  · rw [WriteM.meet_of_new ho] at hr
    obtain ⟨hst', fields, ts, hopens, hout, he⟩ := hm { st with
      output := st.output.writeVarint 1, numbering := ⟨st.numbering.seen ++ [o]⟩ } hst a st' hr
    refine ⟨hst', _, .marker .new :: (ts ++ []), rfl, ?_, .new ho hopens he .nil⟩
    rw [hout, List.append_nil]
    rfl

end

/-! ### Fields -/

section

variable {scopes : ScopeStack}

theorem spells_writePresence (e : FieldEntry) (v : Value) :
    c.Spells h scopes (· = if e.nullable then [.item (.bool !v.isNull)] else [])
      (writePresence e v) := by
  simp only [writePresence]
  split
  · exact spells_item rfl
  · exact spells_nothing _

/-- Whatever does not fit is refused. -/
theorem spells_requireType_bind {t : ValueType} {v : Value} {S : List Spot → Prop}
    {k : WriteM Unit} (hk : v = .null ∨ h.typeOf v = some t → c.Spells h scopes S k) :
    c.Spells h scopes (fun l => (v = .null ∨ h.typeOf v = some t) ∧ S l)
      (do requireType h t v; k) := by
  by_cases hv : v = .null ∨ h.typeOf v = some t
  · rw [requireType_of_fits hv, pure_bind]
    exact (hk hv).congr fun _ hl => ⟨hv, hl⟩
  · rw [requireType_of_not hv]
    exact spells_fail _

end

section

variable (hc : c.Lists rs) {scopes : ScopeStack} {nested : Frame → Value → WriteM Unit}
  (hn : ∀ f v, Served rs f.type f.serializer → (v = .null ∨ h.typeOf v = some f.type) →
    c.Spells h scopes (· = f.spots scopes v) (nested f v))
include hc hn

theorem spells_writeTagged (v : Value) :
    c.Spells h scopes (· = c.taggedSpots h scopes v) (c.writeTagged h nested v) := by
  cases ht : h.typeOf v with
  | none =>
      simp only [writeTagged, writeTag, taggedSpots, ht, bind_assoc, pure_bind]
      exact spells_seq (spells_put (t := .tag 0) rfl rfl) fun _ _ => spells_nothing _
  | some t =>
      simp only [writeTagged, writeTag, taggedSpots, ht]
      cases hnum : c.number? t <;> cases hx : c.registration? t
      · exact spells_fail _
      · exact spells_fail _
      · exact spells_fail _
      · next n x =>
        obtain ⟨rfl, hserved⟩ := hc.served_of_registration? hx
        simp only [bind_assoc, pure_bind]
        refine spells_seq (spells_put (t := .tag (n + 1)) rfl rfl) fun _ _ => ?_
        exact (Frame.spots_of_typeOf (f := x.frame) rfl ht scopes) ▸ hn x.frame v hserved (.inr ht)

theorem spells_writeFlat (v : Value) (args : List ConcreteType) :
    c.Spells h scopes (· = v.spots args scopes) (c.writeFlat h nested v args) := by
  simp only [writeFlat]
  split
  · exact spells_fail _
  · next t ht =>
    refine spells_ofExcept_bind fun s hs => ?_
    have hserved : Served rs t s := hc.served_of_serializer (except_mapError_eq_ok.mp hs)
    exact (Frame.spots_of_typeOf (f := ⟨t, s, args, false⟩) rfl ht scopes) ▸
      hn ⟨t, s, args, false⟩ v hserved (.inr ht)

theorem spells_writePlanned {e : FieldEntry} (he : e.serializer = none) (v : Value)
    {resolved : Option ConcreteType} {p : Plan} (hp : e.plan c resolved = .ok p) :
    c.Spells h scopes (fun l => p.Fits h v ∧ l = c.plannedSpots h e scopes v p)
      (c.writePlanned h nested e v p) := by
  have hfits : ∀ {t : ValueType}, p.type? = some t → ∀ {k : WriteM Unit},
      (v = .null ∨ h.typeOf v = some t →
        c.Spells h scopes (· = c.plannedSpots h e scopes v p) k) →
      c.Spells h scopes (fun l => p.Fits h v ∧ l = c.plannedSpots h e scopes v p)
        (do requireType h t v; k) := fun ht k hk =>
    (spells_requireType_bind hk).congr fun _ hl =>
      ⟨fun u hu => Option.some.inj (ht.symm.trans hu) ▸ hl.1, hl.2⟩
  cases p with
  | dynamic => exact (spells_writeTagged hc hn v).congr fun _ hl => ⟨by rintro _ ⟨⟩, hl⟩
  | known f =>
      exact hfits rfl fun hv => hn f v (hc.served_of_plan he hp).1 hv
  | int =>
      refine hfits rfl fun _ => spells_seq (spells_writePresence e v) fun _ _ => ?_
      cases v with
      | int n => exact spells_item rfl
      | _ => exact spells_nothing _
  | long =>
      refine hfits rfl fun _ => spells_seq (spells_writePresence e v) fun _ _ => ?_
      cases v with
      | long n => exact spells_item rfl
      | _ => exact spells_nothing _

theorem spells_writeFieldsDirect {r : RecordSerializer} (hr : r ∈ rs) (own : Option TypeScope)
    {o : ObjectId} {t : FieldTable} (ht : ∀ e ∈ t, e ∈ r.entries) :
    c.Spells h scopes
      (fun l => ∃ fields, List.Forall₂ (c.FieldSpots h r own scopes o)
        (t.filter FieldEntryOf.serialized) fields ∧ l = fields.flatten)
      (c.writeFieldsDirect h nested r own o t) := by
  induction t with
  | nil => exact spells_pure ⟨[], .nil, rfl⟩ _
  | cons e t ih =>
      obtain ⟨he, ht⟩ := List.forall_mem_cons.mp ht
      simp only [writeFieldsDirect]
      split
      · next hs =>
        refine spells_get_bind fun st hst => ?_
        rw [hst]
        refine spells_bind (S := c.FieldSpots h r own scopes o e) (spells_inField ?_)
          (fun _ _ => ih ht) ?_
        · cases hg : e.slot.get h o with
          | error x =>
              rw [writeField_of_error _ _ _ hg]
              exact spells_fail _
          | ok v =>
              rw [writeField_of_get _ _ _ hg]
              split
              · exact spells_fail _
              · refine spells_ofExcept_bind fun p hp => ?_
                exact (spells_writePlanned hc hn ((hc.plain r hr).follows.bare e he) v hp).congr
                  fun _ hl => ⟨v, p, Slot.getElem?_of_get hg, hp, hl⟩
        · rintro l _ hl ⟨fields, hfields, rfl⟩
          refine ⟨l :: fields, ?_, rfl⟩
          rw [List.filter_cons_of_pos hs]
          exact .cons hl hfields
      · next hs =>
        rw [List.filter_cons_of_neg hs]
        exact ih ht

end

/-! ### The walk -/

section

variable (hc : c.Lists rs)
include hc

/-- What stands in a frame: the fields of an object, or an item. -/
theorem spells_writeWithDirect {nested : Frame → Value → WriteM Unit}
    (hn : ∀ scopes f v, Served rs f.type f.serializer → (v = .null ∨ h.typeOf v = some f.type) →
      c.Spells h scopes (· = f.spots scopes v) (nested f v))
    {f : Frame} (hf : Served rs f.type f.serializer) {v : Value} (hv : h.typeOf v = some f.type)
    (scopes : ScopeStack) :
    c.Spells h scopes
      (fun l => (∀ o, v = .object o → c.Opens h o f.args scopes l) ∧
        ((∀ o, v ≠ .object o) → l = v.spots f.args scopes))
      (c.writeWithDirect h nested f.args f.serializer v) := by
  obtain ⟨t, s, args, nullable⟩ := f
  cases hf with
  | stock hs =>
      cases t <;> cases hs <;> cases v <;> cases hv <;>
        exact spells_item ⟨nofun, fun _ => rfl⟩
  | @record r hr =>
      refine spells_ofExcept_bind fun own hown => spells_ofExcept_bind fun o ho => ?_
      obtain ⟨rfl, hid⟩ := Heap.instanceOf_eq_ok.mp ho
      have hown : r.bindings args = .ok own := except_mapError_eq_ok.mp hown
      refine spells_inScope _ ((spells_writeFieldsDirect hc (hn _) hr own fun _ he => he).congr ?_)
      rintro l ⟨fields, hfields, rfl⟩
      refine ⟨?_, fun hne => absurd rfl (hne o)⟩
      rintro _ ⟨⟩
      exact ⟨r, own, fields, hid ▸ hc.record_eq hr, hown, hfields, rfl⟩

omit hc in
theorem spells_writeAround (hr : c.references = true) {f : Frame} {v : Value}
    (hv : v = .null ∨ h.typeOf v = some f.type) {scopes : ScopeStack} {body : WriteM Unit}
    (hbody : h.typeOf v = some f.type → c.Spells h scopes
      (fun l => (∀ o, v = .object o → c.Opens h o f.args scopes l) ∧
        ((∀ o, v ≠ .object o) → l = v.spots f.args scopes)) body) :
    c.Spells h scopes (· = f.spots scopes v) (c.writeAround h f v body) := by
  rcases hv with rfl | hv
  · simp only [writeAround, hr, Bool.and_true, Frame.spots, Value.isNull, Bool.true_and, if_true]
    split
    · split
      · exact spells_put (t := .marker .null) rfl rfl
      · exact spells_fail _
    · split
      · exact spells_item rfl
      · exact spells_fail _
  · have hbody := hbody hv
    cases v with
    | null => cases hv
    | object o =>
        have href : f.type.isReference = true := isReference_of_typeOf hv
        simp only [writeAround, hr, href, Frame.spots, Value.isNull, Bool.and_self, if_true,
          Bool.not_true, Bool.and_false, Bool.false_eq_true, if_false, List.nil_append]
        exact spells_meet (hbody.congr fun l hl => hl.1 o rfl)
    | _ =>
        have href : f.type.isReference = false := isReference_of_typeOf hv
        simp only [writeAround, href, Bool.false_and, Frame.spots, Value.isNull, Value.object?,
          Bool.false_eq_true, if_false, Bool.not_false, Bool.and_true]
        refine spells_seq ?_ fun _ _ => hbody.congr fun l hl => hl.2 (by simp)
        split
        · exact spells_item rfl
        · exact spells_nothing _

theorem spells_writeDirect (hr : c.references = true) (n : Nat) (scopes : ScopeStack) (f : Frame)
    (v : Value) (hf : Served rs f.type f.serializer) (hv : v = .null ∨ h.typeOf v = some f.type) :
    c.Spells h scopes (· = f.spots scopes v) (c.writeDirect h n f v) := by
  induction n generalizing scopes f v with
  | zero => exact nofun
  | succ n ih =>
      rw [writeDirect]
      exact spells_writeAround hr hv fun hv => spells_writeWithDirect hc ih hf hv scopes

end

end Codec

end GraphCodec
