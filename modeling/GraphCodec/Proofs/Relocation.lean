import GraphCodec.Proofs.Direct
import GraphCodec.Proofs.Matching
import GraphCodec.Proofs.Soundness

/-!
# Reading — elsewhere in the heap

What a reader makes of its input does not depend on the objects that are in the heap already: it
makes the same objects behind whatever is there.  `Heap.shift base base'` says where an object goes
if what one reader makes from `base` on another one makes from `base'` on, and `Heap.Moved` relates
the two heaps.  Two graphs of which one is the other one moved are the same (`Moved.sameGraph`).

`MovesAt f m m' st st' Q` says of two runs that the second one ends well where the first one does,
with the answer moved by `f`.
-/

namespace GraphCodec

/-- The object with its slots renamed. -/
def Object.rename (f : ObjectId → ObjectId) (x : Object) : Object :=
  { x with slots := x.slots.map (Value.rename f) }

theorem Object.rename_fresh (f : ObjectId → ObjectId) (d : ClassDecl) :
    (Object.fresh d).rename f = .fresh d := by
  simp only [rename, fresh, List.map_map]
  refine congrArg (Object.mk d) (List.map_congr_left fun x _ => ?_)
  exact Value.rename_eq_self (Value.initial_ne_object _)

namespace Heap

variable {base base' o p : Nat} {g g' : Heap}

/-- Where object `o` goes when what stands from `base` on is moved to `base'`. -/
def shift (base base' o : Nat) : Nat := o - base + base'

theorem shift_inj (ho : base ≤ o) (hp : base ≤ p) :
    shift base base' o = shift base base' p ↔ o = p := by
  unfold shift
  omega

/-- The objects of `g` from `base` on stand in `g'` from `base'` on. -/
structure Moved (base base' : Nat) (g g' : Heap) : Prop where
  le : base ≤ g.size
  size : g'.size = shift base base' g.size
  get : ∀ o, base ≤ o → g'.get (shift base base' o) = (g.get o).rename (shift base base')

/-- At the start there is nothing that was moved. -/
theorem moved_start (g g' : Heap) : Moved g.size g'.size g g' := by
  refine ⟨le_rfl, by simp [shift], fun o ho => ?_⟩
  rw [get_of_le ho, get_of_le (by unfold shift; omega)]
  rfl

theorem Moved.alloc (hg : Moved base base' g g') (d : ClassDecl) :
    Moved base base' (g.alloc (.fresh d)).2 (g'.alloc (.fresh d)).2 := by
  have hle := hg.le
  have hsize := hg.size
  unfold shift at hsize
  refine ⟨by simp; omega, by simp [shift]; omega, fun o ho => ?_⟩
  rcases Nat.lt_trichotomy o g.size with hlt | rfl | hgt
  · have hlt' : shift base base' o < g'.size := by
      unfold shift
      omega
    rw [get_alloc_of_lt _ hlt, get_alloc_of_lt _ hlt', hg.get o ho]
  · rw [get_alloc_self, ← hg.size, get_alloc_self, Object.rename_fresh]
  · have hout : (g.alloc (.fresh d)).2.size ≤ o := by simpa using Nat.succ_le_of_lt hgt
    have hout' : (g'.alloc (.fresh d)).2.size ≤ shift base base' o := by
      rw [size_alloc]
      unfold shift
      omega
    rw [get_of_le hout, get_of_le hout']
    rfl

theorem Moved.store (hg : Moved base base' g g') (ho : base ≤ o) (i : Nat) (v : Value) :
    Moved base base' (g.store o i v)
      (g'.store (shift base base' o) i (v.rename (shift base base'))) := by
  refine ⟨by simpa using hg.le, by simpa using hg.size, fun p hp => ?_⟩
  by_cases hpo : p = o
  · subst hpo
    by_cases hlt : p < g.size
    · have hlt' : shift base base' p < g'.size := by
        rw [hg.size]
        unfold shift
        omega
      rw [get_store_self _ _ hlt, get_store_self _ _ hlt', hg.get p hp]
      simp [Object.rename, List.map_set]
    · have hout : g'.size ≤ shift base base' p := by
        rw [hg.size]
        unfold shift
        omega
      rw [get_of_le (by simpa using hout), get_of_le (by simpa using hlt)]
      rfl
  · rw [get_store_of_ne _ _ hpo, get_store_of_ne _ _ (mt (shift_inj hp ho).mp hpo), hg.get p hp]

/-- What can be put into a slot can be put into the slot of the moved object. -/
theorem Moved.set (hg : Moved base base' g g') (ho : base ≤ o) {s : Slot} {v old : Value}
    {g₁ : Heap} (hs : s.set g o v = .ok (old, g₁)) :
    ∃ old' g₁', s.set g' (shift base base' o) (v.rename (shift base base')) = .ok (old', g₁') ∧
      Moved base base' g₁ g₁' := by
  have howner : (g.get o).owner = s.owner := by
    simp only [Slot.set, Slot.setWhile, Slot.check] at hs
    split at hs
    · assumption
    · cases hs
  have hlt : s.index < (g.get o).slots.length := by
    by_contra hno
    have hnone := List.getElem?_eq_none (Nat.not_lt.mp hno)
    simp only [Slot.set, Slot.setWhile, Slot.check, howner, hnone] at hs
    cases hs
  obtain rfl := Slot.eq_store_of_set hs
  have hget := hg.get o ho
  obtain ⟨old', hset⟩ := Slot.set_of_owner (s := s) (h := g') (o := shift base base' o)
    (by rw [hget]; exact howner) (by rw [hget]; simpa [Object.rename] using hlt)
    (v.rename (shift base base'))
  exact ⟨old', _, hset, hg.store ho s.index v⟩

/-- **A graph is the same as itself moved.**  The new objects of `g`, which lead to no others, are
there still when they stand for a second time behind it. -/
theorem Moved.sameGraph (hg : Moved base g.size g g') (hkept : ∀ p < g.size, g'.get p = g.get p)
    (hclosed : ∀ x, g.From base x → ∀ v ∈ (g.get x).slots, v.Within (g.From base))
    {v : Value} (hv : v.Within (g.From base)) :
    g'.sameGraph v (v.rename (shift base g.size)) = true := by
  have hmatch : g'.Matching fun x y => g.From base x ∧ y = shift base g.size x := by
    constructor
    · rintro x x' _ ⟨hx, rfl⟩ ⟨hx', h⟩
      exact ((shift_inj hx.1 hx'.1).mp h).symm
    · rintro x _ _ ⟨-, rfl⟩ ⟨-, rfl⟩
      rfl
    · rintro x _ ⟨hx, rfl⟩
      rw [hkept x hx.2, hg.get x hx.1]
      rfl
    · rintro x _ ⟨hx, rfl⟩
      rw [hkept x hx.2, hg.get x hx.1]
      simp [Object.rename]
    · rintro x _ ⟨hx, rfl⟩ i a b ha hb
      rw [hkept x hx.2] at ha
      rw [hg.get x hx.1] at hb
      simp only [Object.rename, List.getElem?_map, ha, Option.map_some, Option.some.injEq] at hb
      subst hb
      exact Value.paired_rename
        ((hclosed x hx a (List.mem_of_getElem? ha)).mono fun y hy => ⟨hy, rfl⟩)
  exact hmatch.sameGraph (Value.paired_rename (hv.mono fun y hy => ⟨hy, rfl⟩))

end Heap

/-! ### Runs elsewhere -/

namespace Pass

variable {σ τ α β γ δ : Type} {f : α → β} {g : γ → δ} {st : σ} {st' : τ} {Q : α → σ → τ → Prop}

/-- Where the run of `m` from `st` ends well, the run of `m'` from `st'` does, with the answer
moved by `f`, and `Q` holds of the answer and the two last states. -/
def MovesAt (f : α → β) (m : Pass σ α) (m' : Pass τ β) (st : σ) (st' : τ)
    (Q : α → σ → τ → Prop) : Prop :=
  ∀ a t, m st = (.ok a, t) → ∃ t', m' st' = (.ok (f a), t') ∧ Q a t t'

theorem movesAt_pure {a : α} (h : Q a st st') : MovesAt f (pure a) (pure (f a)) st st' Q := by
  rintro _ _ ⟨⟩
  exact ⟨st', rfl, h⟩

theorem movesAt_fail (e : CodecError) (m' : Pass τ β) : MovesAt f (fail e) m' st st' Q := nofun

theorem movesAt_ofExcept {x : Except CodecError α} {y : Except CodecError β}
    (h : ∀ a, x = .ok a → y = .ok (f a) ∧ Q a st st') :
    MovesAt f (ofExcept x) (ofExcept y) st st' Q := by
  intro a t hr
  obtain ⟨hx, rfl⟩ := ofExcept_eq_ok.mp hr
  obtain ⟨hy, hQ⟩ := h a hx
  exact ⟨st', ofExcept_eq_ok.mpr ⟨hy, rfl⟩, hQ⟩

theorem movesAt_bind {m : Pass σ α} {m' : Pass τ β} {k : α → Pass σ γ} {k' : β → Pass τ δ}
    {Q' : γ → σ → τ → Prop} (hm : MovesAt f m m' st st' Q)
    (hk : ∀ a t t', CanReturn m a → Q a t t' → MovesAt g (k a) (k' (f a)) t t' Q') :
    MovesAt g (m >>= k) (m' >>= k') st st' Q' := by
  intro b t hr
  obtain ⟨a, t₁, h₁, h₂⟩ := bind_eq_ok.mp hr
  obtain ⟨t₁', h₁', hQ⟩ := hm a t₁ h₁
  obtain ⟨t', h₂', hQ'⟩ := hk a t₁ t₁' ⟨_, _, h₁⟩ hQ b t h₂
  exact ⟨t', bind_eq_ok.mpr ⟨_, _, h₁', h₂'⟩, hQ'⟩

theorem movesAt_get_bind {k : σ → Pass σ α} {k' : τ → Pass τ β}
    (hk : MovesAt f (k st) (k' st') st st' Q) : MovesAt f (get >>= k) (get >>= k') st st' Q :=
  hk

theorem movesAt_inField {m : Pass σ α} {m' : Pass τ β} {owner : ClassId} {field : String}
    (hm : MovesAt f m m' st st' Q) :
    MovesAt f (inField owner field m) (inField owner field m') st st' Q := by
  intro a t hr
  obtain ⟨t', hr', hQ⟩ := hm a t (inField_eq_ok.mp hr)
  exact ⟨t', inField_ok hr', hQ⟩

end Pass

/-- The numbers stand for the renamed instances. -/
def Reservations.rename (f : ObjectId → ObjectId) (t : Reservations) : Reservations :=
  { t with objects := t.objects.map (Option.map f) }

namespace Reservations

variable (f : ObjectId → ObjectId) (t : Reservations)

theorem map_assign (objects : List (Option ObjectId)) (n : Nat) (o : ObjectId) :
    (assign objects n o).map (Option.map f) = assign (objects.map (Option.map f)) n (f o) := by
  refine List.ext_getElem? fun i => ?_
  simp only [assign, List.getElem?_map, List.getElem?_modify]
  cases objects[i]? with
  | none => rfl
  | some old =>
      by_cases h : n = i <;> cases old <;> simp [h]

theorem rename_reserve : (t.rename f).reserve = t.reserve.rename f := by
  simp [reserve, rename]

theorem rename_bind (o : ObjectId) : (t.rename f).bind (f o) = (t.bind o).rename f := by
  obtain ⟨objects, _ | ⟨n, pending⟩⟩ := t
  · rfl
  · simp [bind, rename, map_assign]

theorem rename_finish (v : Value) : (t.rename f).finish (v.rename f) = (t.finish v).rename f := by
  obtain ⟨objects, _ | ⟨n, pending⟩⟩ := t
  · cases v <;> rfl
  · cases v <;> simp [finish, rename, Value.rename, map_assign]

theorem get?_rename (n : Nat) : (t.rename f).get? n = (t.get? n).map f := by
  simp only [get?, rename, List.getElem?_map]
  cases t.objects[n]? <;> rfl

end Reservations

/-- Two readers at the same place, of which the second one makes its objects from `base'` on. -/
structure ReadState.Moved (base base' : Nat) (st st' : ReadState) : Prop where
  input : st'.input = st.input
  heap : Heap.Moved base base' st.heap st'.heap
  reservations : st'.reservations = st.reservations.rename (Heap.shift base base')
  scopes : st'.typing.scopes = st.typing.scopes

namespace ReadM

open Pass

variable {α β : Type} {base base' : Nat} {f : α → β}

/-- The second reader does what the first one does, elsewhere. -/
def Moves (base base' : Nat) (f : α → β) (m : ReadM α) (m' : ReadM β) : Prop :=
  ∀ st st', st.Moved base base' st' →
    MovesAt f m m' st st' fun _ t t' => t.Moved base base' t'

theorem moves_pure (f : α → β) (a : α) : Moves base base' f (pure a) (pure (f a)) :=
  fun _ _ hst => movesAt_pure hst

theorem moves_fail (f : α → β) (e : CodecError) (m' : ReadM β) : Moves base base' f (fail e) m' :=
  fun _ _ _ => movesAt_fail e m'

theorem moves_ite {p : Prop} [Decidable p] {m n : ReadM α} {m' n' : ReadM β}
    (hm : Moves base base' f m m') (hn : Moves base base' f n n') :
    Moves base base' f (if p then m else n) (if p then m' else n') := by
  split
  · exact hm
  · exact hn

theorem moves_ofExcept (x : Except CodecError α) :
    Moves base base' id (Pass.ofExcept x) (Pass.ofExcept x) :=
  fun _ _ hst => movesAt_ofExcept fun _ hx => ⟨hx, hst⟩

theorem moves_bind {γ δ : Type} {g : γ → δ} {m : ReadM α} {m' : ReadM β} {k : α → ReadM γ}
    {k' : β → ReadM δ} (hm : Moves base base' f m m')
    (hk : ∀ a, CanReturn m a → Moves base base' g (k a) (k' (f a))) :
    Moves base base' g (m >>= k) (m' >>= k') :=
  fun st st' hst => movesAt_bind (hm st st' hst) fun a t t' ha ht => hk a ha t t' ht

theorem moves_take (r : Read α) : Moves base base' id (take r) (take r) := by
  intro st st' hst a t hr
  simp only [take, hst.input] at hr ⊢
  rcases hrun : r.onInput st.input with ⟨e | x, input⟩ <;> rw [hrun] at hr <;> cases hr
  exact ⟨_, rfl, { hst with input := rfl }⟩

theorem moves_inScope (scope : Option TypeScope) {m : ReadM α} {m' : ReadM β}
    (hm : Moves base base' f m m') : Moves base base' f (inScope scope m) (inScope scope m') := by
  intro st st' hst a t hr
  obtain ⟨t₁, h₁, rfl⟩ := Codec.inScope_eq_ok.mp hr
  obtain ⟨t₁', h₁', ht⟩ := hm { st with typing := st.typing.enter scope }
    { st' with typing := st'.typing.enter scope }
    { hst with scopes := congrArg (ScopeStack.enter · scope) hst.scopes } a t₁ h₁
  exact ⟨_, Codec.inScope_eq_ok.mpr ⟨t₁', h₁', rfl⟩,
    { ht with scopes := congrArg (ScopeStack.leave · scope) ht.scopes }⟩

theorem moves_known (number : Nat) :
    Moves base base' (Value.rename (Heap.shift base base')) (known number) (known number) := by
  intro st st' hst
  refine movesAt_get_bind ?_
  rw [hst.reservations, Reservations.get?_rename]
  cases st.reservations.get? number with
  | none => exact movesAt_fail _ _
  | some o => exact movesAt_pure hst

theorem moves_setSlot {o : ObjectId} (ho : base ≤ o) (s : Slot) (v : Value) :
    Moves base base' id (setSlot s o v)
      (setSlot s (Heap.shift base base' o) (v.rename (Heap.shift base base'))) := by
  intro st st' hst a t hr
  obtain ⟨_, _, hget, hset⟩ := bind_eq_ok.mp hr
  cases hget
  obtain ⟨⟨old, g⟩, _, hs, hmod⟩ := bind_eq_ok.mp hset
  obtain ⟨hs, rfl⟩ := ofExcept_eq_ok.mp hs
  cases hmod
  obtain ⟨old', g', hs', hg⟩ := hst.heap.set ho (except_mapError_eq_ok.mp hs)
  exact ⟨_, Codec.setSlot_run hs', { hst with heap := hg }⟩

theorem moves_reference (o : ObjectId) :
    Moves base base' id (reference o) (reference (Heap.shift base base' o)) := by
  intro st st' hst _ _ hr
  cases hr
  refine ⟨_, rfl, { hst with reservations := ?_ }⟩
  show st'.reservations.bind _ = _
  rw [hst.reservations, Reservations.rename_bind]

theorem moves_numbered {m m' : ReadM Value}
    (hm : Moves base base' (Value.rename (Heap.shift base base')) m m') :
    Moves base base' (Value.rename (Heap.shift base base')) (numbered m) (numbered m') := by
  intro st st' hst a t hr
  simp only [numbered] at hr ⊢
  rcases hrun : m { st with reservations := st.reservations.reserve } with ⟨e | v, t₁⟩ <;>
    rw [hrun] at hr <;> cases hr
  obtain ⟨t₁', hrun', ht⟩ := hm { st with reservations := st.reservations.reserve }
    { st' with reservations := st'.reservations.reserve } { hst with
      reservations := by rw [hst.reservations, Reservations.rename_reserve] } a t₁ hrun
  rw [hrun']
  exact ⟨_, rfl, { ht with reservations := by rw [ht.reservations, Reservations.rename_finish] }⟩

end ReadM

namespace Codec

open Pass ReadM

variable {c : Codec} {rs : List RecordSerializer} {base base' : Nat}

/-- Reading a value does the same elsewhere. -/
abbrev MovesValue (base base' : Nat) (m m' : ReadM Value) : Prop :=
  Moves base base' (Value.rename (Heap.shift base base')) m m'

theorem moves_readTag : Moves base base' id c.readTag c.readTag := by
  intro st st' hst
  refine movesAt_get_bind ?_
  rw [hst.input]
  refine movesAt_bind (moves_take _ st st' hst) fun n t t' _ ht => ?_
  cases n with
  | zero => exact movesAt_pure ht
  | succ n =>
      simp only [id]
      cases c.registrationAt? n with
      | none => exact movesAt_fail _ _
      | some x => exact movesAt_pure ht

/-- A plain value is at home everywhere. -/
theorem moves_plain {α : Type} {f : α → Value} (hf : ∀ a o, f a ≠ .object o) (r : Read α) :
    MovesValue base base' (do return f (← ReadM.take r)) (do return f (← ReadM.take r)) := by
  refine moves_bind (moves_take r) fun a _ => ?_
  have h : MovesValue base base' (pure (f a)) (pure ((f a).rename (Heap.shift base base'))) :=
    moves_pure _ (f a)
  rwa [Value.rename_eq_self (hf a)] at h

theorem moves_number (e : FieldEntry) {α : Type} {f : α → Value} (hf : ∀ a o, f a ≠ .object o)
    (r : Read α) :
    MovesValue base base'
      (do if ← readPresence e then return f (← ReadM.take r) else return .null)
      (do if ← readPresence e then return f (← ReadM.take r) else return .null) := by
  have hpresence : Moves base base' id (readPresence e) (readPresence e) := by
    simp only [readPresence]
    split
    · exact moves_take _
    · exact moves_pure id true
  refine moves_bind hpresence fun b _ => ?_
  cases b with
  | true => exact moves_plain hf r
  | false => exact moves_pure _ Value.null

theorem moves_readStock {nested nested' : Frame → ReadM Value} {t : ValueType} {s : Stock}
    (hs : t.stock? = some s) :
    MovesValue base base' (c.readStock nested t s) (c.readStock nested' t s) := by
  cases t <;> cases hs
  · exact moves_plain (f := .bool) nofun _
  · exact moves_plain (f := .int) nofun _
  · exact moves_plain (f := .long) nofun _
  · exact moves_plain (f := .float) nofun _
  · exact moves_plain (f := .double) nofun _
  · exact moves_plain (f := .str) nofun _

section

variable (hc : c.Lists rs) {nested nested' : Frame → ReadM Value}
  (hn : ∀ f, Served rs f.type f.serializer → MovesValue base base' (nested f) (nested' f))
include hc hn

theorem moves_readTagged :
    MovesValue base base' (c.readTagged nested) (c.readTagged nested') := by
  refine moves_bind moves_readTag fun x hx => ?_
  cases x with
  | none => exact moves_pure _ Value.null
  | some x =>
      obtain ⟨n, hx⟩ := registrationAt?_of_readTag hx
      exact hn _ (hc.served_of_registrationAt? hx)

theorem moves_readFlat (t : ValueType) (args : List ConcreteType) :
    MovesValue base base' (c.readFlat nested t args) (c.readFlat nested' t args) := by
  refine moves_bind (moves_ofExcept _) fun s hs => ?_
  exact hn _ (hc.served_of_serializer (except_mapError_eq_ok.mp hs.ofExcept))

theorem moves_readField {e : FieldEntry} (he : e.serializer = none) {o : ObjectId} (ho : base ≤ o)
    (resolved : Option ConcreteType) :
    Moves base base' id (c.readField nested e o resolved)
      (c.readField nested' e (Heap.shift base base' o) resolved) := by
  simp only [readField, readFieldValue_eq, bind_assoc]
  refine moves_bind (moves_ofExcept _) fun p hp => ?_
  have hvalue : MovesValue base base' (c.readPlanned nested e p) (c.readPlanned nested' e p) := by
    cases p with
    | dynamic => exact moves_readTagged hc hn
    | known f => exact hn f (hc.served_of_plan he hp.ofExcept).1
    | int => exact moves_number e (fun _ _ => Value.noConfusion) _
    | long => exact moves_number e (fun _ _ => Value.noConfusion) _
  refine moves_bind hvalue fun v _ => ?_
  rw [Value.isNull_rename]
  exact moves_ite (moves_fail _ _ _) (moves_setSlot ho _ v)

theorem moves_readFieldsDirect {r : RecordSerializer} (hr : r ∈ rs) (own : Option TypeScope)
    {o : ObjectId} (ho : base ≤ o) {t : FieldTable} (ht : ∀ e ∈ t, e ∈ r.entries) :
    Moves base base' id (c.readFieldsDirect nested r own o t)
      (c.readFieldsDirect nested' r own (Heap.shift base base' o) t) := by
  induction t with
  | nil => exact moves_pure id _
  | cons e t ih =>
      obtain ⟨he, ht⟩ := List.forall_mem_cons.mp ht
      simp only [readFieldsDirect]
      split
      · intro st st' hst
        refine movesAt_get_bind ?_
        rw [hst.scopes]
        refine movesAt_bind (f := id) (movesAt_inField ?_) fun _ t t' _ h => ih ht t t' h
        exact moves_readField hc hn ((hc.plain r hr).follows.bare e he) ho _ st st' hst
      · exact ih ht

theorem moves_readWithDirect {t : ValueType} {s : Serializer} (hs : Served rs t s)
    (args : List ConcreteType) :
    MovesValue base base' (c.readWithDirect nested t args s)
      (c.readWithDirect nested' t args s) := by
  cases hs with
  | stock hs => exact moves_readStock hs
  | @record r hr =>
      refine moves_bind (moves_ofExcept _) fun own _ => moves_inScope _ ?_
      intro st st' hst a t hrun
      obtain ⟨o, t₁, hmake, hrest⟩ := bind_eq_ok.mp hrun
      have hd := constructible_of_readInstance hc hr ⟨_, _, hmake⟩
      rw [readInstance_run hc hr hd] at hmake
      cases hmake
      -- both make the next object of their heaps
      have hle := hst.heap.le
      have hrest' : Moves base base' (Value.rename (Heap.shift base base'))
          (do ReadM.reference st.heap.size
              c.readFieldsDirect nested r own st.heap.size r.entries
              return .object st.heap.size)
          (do ReadM.reference (Heap.shift base base' st.heap.size)
              c.readFieldsDirect nested' r own (Heap.shift base base' st.heap.size) r.entries
              return .object (Heap.shift base base' st.heap.size)) := by
        refine moves_bind (moves_reference _) fun _ _ => ?_
        exact moves_bind (moves_readFieldsDirect hc hn hr own hle fun _ he => he) fun _ _ =>
          moves_pure (Value.rename (Heap.shift base base')) (.object st.heap.size)
      obtain ⟨t', hrun', ht'⟩ := hrest' { st with heap := (st.heap.alloc (.fresh r.decl)).2 }
        { st' with heap := (st'.heap.alloc (.fresh r.decl)).2 }
        { hst with heap := hst.heap.alloc r.decl } a t hrest
      refine ⟨t', ?_, ht'⟩
      rw [← hst.heap.size] at hrun'
      exact (bind_of_ok (readInstance_run hc hr hd st') _).trans hrun'

end

/-- **Reading does the same elsewhere in the heap.** -/
theorem moves_readDirect (hc : c.Lists rs) (n : Nat) (f : Frame)
    (hf : Served rs f.type f.serializer) :
    MovesValue base base' (c.readDirect n f) (c.readDirect n f) := by
  induction n generalizing f with
  | zero => exact fun _ _ _ => nofun
  | succ n ih =>
      have hbody := moves_readWithDirect hc ih hf f.args
      simp only [readDirect, readAround]
      split
      · refine moves_bind (moves_take _) fun n _ => ?_
        simp only [id]
        split
        · split
          · exact moves_pure _ Value.null
          · exact moves_fail _ _ _
        · exact moves_known _
        · exact moves_numbered hbody
      · split
        · refine moves_bind (moves_take _) fun b _ => ?_
          cases b with
          | true => exact hbody
          | false => exact moves_pure _ Value.null
        · exact hbody

/-! ### Whole passes -/

/-- The new objects lead to new objects only. -/
theorem DecodeDone.inside {T : ValueType → ValueType → Prop} {st st' : ReadState} {w : Value}
    (hd : c.DecodeDone T rs base st w st') (hbase : st.heap.size ≤ base) :
    ∀ x, st'.heap.From base x → ∀ v ∈ (st'.heap.get x).slots, v.Within (st'.heap.From base) := by
  rintro x hx v hv p rfl
  obtain ⟨i, hi⟩ := List.getElem?_of_mem hv
  obtain ⟨r, -, hfilled⟩ := hd.decodes.made x (hbase.trans hx.1) hx.2
  obtain ⟨e, -, -, hadmits⟩ := hfilled.mem_of_object hi
  exact hadmits.within p rfl

/-- Reading once more, in the heap that the first time has left, gives the same graph. -/
theorem Lists.runRead_again (hc : c.Lists rs) {h : Heap} {input : Input} {body direct : ReadM Value}
    (hdirect : ∀ k, Agrees (ReadState.Matches (QuietFirst rs) k) body direct)
    (hmoves : ∀ base', MovesValue h.size base' direct direct)
    (hyields : ∀ st, st.Steady rs st.heap.size →
      Yields body st (c.DecodeDone (fun _ _ => True) rs st.heap.size st)) {w : Value}
    (hw : (c.runRead h input body).result = .ok w) :
    ∃ w', (c.runRead (c.runRead h input body).heap input body).result = .ok w' ∧
      (c.runRead (c.runRead h input body).heap input body).input =
        (c.runRead h input body).input ∧
      (c.runRead (c.runRead h input body).heap input body).heap.sameGraph w w' = true := by
  rcases hr : body ⟨input, h, .empty, ⟨.empty, c.cells⟩⟩ with ⟨x, t⟩
  rw [runRead_of_run hr] at hw ⊢
  cases hw
  obtain ⟨h₁, ht⟩ := hdirect _ _ _ (matches_start hc h input)
  rcases hd : direct ⟨input, h, .empty, ⟨.empty, c.cells⟩⟩ with ⟨x, t₁⟩
  rw [hr, hd] at h₁ ht
  cases h₁
  -- the direct pass does the same elsewhere in the heap
  obtain ⟨t', hr', ht'⟩ := hmoves t.heap.size ⟨input, h, .empty, ⟨.empty, c.cells⟩⟩
    ⟨input, t.heap, .empty, ⟨.empty, c.cells⟩⟩ ⟨rfl, Heap.moved_start h t.heap, rfl, rfl⟩ w t₁ hd
  obtain ⟨h₂, hu⟩ := hdirect _ _ _ (matches_start hc t.heap input)
  rw [hr'] at h₂ hu
  rcases hagain : body ⟨input, t.heap, .empty, ⟨.empty, c.cells⟩⟩ with ⟨y, u⟩
  rw [hagain] at h₂ hu
  obtain rfl : y = .ok _ := h₂.symm
  have hfirst := meets_ok (hyields ⟨input, h, .empty, ⟨.empty, c.cells⟩⟩
    ⟨hc.quiet, le_rfl, nofun⟩) (congrArg Prod.fst hr)
  have hsecond := meets_ok (hyields ⟨input, t.heap, .empty, ⟨.empty, c.cells⟩⟩
    ⟨hc.quiet, le_rfl, nofun⟩) (congrArg Prod.fst hagain)
  rw [hr] at hfirst
  rw [hagain] at hsecond
  rw [runRead_of_run hagain]
  have hheap : t₁.heap = t.heap ∧ t'.heap = u.heap := ⟨ht.heap, hu.heap⟩
  have hinput : t'.input = u.input ∧ t₁.input = t.input := ⟨hu.input, ht.input⟩
  have hmoved : Heap.Moved h.size t.heap.size t.heap u.heap := hheap.2 ▸ hheap.1 ▸ ht'.heap
  exact ⟨_, rfl, hinput.1.symm.trans (ht'.input.trans hinput.2),
    hmoved.sameGraph hsecond.decodes.kept (hfirst.inside le_rfl) hfirst.within⟩

/-- **A value can be read again, and both times it is the same.** -/
theorem Lists.read_again (hc : c.Lists rs) (depth : Nat) (h : Heap) (input : Input) {w : Value}
    (hw : (c.readValue depth h input).result = .ok w) :
    ∃ w', (c.readValue depth (c.readValue depth h input).heap input).result = .ok w' ∧
      (c.readValue depth (c.readValue depth h input).heap input).input =
        (c.readValue depth h input).input ∧
      (c.readValue depth (c.readValue depth h input).heap input).heap.sameGraph w w' = true :=
  hc.runRead_again
    (fun _ => agrees_readTagged hc fun f => agrees_readDirect hc c.cells depth f)
    (fun _ => moves_readTagged hc fun f => moves_readDirect hc depth f)
    (fun _ hst => yields_readTagged hc (yields_readFramed hc depth) hst) hw

theorem Lists.readUntagged_again (hc : c.Lists rs) (depth : Nat) (h : Heap) (input : Input)
    (t : ValueType) (args : List ConcreteType) {w : Value}
    (hw : (c.readUntagged depth h input t args).result = .ok w) :
    ∃ w', (c.readUntagged depth (c.readUntagged depth h input t args).heap input t args).result =
        .ok w' ∧
      (c.readUntagged depth (c.readUntagged depth h input t args).heap input t args).input =
        (c.readUntagged depth h input t args).input ∧
      (c.readUntagged depth (c.readUntagged depth h input t args).heap input t args).heap.sameGraph
        w w' = true := by
  refine hc.runRead_again
    (fun _ => agrees_readFlat hc (fun f => agrees_readDirect hc c.cells depth f) t args)
    (fun _ => moves_readFlat hc (fun f => moves_readDirect hc depth f) t args)
    (fun st hst => ?_) hw
  refine meets_bind (yields_ofExcept _) ?_
  rintro s _ ⟨hs, rfl⟩
  have hs := hc.served_of_serializer (except_mapError_eq_ok.mp hs)
  exact meets_mono (yields_readFramed hc depth ⟨t, s, args, false⟩ hs _ hst)
    fun w st' hd => { hd with }

end Codec

end GraphCodec
