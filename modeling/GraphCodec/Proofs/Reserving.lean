import GraphCodec.Proofs.Agreement

/-!
# Objects — what a reserved number stands for

A reader may bind the object that it reads early, late, twice or never, and it may fail inside of
other objects.  What came to its reservations is a list of events here; any list will do, also one
that closes what was never opened.  Events between which everything that is opened is closed again
are `Balanced`, and a number is `Innermost` if only such events came since it was reserved.

* `pending_head?_iff`: the innermost pending number is the innermost one of the events.
* `get?_step`: an event binds no number but the innermost, and does not bind that one again.
* `get?_after`: a number stands for the object that was bound first while it was innermost, or else
  for the one it was closed with.
* `binds_once`: all of it, with the error for numbers that stand for nothing.
-/

namespace GraphCodec

namespace Reservations

/-- What can happen to the numbers of a reader. -/
inductive Event
  | reserve
  | bind (o : ObjectId)
  | finish (v : Value)
  | abandon
  deriving DecidableEq

/-- The innermost object is closed, as a value or as one that could not be read. -/
def Event.Closes : Event → Prop
  | finish _ | abandon => True
  | reserve | bind _ => False

/-- The object that an event has for the innermost number. -/
def Event.offer : Event → Option ObjectId
  | bind o | finish (.object o) => some o
  | _ => none

def step (t : Reservations) : Event → Reservations
  | .reserve => t.reserve
  | .bind o => t.bind o
  | .finish v => t.finish v
  | .abandon => t.abandon

/-- The numbers of a reader to which these events came, in this order. -/
def after (es : List Event) : Reservations := es.foldl step empty

/-- What the number of an object met before is resolved to. -/
def resolve (t : Reservations) (n : Nat) : Except DecodeError ObjectId :=
  (t.get? n).elim (.error (.unknownReference n)) .ok

/-- Everything that these events open they close again, and nothing else. -/
inductive Balanced : List Event → Prop
  | nil : Balanced []
  | bind (o : ObjectId) {rest : List Event} : Balanced rest → Balanced (.bind o :: rest)
  | nest {inner rest : List Event} {e : Event} :
      Balanced inner → e.Closes → Balanced rest → Balanced (.reserve :: inner ++ e :: rest)

/-- `k` reservations came before one that is the innermost open one at the end. -/
def Innermost (es : List Event) (k : Nat) : Prop :=
  ∃ before inner, es = before ++ .reserve :: inner ∧ before.count .reserve = k ∧ Balanced inner

/-- While number `k` was the innermost, this event came with `o`. -/
def Offered (f : ObjectId → Event) (es : List Event) (k : Nat) (o : ObjectId) : Prop :=
  ∃ before, before ++ [f o] <+: es ∧ Innermost before k

/-- While number `k` was the innermost, `o` was bound, and no object before it. -/
def FirstBound (es : List Event) (k : Nat) (o : ObjectId) : Prop :=
  ∃ before, before ++ [.bind o] <+: es ∧ Innermost before k ∧ ∀ p, ¬ Offered .bind before k p

/-- Number `k` was closed as the object `o`, and no object was bound to it. -/
def OnlyClosed (es : List Event) (k : Nat) (o : ObjectId) : Prop :=
  Offered (fun p => .finish (.object p)) es k o ∧ ∀ p, ¬ Offered .bind es k p

/-- Number `k` stands for `o`, which was bound first while `k` was the innermost number, or which
`k` was closed as, if there was no such object. -/
def StandsFor (es : List Event) (k : Nat) (o : ObjectId) : Prop :=
  FirstBound es k o ∨ OnlyClosed es k o

end Reservations

/-! ### The reader -/

/-- The number of a marker is resolved among the reservations. -/
theorem ReadM.known_eq (n : Nat) (st : ReadState) :
    ReadM.known n st =
      Pass.ofExcept (((st.reservations.resolve n).map Value.object).mapError CodecError.decode)
        st := by
  unfold ReadM.known
  rw [Pass.bind_run, Pass.get_run]
  simp only [Reservations.resolve]
  cases st.reservations.get? n <;> rfl

/-- An object is read between a reservation and an event that closes it, whether it can be read or
not. -/
theorem ReadM.reservations_numbered (body : ReadM Value) (st : ReadState) :
    ∃ e, Reservations.Event.Closes e ∧ (ReadM.numbered body st).2.reservations =
      (body { st with reservations := st.reservations.step .reserve }).2.reservations.step e := by
  simp only [ReadM.numbered, Reservations.step]
  rcases body { st with reservations := st.reservations.reserve } with ⟨_ | v, st'⟩
  · exact ⟨.abandon, trivial, rfl⟩
  · exact ⟨.finish v, trivial, rfl⟩

namespace Reservations

variable {t : Reservations} {es before inner rest : List Event} {e : Event} {ks : List Nat}
  {k n : Nat} {o : ObjectId} {f : ObjectId → Event}

theorem resolve_eq_ok : t.resolve n = .ok o ↔ t.get? n = some o := by
  unfold resolve
  cases t.get? n <;> simp

theorem resolve_eq_error :
    t.resolve n = .error (.unknownReference n) ↔ ∀ o, t.resolve n ≠ .ok o := by
  unfold resolve
  cases t.get? n <;> simp

/-! ### One event -/

/-- A reservation, a binding, or an event that closes. -/
theorem Event.closing {P : Event → Prop} (reserve : P .reserve) (bind : ∀ o, P (.bind o))
    (closes : ∀ e, e.Closes → P e) (e : Event) : P e := by
  cases e with
  | reserve => exact reserve
  | bind o => exact bind o
  | finish v => exact closes _ trivial
  | abandon => exact closes _ trivial

/-- To close an object is to take up what the event has for it, and to drop its number. -/
theorem step_of_closes (he : e.Closes) (t : Reservations) :
    t.step e = (e.offer.elim t t.bind).abandon := by
  obtain ⟨objects, _ | ⟨n, pending⟩⟩ := t <;> cases e with
  | finish v => cases v <;> rfl
  | abandon => rfl
  | reserve => cases he
  | bind o => cases he

theorem pending_step_of_closes (he : e.Closes) (t : Reservations) :
    (t.step e).pending = t.pending.tail := by
  rw [step_of_closes he]
  cases e.offer with
  | none => rfl
  | some o => exact congrArg List.tail (pending_bind t o)

theorem length_objects_step (t : Reservations) (e : Event) :
    (t.step e).objects.length = t.objects.length + [e].count .reserve := by
  cases e using Event.closing with
  | reserve => exact List.length_append
  | bind o => exact length_bind t o
  | closes e he =>
      have hne : e ≠ .reserve := by
        rintro rfl
        exact he
      rw [step_of_closes he, List.count_eq_zero.mpr (mt List.mem_singleton.mp hne.symm)]
      cases e.offer with
      | none => rfl
      | some o => exact length_bind t o

/-- The numbers that are being read have their places, and no two of them are the same. -/
structure Sound (t : Reservations) : Prop where
  inside : t.Inside
  nodup : t.pending.Nodup

theorem Sound.empty : empty.Sound := ⟨nofun, .nil⟩

theorem Sound.bind (h : t.Sound) (o : ObjectId) : (t.bind o).Sound :=
  ⟨h.inside.bind o, pending_bind t o ▸ h.nodup⟩

theorem Sound.step (h : t.Sound) (e : Event) : (t.step e).Sound := by
  cases e using Event.closing with
  | reserve =>
      refine ⟨h.inside.reserve, List.nodup_cons.mpr ⟨fun hn => ?_, h.nodup⟩⟩
      exact Nat.lt_irrefl _ (h.inside _ hn)
  | bind o => exact h.bind o
  | closes e he =>
      rw [step_of_closes he]
      have hin : (e.offer.elim t t.bind).Sound := by
        cases e.offer with
        | none => exact h
        | some o => exact h.bind o
      exact ⟨hin.inside.abandon, hin.nodup.sublist (List.tail_sublist _)⟩

theorem get?_bind_of_inside (h : t.Inside) (o : ObjectId) (k : Nat) :
    (t.bind o).get? k =
      if t.pending.head? = some k then (t.get? k).or (some o) else t.get? k := by
  have hk : (t.pending.head? = some k ∧ k < t.objects.length) ↔ t.pending.head? = some k :=
    and_iff_left_of_imp fun hk => h k (List.mem_of_mem_head? hk)
  rw [get?_bind, if_congr hk rfl rfl]
  cases t.get? k <;> rfl

/-- An event binds the innermost number, if it has an object for it and the number has none. -/
theorem get?_step (h : t.Inside) (e : Event) (k : Nat) :
    (t.step e).get? k =
      if t.pending.head? = some k then (t.get? k).or e.offer else t.get? k := by
  cases e using Event.closing with
  | reserve => simp [Reservations.step, Event.offer, get?_reserve]
  | bind o => exact get?_bind_of_inside h o k
  | closes e he =>
      rw [step_of_closes he, get?_abandon]
      cases e.offer with
      | none => simp
      | some o => exact get?_bind_of_inside h o k

theorem get?_step_of_some (h : t.Inside) (ho : t.get? k = some o) (e : Event) :
    (t.step e).get? k = some o := by
  rw [get?_step h, ho]
  exact ite_self _

/-! ### Runs of events -/

theorem after_concat (es : List Event) (e : Event) : after (es ++ [e]) = (after es).step e :=
  List.foldl_concat step empty e es

theorem sound_after (es : List Event) : (after es).Sound := by
  induction es using List.reverseRecOn with
  | nil => exact .empty
  | append_singleton es e ih => exact after_concat es e ▸ ih.step e

/-- The next number is the number of reservations so far. -/
theorem length_objects_after (es : List Event) :
    (after es).objects.length = es.count .reserve := by
  induction es using List.reverseRecOn with
  | nil => rfl
  | append_singleton es e ih => rw [after_concat, length_objects_step, ih, List.count_append]

theorem get?_after_append (ho : (after es).get? k = some o) (more : List Event) :
    (after (es ++ more)).get? k = some o := by
  induction more using List.reverseRecOn with
  | nil => rwa [List.append_nil]
  | append_singleton more e ih =>
      rw [← List.append_assoc, after_concat]
      exact get?_step_of_some (sound_after _).inside ih e

/-! ### The innermost number -/

theorem Balanced.append (h : Balanced inner) (hrest : Balanced rest) :
    Balanced (inner ++ rest) := by
  induction h with
  | nil => exact hrest
  | bind o _ ih => exact .bind o ih
  | nest hin he _ _ ih =>
      simp only [List.append_assoc, List.cons_append]
      exact .nest hin he ih

/-- Balanced events leave the numbers that are being read as they were. -/
theorem Balanced.pending (h : Balanced inner) (t : Reservations) :
    (inner.foldl step t).pending = t.pending := by
  induction h generalizing t with
  | nil => rfl
  | bind o _ ih => exact (ih _).trans (pending_bind t o)
  | nest _ he _ ihin ihrest =>
      rw [List.foldl_append, List.foldl_cons, List.foldl_cons, ihrest, pending_step_of_closes he,
        ihin]
      rfl

theorem pending_after_of_balanced (hin : Balanced inner) (before : List Event) :
    (after (before ++ .reserve :: inner)).pending =
      before.count .reserve :: (after before).pending := by
  rw [after, List.foldl_append, List.foldl_cons, hin.pending, ← length_objects_after]
  rfl

/-- A number that is being read was reserved when what lies outside of it was being read, and only
balanced events came since then. -/
theorem balanced_of_pending (h : (after es).pending = k :: ks) :
    ∃ before inner, es = before ++ .reserve :: inner ∧ before.count .reserve = k ∧
      Balanced inner ∧ (after before).pending = ks := by
  induction hn : es.length using Nat.strong_induction_on generalizing es k ks with
  | h n ih =>
  subst hn
  rcases List.eq_nil_or_concat' es with rfl | ⟨es, e, rfl⟩
  · cases h
  have hlt : es.length < (es ++ [e]).length := by simp
  rw [after_concat] at h
  cases e using Event.closing with
  | reserve =>
      obtain ⟨rfl, rfl⟩ := List.cons.inj h
      exact ⟨es, [], rfl, (length_objects_after es).symm, .nil, rfl⟩
  | bind o =>
      obtain ⟨before, inner, rfl, hk, hin, hks⟩ := ih _ hlt ((pending_bind _ o).symm.trans h) rfl
      exact ⟨before, inner ++ [.bind o], by simp, hk, hin.append (.bind o .nil), hks⟩
  | closes e he =>
      -- the number that is closed lay inside of `k`, and so did all that came since it was reserved
      rw [pending_step_of_closes he] at h
      rcases hp : (after es).pending with _ | ⟨j, rest⟩ <;> rw [hp] at h
      · cases h
      obtain rfl : rest = k :: ks := h
      obtain ⟨outer, closed, rfl, -, hclosed, hks⟩ := ih _ hlt hp rfl
      obtain ⟨before, inner, rfl, hk, hin, hks⟩ := ih outer.length (by simp) hks rfl
      refine ⟨before, inner ++ (.reserve :: closed ++ [e]), by simp, hk, ?_, hks⟩
      exact hin.append (.nest hclosed he .nil)

theorem pending_head?_iff (es : List Event) (k : Nat) :
    (after es).pending.head? = some k ↔ Innermost es k := by
  constructor
  · intro h
    obtain ⟨ks, hks⟩ := List.head?_eq_some_iff.mp h
    obtain ⟨before, inner, hes, hk, hin, -⟩ := balanced_of_pending hks
    exact ⟨before, inner, hes, hk, hin⟩
  · rintro ⟨before, inner, rfl, rfl, hin⟩
    rw [pending_after_of_balanced hin]
    rfl

theorem Innermost.mem_pending (h : Innermost es k) : k ∈ (after es).pending :=
  List.mem_of_mem_head? ((pending_head?_iff es k).mpr h)

/-! ### What was offered -/

/-- What was so before some event came is so after one more, or was so before this one. -/
theorem exists_prefix_concat {P : List Event → Prop} {a : Event} :
    (∃ before, before ++ [a] <+: es ++ [e] ∧ P before) ↔
      (∃ before, before ++ [a] <+: es ∧ P before) ∨ e = a ∧ P es := by
  constructor
  · rintro ⟨before, hbefore, hP⟩
    rcases List.prefix_concat_iff.mp hbefore with heq | hbefore
    · obtain ⟨rfl, ha⟩ := List.append_inj' heq rfl
      cases ha
      exact .inr ⟨rfl, hP⟩
    · exact .inl ⟨before, hbefore, hP⟩
  · rintro (⟨before, hbefore, hP⟩ | ⟨rfl, hP⟩)
    · exact ⟨before, hbefore.trans (List.prefix_append _ _), hP⟩
    · exact ⟨es, List.prefix_rfl, hP⟩

theorem not_offered_nil (f : ObjectId → Event) (k : Nat) (o : ObjectId) : ¬ Offered f [] k o := by
  rintro ⟨before, hbefore, -⟩
  simp at hbefore

theorem offered_concat :
    Offered f (es ++ [e]) k o ↔ Offered f es k o ∨ e = f o ∧ Innermost es k :=
  exists_prefix_concat

theorem firstBound_concat :
    FirstBound (es ++ [e]) k o ↔
      FirstBound es k o ∨ e = .bind o ∧ Innermost es k ∧ ∀ p, ¬ Offered .bind es k p :=
  exists_prefix_concat

theorem FirstBound.offered (h : FirstBound es k o) : Offered .bind es k o :=
  ⟨h.choose, h.choose_spec.1, h.choose_spec.2.1⟩

/-- Of the objects bound to a number one was the first. -/
theorem exists_firstBound (h : Offered .bind es k o) : ∃ p, FirstBound es k p := by
  induction es using List.reverseRecOn generalizing o with
  | nil => exact absurd h (not_offered_nil _ _ _)
  | append_singleton es e ih =>
      by_cases hes : ∃ p, Offered .bind es k p
      · obtain ⟨p, hp⟩ := hes
        obtain ⟨q, hq⟩ := ih hp
        exact ⟨q, firstBound_concat.mpr (.inl hq)⟩
      · have hnot : ∀ p, ¬ Offered .bind es k p := not_exists.mp hes
        obtain ⟨he, hk⟩ := (offered_concat.mp h).resolve_left (hnot o)
        exact ⟨o, firstBound_concat.mpr (.inr ⟨he, hk, hnot⟩)⟩

/-- A number that was closed is not read again. -/
theorem not_mem_pending_of_offered (hf : ∀ o, (f o).Closes) (h : Offered f es k o) :
    k < (after es).objects.length ∧ k ∉ (after es).pending := by
  induction es using List.reverseRecOn with
  | nil => exact absurd h (not_offered_nil _ _ _)
  | append_singleton es e ih =>
      rw [after_concat, length_objects_step]
      rcases offered_concat.mp h with h | ⟨rfl, hk⟩
      · obtain ⟨hlt, hnot⟩ := ih h
        refine ⟨Nat.lt_add_right _ hlt, ?_⟩
        cases e using Event.closing with
        | reserve => exact List.not_mem_cons_of_ne_of_not_mem hlt.ne hnot
        | bind o => rwa [step, pending_bind]
        | closes e he =>
            rw [pending_step_of_closes he]
            exact fun hk => hnot (List.mem_of_mem_tail hk)
      · have hs := sound_after es
        refine ⟨Nat.lt_add_right _ (hs.inside _ hk.mem_pending), ?_⟩
        obtain ⟨ks, hks⟩ := List.head?_eq_some_iff.mp ((pending_head?_iff es k).mpr hk)
        rw [pending_step_of_closes (hf o), hks]
        exact (List.nodup_cons.mp (hks ▸ hs.nodup)).1

theorem Innermost.not_closed (h : Innermost es k) (o : ObjectId) :
    ¬ Offered (fun p => .finish (.object p)) es k o :=
  fun ho => (not_mem_pending_of_offered (f := fun p => .finish (.object p)) (fun _ => trivial)
    ho).2 h.mem_pending

/-! ### The instances -/

theorem not_standsFor_nil (k : Nat) (o : ObjectId) : ¬ StandsFor [] k o := by
  rintro (h | h)
  · exact not_offered_nil _ _ _ h.offered
  · exact not_offered_nil _ _ _ h.1

theorem Event.eq_of_offer (h : e.offer = some o) : e = .bind o ∨ e = .finish (.object o) := by
  unfold offer at h
  split at h <;> cases h
  · exact .inl rfl
  · exact .inr rfl

/-- An event that has no object, or comes while another number is the innermost, changes nothing. -/
theorem standsFor_concat_of_not (h : Innermost es k → e.offer = none) :
    StandsFor (es ++ [e]) k o ↔ StandsFor es k o := by
  have hbind : ∀ p, ¬ (e = .bind p ∧ Innermost es k) := by
    rintro p ⟨rfl, hk⟩
    cases h hk
  have hfinish : ∀ p, ¬ (e = .finish (.object p) ∧ Innermost es k) := by
    rintro p ⟨rfl, hk⟩
    cases h hk
  have hfirst : FirstBound (es ++ [e]) k o ↔ FirstBound es k o :=
    firstBound_concat.trans (or_iff_left fun hnew => hbind o ⟨hnew.1, hnew.2.1⟩)
  simp only [StandsFor, OnlyClosed, hfirst, offered_concat, hbind, hfinish, or_false]

/-- The object that an event has for the innermost number counts if none was bound before. -/
theorem standsFor_concat {p : ObjectId} (hk : Innermost es k) (he : e.offer = some p) :
    StandsFor (es ++ [e]) k o ↔
      FirstBound es k o ∨ (∀ q, ¬ Offered .bind es k q) ∧ p = o := by
  rcases Event.eq_of_offer he with rfl | rfl
  · have hclosed : ¬ OnlyClosed (es ++ [.bind p]) k o :=
      fun h => h.2 p (offered_concat.mpr (.inr ⟨rfl, hk⟩))
    simp only [StandsFor, or_iff_left hclosed, firstBound_concat, Event.bind.injEq, hk, true_and,
      and_comm]
  · have hopen := hk.not_closed o
    simp [StandsFor, OnlyClosed, firstBound_concat, offered_concat, hk, hopen, and_comm]

/-- A number stands for the object that was bound first while it was the innermost, or else for the
object that it was closed as. -/
theorem get?_after (es : List Event) (k : Nat) (o : ObjectId) :
    (after es).get? k = some o ↔ StandsFor es k o := by
  induction es using List.reverseRecOn generalizing o with
  | nil => exact iff_of_false nofun (not_standsFor_nil k o)
  | append_singleton es e ih =>
      rw [after_concat, get?_step (sound_after es).inside]
      by_cases hoffer : Innermost es k → e.offer = none
      · rw [standsFor_concat_of_not hoffer, ← ih]
        split
        · next hk => rw [hoffer ((pending_head?_iff es k).mp hk), Option.or_none]
        · rfl
      · obtain ⟨hk, hne⟩ := Classical.not_imp.mp hoffer
        obtain ⟨p, hp⟩ := Option.ne_none_iff_exists'.mp hne
        rw [if_pos ((pending_head?_iff es k).mpr hk), standsFor_concat hk hp, hp]
        -- what is still open was not closed, so that only bindings count
        have ih : ∀ o, (after es).get? k = some o ↔ FirstBound es k o := fun o =>
          (ih o).trans (or_iff_left fun h => hk.not_closed o h.1)
        rcases hg : (after es).get? k with _ | q
        · have hnot : ∀ q, ¬ Offered .bind es k q := by
            intro q hq
            obtain ⟨r, hr⟩ := exists_firstBound hq
            cases hg.symm.trans ((ih r).mpr hr)
          have hfirst : ¬ FirstBound es k o := fun h => hnot o h.offered
          rw [Option.none_or, Option.some.injEq, or_iff_right hfirst, and_iff_right hnot]
        · have hbound : ¬ ∀ q, ¬ Offered .bind es k q :=
            fun hnot => hnot q ((ih q).mp hg).offered
          rw [Option.some_or, ← hg, ih, or_iff_left fun h => hbound h.1]

theorem pending_after_reserve (es : List Event) :
    (after (es ++ [.reserve])).pending = es.count .reserve :: (after es).pending :=
  pending_after_of_balanced .nil es

theorem pending_after_closes (he : e.Closes) (hk : Innermost es k) :
    (after es).pending = k :: (after (es ++ [e])).pending := by
  rw [after_concat, pending_step_of_closes he]
  exact (List.cons_head?_tail ((pending_head?_iff es k).mpr hk)).symm

theorem resolve_after_of_ne (hk : Innermost es k) (e : Event) (hn : n ≠ k) :
    (after (es ++ [e])).resolve n = (after es).resolve n := by
  have hhead : ¬ (after es).pending.head? = some n := fun h =>
    hn (Option.some.inj (h.symm.trans ((pending_head?_iff es k).mpr hk)))
  unfold resolve
  rw [after_concat, get?_step (sound_after es).inside, if_neg hhead]

theorem resolve_after (es : List Event) (k : Nat) (o : ObjectId) :
    (after es).resolve k = .ok o ↔ StandsFor es k o :=
  resolve_eq_ok.trans (get?_after es k o)

/-- **A number is bound once, and to the right object.**  Whatever comes to the reservations of a
reader: a reservation gets the number of reservations before it, and is the innermost until
something closes it; what closes takes off exactly the innermost number, and leaves all others as
they were; a number is resolved to what was bound first while it was the innermost, or else to what
it was closed as, and is unknown if it was neither bound nor closed as an object; and a number that
is resolved to an object is so forever. -/
theorem binds_once (es : List Event) (k : Nat) :
    (after (es ++ [.reserve])).pending = es.count .reserve :: (after es).pending ∧
      ((after es).pending.head? = some k ↔ Innermost es k) ∧
      (∀ e, Event.Closes e → Innermost es k →
        (after es).pending = k :: (after (es ++ [e])).pending ∧
          ∀ n, n ≠ k → (after (es ++ [e])).resolve n = (after es).resolve n) ∧
      (∀ o, (after es).resolve k = .ok o ↔ StandsFor es k o) ∧
      ((after es).resolve k = .error (.unknownReference k) ↔ ∀ o, ¬ StandsFor es k o) ∧
      ∀ more o, (after es).resolve k = .ok o → (after (es ++ more)).resolve k = .ok o := by
  refine ⟨pending_after_reserve es, pending_head?_iff es k, fun e he hk => ?_, resolve_after es k,
    ?_, fun more o ho => ?_⟩
  · exact ⟨pending_after_closes he hk, fun n => resolve_after_of_ne hk e⟩
  · rw [resolve_eq_error]
    exact forall_congr' fun o => not_congr (resolve_after es k o)
  · exact resolve_eq_ok.mpr (get?_after_append (resolve_eq_ok.mp ho) more)

-- the inner object is not bound before it is closed, and does not take the number of the outer one
example :
    let t := after [.reserve, .bind 10, .reserve, .finish (.object 20), .finish (.object 10)]
    t.resolve 0 = .ok 10 ∧ t.resolve 1 = .ok 20 ∧ t.resolve 2 = .error (.unknownReference 2) :=
  ⟨rfl, rfl, rfl⟩

end Reservations

end GraphCodec
