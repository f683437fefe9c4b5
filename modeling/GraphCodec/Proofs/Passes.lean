import GraphCodec.Codec.Pass

/-!
# Codecs — how passes compose

A pass is a function of its state.  `Keeps I m` says that `m` keeps the invariant `I` of the state,
also when it fails.  `Relates R m m'` says that two passes started in states that `R` relates end in
the same way, never for want of depth, in states that `R` relates; `Agrees R m m'` says so of any
depth.  `Allows R m m'` says no more than that `m'` ends well where `m` does, if it does not get too
deep.  `Tracks I F m m'` says that `m'` does what `m` does, or fails because of something that `m`
does not look at.  All of them come with one rule for each way in which passes are put together.  In
the rules for `>>=` the second part may take for granted that the first part can return what it is
given.
-/

namespace GraphCodec.Pass

variable {σ τ α β : Type}

/-! ### Runs -/

theorem pure_run (a : α) (st : σ) : (pure a : Pass σ α) st = (.ok a, st) := rfl

theorem get_run (st : σ) : (get : Pass σ σ) st = (.ok st, st) := rfl

theorem modify_run (f : σ → σ) (st : σ) : (modify f : Pass σ PUnit) st = (.ok ⟨⟩, f st) := rfl

theorem fail_run (e : CodecError) (st : σ) : (fail e : Pass σ α) st = (.error (.error e), st) := rfl

theorem bind_run (m : Pass σ α) (k : α → Pass σ β) (st : σ) :
    (m >>= k) st = match m st with
      | (.ok a, st') => k a st'
      | (.error e, st') => (.error e, st') := by
  show (match m st with | (r, st') => (ExceptT.bindCont k r : StateM σ _) st') = _
  rcases m st with ⟨_ | _, st'⟩ <;> rfl

theorem fail_bind (e : CodecError) (k : α → Pass σ β) : (fail e >>= k) = fail e := rfl

theorem bind_of_ok {m : Pass σ α} {st st' : σ} {a : α} (h : m st = (.ok a, st'))
    (k : α → Pass σ β) : (m >>= k) st = k a st' := by
  rw [bind_run, h]

theorem bind_of_error {m : Pass σ α} {st st' : σ} {e : Failure} (h : m st = (.error e, st'))
    (k : α → Pass σ β) : (m >>= k) st = (.error e, st') := by
  rw [bind_run, h]

/-- A pass in two parts ends well exactly if both parts do. -/
theorem bind_eq_ok {m : Pass σ α} {k : α → Pass σ β} {st st'' : σ} {b : β} :
    (m >>= k) st = (.ok b, st'') ↔ ∃ a st', m st = (.ok a, st') ∧ k a st' = (.ok b, st'') := by
  rw [bind_run]
  constructor
  · intro h
    rcases hm : m st with ⟨_ | a, st'⟩
    · rw [hm] at h
      cases h
    · rw [hm] at h
      exact ⟨a, st', rfl, h⟩
  · rintro ⟨a, st', hm, hk⟩
    rw [hm]
    exact hk

theorem ofExcept_eq_ok {x : Except CodecError α} {st st' : σ} {a : α} :
    (ofExcept x : Pass σ α) st = (.ok a, st') ↔ x = .ok a ∧ st' = st := by
  cases x with
  | error e =>
      constructor
      · intro h
        cases h
      · rintro ⟨⟨⟩, -⟩
  | ok b =>
      constructor
      · intro h
        cases h
        exact ⟨rfl, rfl⟩
      · rintro ⟨⟨⟩, rfl⟩
        rfl

theorem inField_eq_ok {owner : ClassId} {field : String} {body : Pass σ α} {st st' : σ} {a : α} :
    inField owner field body st = (.ok a, st') ↔ body st = (.ok a, st') := by
  constructor
  · intro h
    simp only [inField] at h
    rcases hb : body st with ⟨_ | b, st₁⟩
    · rw [hb] at h
      cases h
    · rw [hb] at h
      cases h
      rfl
  · exact inField_ok

/-- `a` is what some run of the pass returns. -/
def CanReturn (m : Pass σ α) (a : α) : Prop := ∃ st st', m st = (.ok a, st')

theorem CanReturn.ofExcept {x : Except CodecError α} {a : α}
    (h : CanReturn (Pass.ofExcept x : Pass σ α) a) : x = .ok a := by
  obtain ⟨st, st', h⟩ := h
  exact (ofExcept_eq_ok.mp h).1

/-! ### Invariants -/

/-- `I` holds after the pass if it held before. -/
def Keeps (I : σ → Prop) (m : Pass σ α) : Prop := ∀ st, I st → I (m st).2

variable {I : σ → Prop}

theorem Keeps.of_run {m : Pass σ α} (hm : Keeps I m) {st st' : σ} {x : Except Failure α}
    (hr : m st = (x, st')) (h : I st) : I st' := by
  have h' := hm st h
  rwa [hr] at h'

theorem keeps_pure (a : α) : Keeps I (pure a : Pass σ α) := fun _ h => h

theorem keeps_fail (e : CodecError) : Keeps I (fail e : Pass σ α) := fun _ h => h

theorem keeps_ofExcept (x : Except CodecError α) : Keeps I (ofExcept x : Pass σ α) := by
  cases x with
  | ok a => exact keeps_pure a
  | error e => exact keeps_fail e

theorem keeps_modify {f : σ → σ} (h : ∀ st, I st → I (f st)) : Keeps I (modify f : Pass σ PUnit) :=
  fun st hst => h st hst

theorem keeps_bind {m : Pass σ α} {k : α → Pass σ β} (hm : Keeps I m)
    (hk : ∀ a, CanReturn m a → Keeps I (k a)) : Keeps I (m >>= k) := by
  intro st h
  rw [bind_run]
  have h₁ := hm st h
  rcases hr : m st with ⟨_ | a, st'⟩
  · rw [hr] at h₁
    exact h₁
  · rw [hr] at h₁
    exact hk a ⟨st, st', hr⟩ st' h₁

theorem keeps_get_bind {k : σ → Pass σ β} (hk : ∀ a, I a → Keeps I (k a)) :
    Keeps I (get >>= k) :=
  fun st h => hk st h st h

theorem keeps_inField {owner : ClassId} {field : String} {m : Pass σ α} (hm : Keeps I m) :
    Keeps I (inField owner field m) := by
  intro st h
  have h₁ := hm st h
  simp only [inField]
  rcases hr : m st with ⟨_ | a, st'⟩ <;> rw [hr] at h₁ <;> exact h₁

/-! ### Two runs -/

/-- From related states both passes end in the same way, and not for want of depth, in related
states. -/
def Relates (R : σ → τ → Prop) (m : Pass σ α) (m' : Pass τ α) : Prop :=
  ∀ st st', R st st' →
    (m st).1 ≠ .error .tooDeep ∧ (m' st').1 = (m st).1 ∧ R (m st).2 (m' st').2

variable {R : σ → τ → Prop}

theorem relates_pure (a : α) : Relates R (pure a) (pure a) :=
  fun _ _ h => ⟨by rw [pure_run]; simp, rfl, h⟩

theorem relates_fail (e : CodecError) : Relates R (fail e : Pass σ α) (fail e) :=
  fun _ _ h => ⟨by rw [fail_run]; simp, rfl, h⟩

theorem relates_ofExcept (x : Except CodecError α) :
    Relates R (ofExcept x : Pass σ α) (ofExcept x) := by
  cases x with
  | ok a => exact relates_pure a
  | error e => exact relates_fail e

theorem relates_modify {f : σ → σ} {g : τ → τ} (h : ∀ st st', R st st' → R (f st) (g st')) :
    Relates R (modify f : Pass σ PUnit) (modify g) :=
  fun st st' hst => ⟨by rw [modify_run]; simp, rfl, h st st' hst⟩

theorem relates_bind {m : Pass σ α} {m' : Pass τ α} {k : α → Pass σ β} {k' : α → Pass τ β}
    (hm : Relates R m m') (hk : ∀ a, CanReturn m a → Relates R (k a) (k' a)) :
    Relates R (m >>= k) (m' >>= k') := by
  intro st st' h
  obtain ⟨h₁, h₂, h₃⟩ := hm st st' h
  rw [bind_run, bind_run]
  rcases hr : m st with ⟨e | a, t⟩ <;> rcases hr' : m' st' with ⟨e' | a', t'⟩ <;>
    rw [hr] at h₁ h₂ h₃ <;> rw [hr'] at h₂ h₃
  · cases h₂
    exact ⟨fun he => h₁ (by cases he; rfl), rfl, h₃⟩
  · cases h₂
  · cases h₂
  · cases h₂
    exact hk a ⟨st, t, hr⟩ t t' h₃

theorem relates_get_bind {k : σ → Pass σ β} {k' : τ → Pass τ β}
    (hk : ∀ a a', R a a' → Relates R (k a) (k' a')) : Relates R (get >>= k) (get >>= k') :=
  fun st st' h => hk st st' h st st' h

theorem relates_inField {owner : ClassId} {field : String} {m : Pass σ α} {m' : Pass τ α}
    (hm : Relates R m m') : Relates R (inField owner field m) (inField owner field m') := by
  intro st st' h
  obtain ⟨h₁, h₂, h₃⟩ := hm st st' h
  simp only [inField]
  rcases hr : m st with ⟨e | a, t⟩ <;> rcases hr' : m' st' with ⟨e' | a', t'⟩ <;>
    rw [hr] at h₁ h₂ h₃ <;> rw [hr'] at h₂ h₃ <;> cases h₂
  · refine ⟨fun he => h₁ ?_, rfl, h₃⟩
    cases e with
    | tooDeep => rfl
    | error e => cases he
  · exact ⟨h₁, rfl, h₃⟩

/-- From related states both passes end in the same way, in related states. -/
def Agrees (R : σ → τ → Prop) (m : Pass σ α) (m' : Pass τ α) : Prop :=
  ∀ st st', R st st' → (m' st').1 = (m st).1 ∧ R (m st).2 (m' st').2

theorem agrees_pure (a : α) : Agrees R (pure a) (pure a) := fun _ _ h => ⟨rfl, h⟩

theorem agrees_throw (e : Failure) : Agrees R (throw e : Pass σ α) (throw e) :=
  fun _ _ h => ⟨rfl, h⟩

theorem agrees_fail (e : CodecError) : Agrees R (fail e : Pass σ α) (fail e) := agrees_throw _

theorem agrees_ofExcept (x : Except CodecError α) :
    Agrees R (ofExcept x : Pass σ α) (ofExcept x) := by
  cases x with
  | ok a => exact agrees_pure a
  | error e => exact agrees_fail e

theorem agrees_modify {f : σ → σ} {g : τ → τ} (h : ∀ st st', R st st' → R (f st) (g st')) :
    Agrees R (modify f : Pass σ PUnit) (modify g) :=
  fun st st' hst => ⟨rfl, h st st' hst⟩

theorem agrees_bind {m : Pass σ α} {m' : Pass τ α} {k : α → Pass σ β} {k' : α → Pass τ β}
    (hm : Agrees R m m') (hk : ∀ a, CanReturn m a → Agrees R (k a) (k' a)) :
    Agrees R (m >>= k) (m' >>= k') := by
  intro st st' h
  obtain ⟨h₁, h₂⟩ := hm st st' h
  rw [bind_run, bind_run]
  rcases hr : m st with ⟨e | a, t⟩ <;> rcases hr' : m' st' with ⟨e' | a', t'⟩ <;>
    rw [hr] at h₁ h₂ <;> rw [hr'] at h₁ h₂ <;> cases h₁
  · exact ⟨rfl, h₂⟩
  · exact hk a ⟨st, t, hr⟩ t t' h₂

theorem agrees_get_bind {k : σ → Pass σ β} {k' : τ → Pass τ β}
    (hk : ∀ a a', R a a' → Agrees R (k a) (k' a')) : Agrees R (get >>= k) (get >>= k') :=
  fun st st' h => hk st st' h st st' h

theorem agrees_inField {owner : ClassId} {field : String} {m : Pass σ α} {m' : Pass τ α}
    (hm : Agrees R m m') : Agrees R (inField owner field m) (inField owner field m') := by
  intro st st' h
  obtain ⟨h₁, h₂⟩ := hm st st' h
  simp only [inField]
  rcases hr : m st with ⟨e | a, t⟩ <;> rcases hr' : m' st' with ⟨e' | a', t'⟩ <;>
    rw [hr] at h₁ h₂ <;> rw [hr'] at h₁ h₂ <;> cases h₁ <;> exact ⟨rfl, h₂⟩

/-! ### Runs that end well -/

/-- From related states the second pass ends well where the first one does, with the same answer and
in related states, or it gets too deep. -/
def Allows (R : σ → τ → Prop) (m : Pass σ α) (m' : Pass τ α) : Prop :=
  ∀ st st', R st st' → ∀ a t, m st = (.ok a, t) →
    (m' st').1 = .error .tooDeep ∨ ∃ t', m' st' = (.ok a, t') ∧ R t t'

theorem allows_pure (a : α) : Allows R (pure a) (pure a) := by
  rintro st st' h _ _ ⟨⟩
  exact .inr ⟨st', rfl, h⟩

theorem allows_fail (e : CodecError) (m' : Pass τ α) : Allows R (fail e) m' := nofun

theorem allows_tooDeep (m : Pass σ α) : Allows R m (throw .tooDeep : Pass τ α) :=
  fun _ _ _ _ _ _ => .inl rfl

theorem allows_ofExcept (x : Except CodecError α) :
    Allows R (ofExcept x : Pass σ α) (ofExcept x) := by
  cases x with
  | ok a => exact allows_pure a
  | error e => exact allows_fail e _

theorem allows_modify {f : σ → σ} {g : τ → τ} (h : ∀ st st', R st st' → R (f st) (g st')) :
    Allows R (modify f : Pass σ PUnit) (modify g) := by
  rintro st st' hst _ _ ⟨⟩
  exact .inr ⟨g st', rfl, h st st' hst⟩

theorem allows_bind {m : Pass σ α} {m' : Pass τ α} {k : α → Pass σ β} {k' : α → Pass τ β}
    (hm : Allows R m m') (hk : ∀ a, CanReturn m a → Allows R (k a) (k' a)) :
    Allows R (m >>= k) (m' >>= k') := by
  intro st st' h b t hr
  obtain ⟨a, t₁, h₁, h₂⟩ := bind_eq_ok.mp hr
  rcases hm st st' h a t₁ h₁ with hdeep | ⟨t₁', h₁', ht₁⟩
  · rcases hr' : m' st' with ⟨_ | _, _⟩ <;> rw [hr'] at hdeep <;> cases hdeep
    exact .inl (by rw [bind_of_error hr'])
  · rcases hk a ⟨st, t₁, h₁⟩ t₁ t₁' ht₁ b t h₂ with hdeep | ⟨t', h₂', ht⟩
    · exact .inl (by rw [bind_of_ok h₁', hdeep])
    · exact .inr ⟨t', (bind_of_ok h₁' k').trans h₂', ht⟩

theorem allows_get_bind {k : σ → Pass σ β} {k' : τ → Pass τ β}
    (hk : ∀ a a', R a a' → Allows R (k a) (k' a')) : Allows R (get >>= k) (get >>= k') :=
  fun st st' h => hk st st' h st st' h

theorem allows_inField {owner : ClassId} {field : String} {m : Pass σ α} {m' : Pass τ α}
    (hm : Allows R m m') : Allows R (inField owner field m) (inField owner field m') := by
  intro st st' h a t hr
  rcases hm st st' h a t (inField_eq_ok.mp hr) with hdeep | ⟨t', hr', ht⟩
  · rcases hr' : m' st' with ⟨_ | _, _⟩ <;> rw [hr'] at hdeep <;> cases hdeep
    exact .inl (by rw [inField_error hr']; rfl)
  · exact .inr ⟨t', inField_eq_ok.mpr hr', ht⟩

/-- The first pass may do something first. -/
theorem allows_keeps_bind {m : Pass σ β} {k : β → Pass σ α} {m' : Pass τ α}
    (hm : ∀ st', Keeps (fun st => R st st') m) (hk : ∀ b, CanReturn m b → Allows R (k b) m') :
    Allows R (m >>= k) m' := by
  intro st st' h a t hr
  obtain ⟨b, t₁, h₁, h₂⟩ := bind_eq_ok.mp hr
  exact hk b ⟨st, t₁, h₁⟩ t₁ st' ((hm st').of_run h₁ h) a t h₂

/-- What the first pass does that leaves the states related does not matter. -/
theorem allows_of_keeps {m : Pass σ Unit} {m' : Pass τ Unit}
    (hm : ∀ st', Keeps (fun st => R st st') m) (hm' : Allows R (pure ()) m') : Allows R m m' :=
  fun _ st' h _ t hr => hm' t st' ((hm st').of_run hr h) () t rfl

/-- The second pass may do something first. -/
theorem allows_bind_of_ok {m : Pass σ β} {m' : Pass τ α} {k' : α → Pass τ β} {a : α}
    (hm' : ∀ st st', R st st' → ∃ t', m' st' = (.ok a, t') ∧ R st t') (hk : Allows R m (k' a)) :
    Allows R m (m' >>= k') := by
  intro st st' h b t hr
  obtain ⟨t₁', h₁', ht₁⟩ := hm' st st' h
  rw [bind_of_ok h₁']
  exact hk st t₁' ht₁ b t hr

/-! ### Runs with more checks -/

/-- From states that satisfy `I` the second pass does what the first one does, or it fails, and `F`
holds of its failure. -/
def Tracks (I : σ → Prop) (F : CodecError → Prop) (m m' : Pass σ α) : Prop :=
  ∀ st, I st → m' st = m st ∨ ∃ e st', m' st = (.error (.error e), st') ∧ F e

variable {F : CodecError → Prop}

theorem tracks_refl (m : Pass σ α) : Tracks I F m m := fun _ _ => .inl rfl

theorem tracks_bind {m m' : Pass σ α} {k k' : α → Pass σ β} (hm : Tracks I F m m')
    (hI : Keeps I m) (hk : ∀ a, CanReturn m a → Tracks I F (k a) (k' a)) :
    Tracks I F (m >>= k) (m' >>= k') := by
  intro st h
  have h' := hI st h
  rw [bind_run, bind_run]
  rcases hm st h with hr | ⟨e, st', hr, he⟩
  · rw [hr]
    rcases hr' : m st with ⟨e | a, t⟩
    · exact .inl rfl
    · rw [hr'] at h'
      exact hk a ⟨st, t, hr'⟩ t h'
  · rw [hr]
    exact .inr ⟨e, st', rfl, he⟩

theorem tracks_inField {owner : ClassId} {field : String} {m m' : Pass σ α}
    (hm : Tracks I F m m') (hF : ∀ e, F e → F (.inField owner field e)) :
    Tracks I F (inField owner field m) (inField owner field m') := by
  intro st h
  simp only [inField]
  rcases hm st h with hr | ⟨e, st', hr, he⟩
  · exact .inl (by rw [hr])
  · exact .inr ⟨.inField owner field e, st', by rw [hr]; rfl, hF e he⟩

/-! ### One run from one state -/

/-- The run from `st` ends well as `Q` says, or fails as `E` says. -/
def Meets (m : Pass σ α) (st : σ) (Q : α → σ → Prop) (E : Failure → σ → Prop) : Prop :=
  match m st with
  | (.ok a, st') => Q a st'
  | (.error e, st') => E e st'

variable {Q : α → σ → Prop} {E : Failure → σ → Prop} {st st' : σ}

theorem meets_of_ok {m : Pass σ α} {a : α} (hm : m st = (.ok a, st')) (h : Q a st') :
    Meets m st Q E := by
  simp only [Meets]
  rw [hm]
  exact h

/-- What is known of a run that ended well. -/
theorem meets_ok {m : Pass σ α} {a : α} (hm : Meets m st Q E) (h : (m st).1 = .ok a) :
    Q a (m st).2 := by
  simp only [Meets] at hm
  rcases hr : m st with ⟨e | a', t⟩ <;> rw [hr] at hm h <;> cases h
  exact hm

theorem meets_bind {m : Pass σ β} {k : β → Pass σ α} {Q' : β → σ → Prop}
    (hm : Meets m st Q' E) (hk : ∀ b st', Q' b st' → Meets (k b) st' Q E) :
    Meets (m >>= k) st Q E := by
  simp only [Meets] at hm ⊢
  rw [bind_run]
  rcases hr : m st with ⟨_ | b, t⟩
  · rw [hr] at hm
    exact hm
  · rw [hr] at hm
    exact hk b t hm

theorem meets_bind_of_ok {m : Pass σ β} {k : β → Pass σ α} {b : β} (hm : m st = (.ok b, st'))
    (hk : Meets (k b) st' Q E) : Meets (m >>= k) st Q E := by
  simp only [Meets] at hk ⊢
  rw [bind_of_ok hm]
  exact hk

theorem meets_bind_of_error {m : Pass σ β} {k : β → Pass σ α} {e : Failure}
    (hm : m st = (.error e, st')) (h : E e st') : Meets (m >>= k) st Q E := by
  simp only [Meets]
  rw [bind_of_error hm]
  exact h

theorem meets_mono {m : Pass σ α} {Q' : α → σ → Prop} (hm : Meets m st Q' E)
    (h : ∀ a st', Q' a st' → Q a st') : Meets m st Q E := by
  simp only [Meets] at hm ⊢
  rcases hr : m st with ⟨_ | a, t⟩ <;> rw [hr] at hm
  · exact hm
  · exact h a t hm

theorem meets_mono_error {m : Pass σ α} {E' : Failure → σ → Prop} (hm : Meets m st Q E')
    (h : ∀ e st', E' e st' → E e st') : Meets m st Q E := by
  simp only [Meets] at hm ⊢
  rcases hr : m st with ⟨e | _, t⟩ <;> rw [hr] at hm
  · exact h e t hm
  · exact hm

theorem meets_inField {owner : ClassId} {field : String} {m : Pass σ α}
    {E' : Failure → σ → Prop} (hm : Meets m st Q E')
    (hE : ∀ e st', E' e st' → E (e.inField owner field) st') :
    Meets (inField owner field m) st Q E := by
  simp only [Meets] at hm ⊢
  simp only [inField]
  rcases hr : m st with ⟨_ | a, t⟩ <;> rw [hr] at hm
  · exact hE _ _ hm
  · exact hm

end GraphCodec.Pass
