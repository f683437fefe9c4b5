import GraphCodec.Proofs.Mirroring
import GraphCodec.Proofs.Reserving

/-!
# Objects — writer and reader number alike

A writer that meets objects one after the other puts down their markers (`Numbering.codes`).  A
reader that follows the markers makes a new instance for each one that says so, and looks up all
others; at any time it may close what it has open (`Reservations.replay`).  The instance that it
makes for number `n` is `fresh n`, where no two numbers have the same one.

* `replay_eq`: the reader comes to the instance that was made for the number of the object.
* `identities_agree`: it comes to the same instance twice where the writer met the same object
  twice, and nowhere else.
-/

namespace GraphCodec

namespace Numbering

/-- The objects met after these ones too. -/
def meetAll (t : Numbering) (os : List ObjectId) : Numbering := os.foldl (fun t o => (t.meet o).2) t

/-- The markers that a writer puts down for these objects. -/
def codes : Numbering → List ObjectId → List Nat
  | _, [] => []
  | t, o :: os => (t.meet o).1.code :: codes (t.meet o).2 os

end Numbering

/-- What a reader does about objects that have markers: it follows the next marker, or closes the
innermost object that is open. -/
inductive Move
  | follow (code : Nat)
  | close (v : Value)
  deriving DecidableEq

/-- The marker that the reader follows, if it does. -/
def Move.code? : Move → Option Nat
  | follow code => some code
  | close _ => none

namespace Reservations

/-- The instances that a reader comes to, one for each marker.  It makes `fresh n` for number `n`
and binds it at once. -/
def replay (fresh : Nat → ObjectId) : Reservations → List Move → Except DecodeError (List ObjectId)
  | _, [] => .ok []
  | t, .close v :: moves => replay fresh (t.finish v) moves
  | t, .follow code :: moves =>
    match Marker.ofCode code with
    | .null => .error .unexpectedNull
    | .new => do
      let p := fresh t.objects.length
      return p :: (← replay fresh (t.reserve.bind p) moves)
    | .known n => do
      let p ← t.resolve n
      return p :: (← replay fresh t moves)

end Reservations

namespace Numbering

variable {t : Numbering} {o : ObjectId} {os : List ObjectId}

/-! ### The writer -/

theorem meet_of_mem (ho : o ∈ t.seen) : t.meet o = (.known (t.seen.idxOf o), t) := by
  simp only [meet, number?_of_mem ho]

theorem meet_of_not_mem (ho : o ∉ t.seen) : t.meet o = (.new, ⟨t.seen ++ [o]⟩) := by
  simp only [meet, number?_eq_none.mpr ho]

theorem mem_seen_meet_iff (t : Numbering) (o p : ObjectId) :
    p ∈ (t.meet o).2.seen ↔ p ∈ t.seen ∨ p = o := by
  rw [seen_meet]
  split
  · next ho => exact ⟨.inl, fun h => h.elim id fun hp => hp ▸ ho⟩
  · rw [List.mem_append, List.mem_singleton]

theorem mem_seen_meet (t : Numbering) (o : ObjectId) : o ∈ (t.meet o).2.seen :=
  (mem_seen_meet_iff t o o).mpr (.inr rfl)

theorem seen_prefix_meet (t : Numbering) (o : ObjectId) : t.seen <+: (t.meet o).2.seen := by
  by_cases ho : o ∈ t.seen
  · rw [meet_of_mem ho]
  · rw [meet_of_not_mem ho]
    exact List.prefix_append _ _

theorem nodup_meet (h : t.seen.Nodup) (o : ObjectId) : (t.meet o).2.seen.Nodup := by
  by_cases ho : o ∈ t.seen
  · rwa [meet_of_mem ho]
  · rw [meet_of_not_mem ho]
    exact List.concat_eq_append ▸ h.concat ho

theorem seen_prefix_meetAll (t : Numbering) (os : List ObjectId) :
    t.seen <+: (t.meetAll os).seen := by
  induction os generalizing t with
  | nil => exact List.prefix_rfl
  | cons o os ih => exact (seen_prefix_meet t o).trans (ih _)

theorem nodup_meetAll (h : t.seen.Nodup) (os : List ObjectId) : (t.meetAll os).seen.Nodup := by
  induction os generalizing t with
  | nil => exact h
  | cons o os ih => exact ih (nodup_meet h o)

/-- The objects that have numbers are those that were met. -/
theorem mem_seen_meetAll_iff (t : Numbering) (os : List ObjectId) (p : ObjectId) :
    p ∈ (t.meetAll os).seen ↔ p ∈ t.seen ∨ p ∈ os := by
  induction os generalizing t with
  | nil => simp [meetAll]
  | cons o os ih =>
      rw [meetAll, List.foldl_cons, ← meetAll, ih, mem_seen_meet_iff, or_assoc, List.mem_cons]

/-- An object keeps the number that it got first. -/
theorem idxOf_seen_meetAll (t : Numbering) (o : ObjectId) (os : List ObjectId) :
    (t.meetAll (o :: os)).seen.idxOf o = (t.meet o).2.seen.idxOf o := by
  obtain ⟨rest, hrest⟩ := seen_prefix_meetAll (t.meet o).2 os
  rw [meetAll, List.foldl_cons, ← meetAll, ← hrest, List.idxOf_append_of_mem (mem_seen_meet t o)]

/-- No marker is greater than it has to be for the number of the last object. -/
theorem le_of_mem_codes {code : Nat} (hcode : code ∈ t.codes os) :
    code ≤ (t.meetAll os).seen.length + 1 := by
  induction os generalizing t with
  | nil => cases hcode
  | cons o os ih =>
      rcases List.mem_cons.mp hcode with rfl | hcode
      · have hle := (seen_prefix_meetAll (t.meet o).2 os).length_le
        exact (code_meet_le t o).trans (Nat.succ_le_succ hle)
      · exact ih hcode

end Numbering

namespace Reservations

variable {fresh : Nat → ObjectId} {t : Numbering} {r : Reservations} {seen : List ObjectId}

/-! ### The reader -/

/-- As many numbers were given out as there are objects, and each stands for its instance. -/
structure Mirrors (fresh : Nat → ObjectId) (seen : List ObjectId) (r : Reservations) : Prop where
  inside : r.Inside
  length : r.objects.length = seen.length
  get : ∀ n < seen.length, r.get? n = some (fresh n)

theorem Mirrors.finish (h : Mirrors fresh seen r) (v : Value) :
    Mirrors fresh seen (r.finish v) where
  inside := h.inside.finish v
  length := by
    rw [← h.length]
    exact length_objects_step r (.finish v)
  get n hn := get?_step_of_some h.inside (h.get n hn) (.finish v)

theorem Mirrors.reserve_bind (h : Mirrors fresh seen r) (o : ObjectId) :
    Mirrors fresh (seen ++ [o]) (r.reserve.bind (fresh r.objects.length)) where
  inside := h.inside.reserve.bind _
  length := by rw [bind_reserve, List.length_append, List.length_append, h.length]; rfl
  get n hn := by
    rw [List.length_append, List.length_singleton] at hn
    rcases Nat.lt_succ_iff_lt_or_eq.mp hn with hn | rfl
    · exact get?_step_of_some h.inside.reserve
        (get?_step_of_some h.inside (h.get n hn) .reserve) (.bind _)
    · rw [bind_reserve, get?, ← h.length, List.getElem?_concat_length]
      rfl

/-- The reader comes to the instance with the number of the object, made just now if the object is
new. -/
theorem replay_meet (h : Mirrors fresh t.seen r) (o : ObjectId) :
    ∃ r', Mirrors fresh (t.meet o).2.seen r' ∧ ∀ moves,
      replay fresh r (.follow (t.meet o).1.code :: moves) =
        (fresh ((t.meet o).2.seen.idxOf o) :: ·) <$> replay fresh r' moves := by
  by_cases ho : o ∈ t.seen
  · rw [Numbering.meet_of_mem ho]
    refine ⟨r, h, fun moves => ?_⟩
    have hget : r.resolve (t.seen.idxOf o) = .ok (fresh (t.seen.idxOf o)) :=
      resolve_eq_ok.mpr (h.get _ (List.idxOf_lt_length_of_mem ho))
    simp only [replay, Marker.ofCode_code, hget]
    rfl
  · rw [Numbering.meet_of_not_mem ho]
    refine ⟨_, h.reserve_bind o, fun moves => ?_⟩
    have hidx : (t.seen ++ [o]).idxOf o = r.objects.length := by
      rw [List.idxOf_append_of_notMem ho, List.idxOf_cons_self, h.length, Nat.add_zero]
    simp only [replay, Marker.ofCode_code, hidx]
    rfl

/-- The reader comes to the instances with the numbers of the objects, whatever it closes between
the markers, and whenever. -/
theorem replay_eq {os : List ObjectId} {moves : List Move} (h : Mirrors fresh t.seen r)
    (hmoves : moves.filterMap Move.code? = t.codes os) :
    replay fresh r moves = .ok (os.map fun o => fresh ((t.meetAll os).seen.idxOf o)) := by
  induction moves generalizing os t r with
  | nil =>
      cases os with
      | nil => rfl
      | cons o os => cases hmoves
  | cons move moves ih =>
      cases move with
      | close v => exact ih (h.finish v) hmoves
      | follow code =>
          cases os with
          | nil => cases hmoves
          | cons o os =>
              obtain ⟨rfl, hrest⟩ := List.cons.inj hmoves
              obtain ⟨r', hr', hreplay⟩ := replay_meet h o
              rw [hreplay, ih hr' hrest, List.map_cons, Numbering.idxOf_seen_meetAll]
              rfl

theorem Mirrors.empty (fresh : Nat → ObjectId) : Mirrors fresh [] .empty :=
  ⟨nofun, rfl, nofun⟩

/-- **Writer and reader number alike.**  Whatever objects a writer meets, and whenever the reader of
their markers closes what it has open: the markers are no greater than it takes for that many
objects, the reader comes to an instance for every marker, and it is the same one at two places just
if the writer met the same object there. -/
theorem identities_agree {fresh : Nat → ObjectId} (hfresh : fresh.Injective) (os : List ObjectId)
    (moves : List Move) (hmoves : moves.filterMap Move.code? = Numbering.empty.codes os) :
    (∀ code ∈ Numbering.empty.codes os, code ≤ os.toFinset.card + 1) ∧
      ∃ xs, replay fresh .empty moves = .ok xs ∧ xs.length = os.length ∧
        ∀ i j, i < os.length → j < os.length → (xs[i]? = xs[j]? ↔ os[i]? = os[j]?) := by
  have hmem : ∀ p, p ∈ (Numbering.empty.meetAll os).seen ↔ p ∈ os := fun p =>
    (Numbering.mem_seen_meetAll_iff _ os p).trans (or_iff_right List.not_mem_nil)
  have hreplay := replay_eq (t := .empty) (Mirrors.empty fresh) hmoves
  refine ⟨fun code hcode => ?_, _, hreplay, List.length_map _, fun i j hi hj => ?_⟩
  · have hcard : (Numbering.empty.meetAll os).seen.length = os.toFinset.card := by
      have hnodup := Numbering.nodup_meetAll (t := .empty) List.nodup_nil os
      rw [← List.toFinset_card_of_nodup hnodup]
      exact congrArg Finset.card (Finset.ext fun p => by simp [hmem])
    exact hcard ▸ Numbering.le_of_mem_codes hcode
  · have hinj := List.idxOf_inj (y := os[j]) ((hmem os[i]).mpr (List.getElem_mem hi))
    simp only [List.getElem?_map, List.getElem?_eq_getElem hi, List.getElem?_eq_getElem hj,
      Option.map_some, Option.some.injEq, hfresh.eq_iff, hinj]

/-- Five objects, three of them different: the second one is closed between the markers, the others
behind them. -/
theorem identities_agree_five :
    ∃ xs, replay (· + 100) .empty [.follow 1, .follow 1, .close (.object 20), .follow 3, .follow 2,
        .close .null, .follow 1, .close .null] = .ok xs ∧
      xs[1]? = xs[2]? ∧ xs[0]? = xs[3]? ∧ xs[0]? ≠ xs[1]? ∧ xs[2]? ≠ xs[4]? := by
  obtain ⟨-, xs, hxs, -, hagree⟩ :=
    identities_agree (add_left_injective 100) [5, 7, 7, 5, 9]
      [.follow 1, .follow 1, .close (.object 20), .follow 3, .follow 2, .close .null, .follow 1,
        .close .null] (by decide)
  refine ⟨xs, hxs, ?_, ?_, ?_, ?_⟩ <;> simp [hagree]

end Reservations

end GraphCodec
