import GraphCodec.Proofs.Matching

/-!
# Objects — equality of graphs decides isomorphism

`h.Compares p todo b` says that the comparison of the pairs `todo`, with the pairs `p` met so far,
ends and finds `b`.  It has one rule for each way in which a round of the comparison can go, and
knows no bound on the rounds.

* `compares_sameGraph_iff`: the comparison of two values ends, and finds what `sameGraph` says.
* `Compares.matching`: what has been met is at every time a one-to-one part of a matching, whose
  missing pairs are still to do; so a comparison that finds no difference has found a matching.
* `sameGraph_isomorphism`: two graphs are found to be the same exactly if they are isomorphic.
-/

namespace GraphCodec

namespace Heap

variable {h : Heap} {p : Pairing} {todo : List (Value × Value)} {v w : Value} {b : Bool}

/-! ### The comparison without a bound -/

/-- With the pairs of `p` met, comparing the pairs still to do ends and finds `b`. -/
inductive Compares (h : Heap) : Pairing → List (Value × Value) → Bool → Prop
  | done {p : Pairing} : Compares h p [] true
  /-- Two objects that were paired before. -/
  | met {p : Pairing} {todo : List (Value × Value)} {x y : ObjectId} {b : Bool}
      (hx : p.forward? x = some y) (rest : Compares h p todo b) :
      Compares h p ((.object x, .object y) :: todo) b
  /-- Two objects of which one was paired with another one. -/
  | clash {p : Pairing} {todo : List (Value × Value)} {x y : ObjectId}
      (hx : p.forward? x ≠ some y) (hmet : p.forward? x ≠ none ∨ p.backward? y ≠ none) :
      Compares h p ((.object x, .object y) :: todo) false
  /-- Two new objects that differ in class or size. -/
  | unlike {p : Pairing} {todo : List (Value × Value)} {x y : ObjectId}
      (hx : p.forward? x = none) (hy : p.backward? y = none)
      (hne : ¬ ((h.get x).owner = (h.get y).owner ∧
        (h.get x).slots.length = (h.get y).slots.length)) :
      Compares h p ((.object x, .object y) :: todo) false
  /-- Two new objects that may be paired; their slots are to do next. -/
  | opened {p : Pairing} {todo : List (Value × Value)} {x y : ObjectId} {b : Bool}
      (hx : p.forward? x = none) (hy : p.backward? y = none)
      (howner : (h.get x).owner = (h.get y).owner)
      (hsize : (h.get x).slots.length = (h.get y).slots.length)
      (rest : Compares h (p.add x y)
        (((h.get x).slots.zip (h.get y).slots).reverse ++ todo) b) :
      Compares h p ((.object x, .object y) :: todo) b
  /-- One plain value on both sides. -/
  | equal {p : Pairing} {todo : List (Value × Value)} {v : Value} {b : Bool}
      (hv : ∀ o, v ≠ .object o) (rest : Compares h p todo b) : Compares h p ((v, v) :: todo) b
  /-- Two values that differ, of which one at least is plain. -/
  | differ {p : Pairing} {todo : List (Value × Value)} {v w : Value} (hne : v ≠ w)
      (hplain : (∀ o, v ≠ .object o) ∨ ∀ o, w ≠ .object o) : Compares h p ((v, w) :: todo) false

/-- The rules do not overlap. -/
theorem Compares.unique {b' : Bool} (hb : h.Compares p todo b) (hb' : h.Compares p todo b') :
    b' = b := by
  induction hb with
  | done => cases hb'; rfl
  | clash | unlike | differ => cases hb' <;> grind
  | met _ _ ih | opened _ _ _ _ _ ih | equal _ _ ih => cases hb' <;> grind

/-- Where one of the values is plain, no objects are opened. -/
theorem sameFrom_of_plain (n : Nat) (p : Pairing) (todo : List (Value × Value))
    (hplain : (∀ o, v ≠ .object o) ∨ ∀ o, w ≠ .object o) :
    h.sameFrom (n + 1) p ((v, w) :: todo) = (v = w && h.sameFrom n p todo) := by
  rw [sameFrom]
  rintro x y rfl rfl
  exact hplain.elim (· x rfl) (· y rfl)

/-- The bound on the rounds is never met: each round takes a pair off the list, and the slots of an
object come onto it only once. -/
theorem compares_sameFrom {n : Nat}
    (hn : todo.length + h.slotsOutside (p.pairs.map Prod.fst) ≤ n) :
    h.Compares p todo (h.sameFrom n p todo) := by
  induction n generalizing p todo with
  | zero =>
      obtain rfl : todo = [] := List.eq_nil_of_length_eq_zero (by omega)
      exact .done
  | succ n ih =>
      obtain _ | ⟨⟨v, w⟩, todo⟩ := todo
      · exact .done
      rw [List.length_cons] at hn
      by_cases hplain : (∀ o, v ≠ .object o) ∨ ∀ o, w ≠ .object o
      · rw [sameFrom_of_plain n p todo hplain]
        by_cases hvw : v = w
        · subst hvw
          simpa using .equal (hplain.elim id id) (ih (by omega))
        · simpa [hvw] using .differ hvw hplain
      · obtain ⟨⟨x, rfl⟩, y, rfl⟩ : (∃ x, v = .object x) ∧ ∃ y, w = .object y := by
          simpa using hplain
        simp only [sameFrom]
        split
        · next y' x' hx hy =>
          by_cases he : y' = y
          · subst he
            simpa using .met hx (ih (by omega))
          · simpa [he] using .clash (h := h) (by simpa [hx] using he) (.inl (by simp [hx]))
        · next hx hy =>
          by_cases hlike : (h.get x).owner = (h.get y).owner ∧
              (h.get x).slots.length = (h.get y).slots.length
          · -- the slots of `x` are to do from now on, and count no longer as outside
            have hout := slotsOutside_cons (h := h) (Pairing.forward?_eq_none.mp hx)
            have hfewer : (((h.get x).slots.zip (h.get y).slots).reverse ++ todo).length +
                h.slotsOutside ((p.add x y).pairs.map Prod.fst) ≤ n := by
              simp only [Pairing.add, List.map_cons, List.length_append, List.length_reverse,
                List.length_zip, ← hlike.2, Nat.min_self]
              omega
            simpa [hlike] using .opened hx hy hlike.1 hlike.2 (ih hfewer)
          · have hverdict : h.Compares p ((.object x, .object y) :: todo) false :=
              .unlike hx hy hlike
            rw [not_and_or] at hlike
            rcases hlike with hne | hne <;> simpa [hne] using hverdict
        · next hmet hnew =>
          refine .clash (fun hx => ?_) ?_
          · -- a pair is found from either side
            obtain ⟨x', hx'⟩ := Option.ne_none_iff_exists'.mp
              (Pairing.backward?_ne_none (Pairing.mem_of_forward? hx))
            exact hmet _ _ hx hx'
          · by_contra hno
            rw [not_or, not_not, not_not] at hno
            exact hnew hno.1 hno.2

/-- **The comparison of two values ends, and finds what `sameGraph` says.** -/
theorem compares_sameGraph_iff : h.Compares .empty [(v, w)] b ↔ b = h.sameGraph v w := by
  have hrun : h.Compares .empty [(v, w)] (h.sameGraph v w) := compares_sameFrom (by
    rw [slotCount_eq]
    exact Nat.le_of_eq (Nat.add_comm _ _))
  exact ⟨hrun.unique, fun he => he ▸ hrun⟩

/-! ### What has been met -/

/-- The pairs that have been met, one with one, could be part of a matching: what their slots hold
is paired or still to do. -/
structure Partial (h : Heap) (p : Pairing) (todo : List (Value × Value)) : Prop where
  left : ∀ {x x' y}, (x, y) ∈ p.pairs → (x', y) ∈ p.pairs → x' = x
  right : ∀ {x y y'}, (x, y) ∈ p.pairs → (x, y') ∈ p.pairs → y' = y
  owner : ∀ {x y}, (x, y) ∈ p.pairs → (h.get x).owner = (h.get y).owner
  size : ∀ {x y}, (x, y) ∈ p.pairs → (h.get x).slots.length = (h.get y).slots.length
  slots : ∀ {x y}, (x, y) ∈ p.pairs → ∀ (i : Nat) (v w : Value), (h.get x).slots[i]? = some v →
    (h.get y).slots[i]? = some w → v.Paired (fun x y => (x, y) ∈ p.pairs) w ∨ (v, w) ∈ todo

theorem partial_start (h : Heap) (v w : Value) : h.Partial .empty [(v, w)] :=
  ⟨nofun, nofun, nofun, nofun, nofun⟩

/-- A pair of values that is paired need no longer be done. -/
theorem Partial.next (hp : h.Partial p ((v, w) :: todo))
    (hvw : v.Paired (fun x y => (x, y) ∈ p.pairs) w) : h.Partial p todo :=
  { hp with
    slots := by
      intro x y hxy i a b ha hb
      rcases hp.slots hxy i a b ha hb with hab | hab
      · exact .inl hab
      · rcases List.mem_cons.mp hab with he | hab
        · cases he
          exact .inl hvw
        · exact .inr hab }

/-- Two new objects may be paired where their slots are to do. -/
theorem Partial.add {x y : ObjectId} (hp : h.Partial p ((.object x, .object y) :: todo))
    (hx : p.forward? x = none) (hy : p.backward? y = none)
    (howner : (h.get x).owner = (h.get y).owner)
    (hsize : (h.get x).slots.length = (h.get y).slots.length) :
    h.Partial (p.add x y) (((h.get x).slots.zip (h.get y).slots).reverse ++ todo) := by
  have hnewx : ∀ {y'}, (x, y') ∉ p.pairs := fun hm => Pairing.forward?_ne_none hm hx
  have hnewy : ∀ {x'}, (x', y) ∉ p.pairs := fun hm => Pairing.backward?_ne_none hm hy
  have hmem : ∀ {a b}, (a, b) ∈ (p.add x y).pairs ↔ a = x ∧ b = y ∨ (a, b) ∈ p.pairs := by
    simp [Pairing.add]
  refine ⟨fun ha hb => ?_, fun ha hb => ?_, fun hab => ?_, fun hab => ?_,
    fun {a b} hab i v w hv hw => ?_⟩
  · grind [hp.left]
  · grind [hp.right]
  · grind [hp.owner]
  · grind [hp.size]
  · rcases hmem.mp hab with ⟨rfl, rfl⟩ | hab
    · -- the slots of the new pair are to do
      refine .inr (List.mem_append_left _ (List.mem_reverse.mpr ?_))
      exact List.mem_of_getElem? (List.getElem?_zip_eq_some.mpr ⟨hv, hw⟩)
    · rcases hp.slots hab i v w hv hw with hvw | hvw
      · exact .inl (hvw.mono fun _ _ => (hmem.mpr <| .inr ·))
      · rcases List.mem_cons.mp hvw with he | hvw
        · cases he
          exact .inl (.object (hmem.mpr (.inl ⟨rfl, rfl⟩)))
        · exact .inr (List.mem_append_right _ hvw)

/-- **A comparison that finds no difference has found a matching.** -/
theorem Compares.matching (hrun : h.Compares p todo b) (hb : b = true) (hp : h.Partial p todo) :
    ∃ R, h.Matching R ∧ (∀ q ∈ p.pairs, R q.1 q.2) ∧ ∀ q ∈ todo, q.1.Paired R q.2 := by
  induction hrun with
  | @done p =>
      refine ⟨fun x y => (x, y) ∈ p.pairs, ⟨hp.left, hp.right, hp.owner, hp.size, ?_⟩,
        fun _ => id, nofun⟩
      exact fun hxy i v w hv hw => (hp.slots hxy i v w hv hw).resolve_right List.not_mem_nil
  | clash | unlike | differ => cases hb
  | met hx _ ih =>
      have hxy := Pairing.mem_of_forward? hx
      obtain ⟨R, hR, hmet, htodo⟩ := ih hb (hp.next (.object hxy))
      exact ⟨R, hR, hmet, List.forall_mem_cons.mpr ⟨.object (hmet _ hxy), htodo⟩⟩
  | opened hx hy howner hsize _ ih =>
      obtain ⟨R, hR, hmet, htodo⟩ := ih hb (hp.add hx hy howner hsize)
      obtain ⟨hxy, hmet⟩ := List.forall_mem_cons.mp hmet
      exact ⟨R, hR, hmet, List.forall_mem_cons.mpr
        ⟨.object hxy, fun q hq => htodo q (List.mem_append_right _ hq)⟩⟩
  | equal hv _ ih =>
      obtain ⟨R, hR, hmet, htodo⟩ := ih hb (hp.next (.plain hv))
      exact ⟨R, hR, hmet, List.forall_mem_cons.mpr ⟨.plain hv, htodo⟩⟩

/-! ### Matchings and isomorphisms -/

section

variable {R : ObjectId → ObjectId → Prop} {f : ObjectId → ObjectId}

theorem Matching.symm (hR : h.Matching R) : h.Matching fun y x => R x y where
  left hxy hxy' := hR.right hxy hxy'
  right hxy hxy' := hR.left hxy hxy'
  owner hxy := (hR.owner hxy).symm
  size hxy := (hR.size hxy).symm
  slots hxy i v w hv hw := (hR.slots hxy i w v hw hv).symm

/-- The slots of two paired objects hold paired values. -/
theorem Matching.exists_slot (hR : h.Matching R) {x y : ObjectId} (hxy : R x y) {i : Nat}
    {v : Value} (hv : (h.get x).slots[i]? = some v) :
    ∃ w, (h.get y).slots[i]? = some w ∧ v.Paired R w := by
  have hlt : i < (h.get y).slots.length :=
    hR.size hxy ▸ (List.getElem?_eq_some_iff.mp hv).1
  have hw := List.getElem?_eq_getElem hlt
  exact ⟨_, hw, hR.slots hxy i _ _ hv hw⟩

/-- Objects that are paired with the same one are paired with each other. -/
theorem Matching.comp {S : ObjectId → ObjectId → Prop} (hR : h.Matching R) (hS : h.Matching S) :
    h.Matching fun x z => ∃ y, R x y ∧ S y z where
  left := by
    rintro x x' z ⟨y, hxy, hyz⟩ ⟨y', hxy', hyz'⟩
    obtain rfl := hS.left hyz hyz'
    exact hR.left hxy hxy'
  right := by
    rintro x z z' ⟨y, hxy, hyz⟩ ⟨y', hxy', hyz'⟩
    obtain rfl := hR.right hxy hxy'
    exact hS.right hyz hyz'
  owner := fun ⟨_, hxy, hyz⟩ => (hR.owner hxy).trans (hS.owner hyz)
  size := fun ⟨_, hxy, hyz⟩ => (hR.size hxy).trans (hS.size hyz)
  slots := by
    rintro x z ⟨y, hxy, hyz⟩ i u w hu hw
    obtain ⟨v, hv, huv⟩ := hR.exists_slot hxy hu
    exact huv.comp (hS.slots hyz i v w hv hw)

theorem matching_eq (h : Heap) : h.Matching (· = ·) where
  left hxy hxy' := hxy'.trans hxy.symm
  right hxy hxy' := hxy'.symm.trans hxy
  owner hxy := by rw [hxy]
  size hxy := by rw [hxy]
  slots := by
    rintro x _ rfl i v w hv hw
    obtain rfl := Option.some.inj (hv.symm.trans hw)
    exact v.paired_eq

/-- What is below one of two paired values is paired with something below the other. -/
theorem Matching.reach (hR : h.Matching R) (hvw : v.Paired R w) {x : ObjectId}
    (hx : h.Reach .all v x) : ∃ y, R x y ∧ h.Reach .all w y := by
  induction hx with
  | root hv =>
      subst hv
      obtain ⟨y, rfl, hxy⟩ := hvw.of_object
      exact ⟨y, hxy, .root rfl⟩
  | step _ hi hx ih =>
      obtain ⟨y, hxy, hy⟩ := ih
      obtain ⟨_, hslot, hpaired⟩ := hR.exists_slot hxy hx
      obtain ⟨y', rfl, hxy'⟩ := hpaired.of_object
      exact ⟨y', hxy', .step hy trivial hslot⟩

/-- A matching whose pairs are those of a function is an isomorphism. -/
theorem Matching.isomorphism_of_apply (hR : h.Matching R) (hvw : v.Paired R w)
    (hf : ∀ x y, R x y → f x = y) : h.Isomorphism .all v .all h w f where
  root := hvw.eq_rename hf
  bijective := by
    refine ⟨fun x hx => ?_, fun x hx x' hx' he => ?_, fun y hy => ?_⟩
    · obtain ⟨y, hxy, hy⟩ := hR.reach hvw hx
      exact (hf x y hxy).symm ▸ hy
    · obtain ⟨y, hxy, -⟩ := hR.reach hvw hx
      obtain ⟨y', hxy', -⟩ := hR.reach hvw hx'
      rw [hf x y hxy, hf x' y' hxy'] at he
      exact hR.left hxy' (he ▸ hxy)
    · obtain ⟨x, hxy, hx⟩ := hR.symm.reach hvw.symm hy
      exact ⟨x, hx, hf x y hxy⟩
  owner x hx := by
    obtain ⟨y, hxy, -⟩ := hR.reach hvw hx
    rw [hf x y hxy, hR.owner hxy]
  size x hx := by
    obtain ⟨y, hxy, -⟩ := hR.reach hvw hx
    rw [hf x y hxy, hR.size hxy]
  slots x hx i _ := by
    obtain ⟨y, hxy, -⟩ := hR.reach hvw hx
    rw [hf x y hxy]
    cases hv : (h.get x).slots[i]? with
    | none => exact List.getElem?_eq_none (hR.size hxy ▸ List.getElem?_eq_none_iff.mp hv)
    | some a =>
        obtain ⟨b, hb, hab⟩ := hR.exists_slot hxy hv
        rw [hb, hab.eq_rename hf]
        rfl

/-- Each object has one partner at most, so that the pairs are those of a function. -/
theorem Matching.exists_isomorphism (hR : h.Matching R) (hvw : v.Paired R w) :
    ∃ f, h.Isomorphism .all v .all h w f := by
  classical
  refine ⟨fun x => if hx : ∃ y, R x y then hx.choose else x,
    hR.isomorphism_of_apply hvw fun x y hxy => ?_⟩
  have hx : ∃ y, R x y := ⟨y, hxy⟩
  rw [dif_pos hx]
  exact hR.right hxy hx.choose_spec

/-- What corresponds under an isomorphism matches. -/
theorem Isomorphism.matching (hf : h.Isomorphism .all v .all h w f) :
    h.Matching fun x y => h.Reach .all v x ∧ f x = y where
  left := by
    rintro x x' _ ⟨hx, rfl⟩ ⟨hx', he⟩
    exact hf.bijective.injOn hx' hx he
  right := by
    rintro x _ _ ⟨-, rfl⟩ ⟨-, rfl⟩
    rfl
  owner := by
    rintro x _ ⟨hx, rfl⟩
    exact (hf.owner x hx).symm
  size := by
    rintro x _ ⟨hx, rfl⟩
    exact (hf.size x hx).symm
  slots := by
    rintro x _ ⟨hx, rfl⟩ i a b ha hb
    rw [hf.slots x hx i trivial, ha] at hb
    cases hb
    exact Value.paired_rename
      ((h.closed_reach _ v x hx i trivial a ha).mono fun y hy => ⟨hy, rfl⟩)

end

/-! ### What the comparison decides -/

theorem sameGraph_iff_matching :
    h.sameGraph v w = true ↔ ∃ R, h.Matching R ∧ v.Paired R w := by
  constructor
  · intro hsame
    obtain ⟨R, hR, -, htodo⟩ := (compares_sameGraph_iff.mpr hsame.symm).matching rfl
      (h.partial_start v w)
    exact ⟨R, hR, htodo _ List.mem_cons_self⟩
  · rintro ⟨R, hR, hvw⟩
    exact hR.sameGraph hvw

/-- **Two graphs are found to be the same exactly if they are isomorphic.** -/
theorem sameGraph_isomorphism :
    h.sameGraph v w = true ↔ ∃ f, h.Isomorphism .all v .all h w f := by
  rw [sameGraph_iff_matching]
  constructor
  · rintro ⟨R, hR, hvw⟩
    exact hR.exists_isomorphism hvw
  · rintro ⟨f, hf⟩
    refine ⟨_, hf.matching, ?_⟩
    rw [hf.root]
    exact Value.paired_rename ((h.within_reach _ v).mono fun x hx => ⟨hx, rfl⟩)

theorem equivalence_sameGraph (h : Heap) : Equivalence fun v w => h.sameGraph v w = true := by
  simp only [sameGraph_iff_matching]
  refine ⟨fun v => ⟨_, h.matching_eq, v.paired_eq⟩, ?_, ?_⟩
  · rintro v w ⟨R, hR, hvw⟩
    exact ⟨_, hR.symm, hvw.symm⟩
  · rintro u v w ⟨R, hR, huv⟩ ⟨S, hS, hvw⟩
    exact ⟨_, hR.comp hS, huv.comp hvw⟩

/-- **Comparing two values ends, decides whether their graphs are isomorphic, and is an equivalence
of values.** -/
theorem sameGraph_decides (h : Heap) :
    (∀ v w b, h.Compares .empty [(v, w)] b ↔ b = h.sameGraph v w) ∧
      (∀ v w, h.sameGraph v w = true ↔ ∃ f, h.Isomorphism .all v .all h w f) ∧
      Equivalence fun v w => h.sameGraph v w = true :=
  ⟨fun _ _ _ => compares_sameGraph_iff, fun _ _ => sameGraph_isomorphism, h.equivalence_sameGraph⟩

end Heap

end GraphCodec
