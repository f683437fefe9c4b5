import Mathlib.Data.List.Nodup
import GraphCodec.Codec.Pass
import GraphCodec.Proofs.Tables

/-!
# Serializers — quiet cells

The cells of a list of record serializers are *quiet* when no arguments are left in any of them and
each cached resolution is the one that its arguments come to.  Between two objects of a pass the
cells are quiet, so that what a record serializer makes of type arguments is `own`, a function of
the serializer and the arguments alone.

* `take_supply`: leaving arguments and taking them out again gives `own`, and quiet cells.
-/

namespace GraphCodec

/-- What a record serializer makes of type arguments that are left right before it runs. -/
def RecordSerializerOf.own (r : RecordSerializer) (args : List ConcreteType) :
    Except CodecError (Option Resolution) :=
  if args.isEmpty || !r.options.optimizedGenerics || r.decl.params.isEmpty then .ok none
  else ((Resolution.of r args).map some).mapError .config

namespace ArgumentCells

/-- Each serializer has a cell to itself, with nothing left in it and nothing stale. -/
structure Quiet (t : ArgumentCells) (rs : List RecordSerializer) : Prop where
  apart : (rs.map fun r => r.cell).Nodup
  inside : ∀ r ∈ rs, r.cell < t.cells.size
  pending : ∀ r ∈ rs, (t.get r.cell).pending = none
  cached : ∀ r ∈ rs, ∀ s, (t.get r.cell).cached = some s → Resolution.of r s.args = .ok s

@[simp] theorem size_set (t : ArgumentCells) (n : Nat) (cell : ArgumentCell) :
    (t.set n cell).cells.size = t.cells.size := by
  simp [set]

@[simp] theorem set_set (t : ArgumentCells) (n : Nat) (cell cell' : ArgumentCell) :
    (t.set n cell).set n cell' = t.set n cell' := by
  simp [set]

theorem set_get (t : ArgumentCells) (n : Nat) : t.set n (t.get n) = t := by
  obtain ⟨cells⟩ := t
  refine congrArg ArgumentCells.mk (Array.ext (by simp) fun i h₁ h₂ => ?_)
  rw [Array.getElem_setIfInBounds h₂]
  split
  · next e =>
    subst e
    simp [get, h₂]
  · rfl

/-- Putting a cell without arguments and without a stale resolution keeps the cells quiet. -/
theorem Quiet.set {t : ArgumentCells} {rs : List RecordSerializer} (h : t.Quiet rs)
    {r : RecordSerializer} (hr : r ∈ rs) {cell : ArgumentCell} (hp : cell.pending = none)
    (hc : ∀ s, cell.cached = some s → Resolution.of r s.args = .ok s) :
    (t.set r.cell cell).Quiet rs := by
  have hself := get_set_self t cell (h.inside r hr)
  have hcell : ∀ r' ∈ rs, r'.cell = r.cell → r' = r := fun r' hr' e =>
    List.inj_on_of_nodup_map h.apart hr' hr e
  refine ⟨h.apart, fun r' hr' => by simpa using h.inside r' hr', ?_, ?_⟩
  · intro r' hr'
    by_cases e : r'.cell = r.cell
    · rw [e, hself, hp]
    · rw [get_set_of_ne t cell (Ne.symm e)]
      exact h.pending r' hr'
  · intro r' hr' s hs
    by_cases e : r'.cell = r.cell
    · rw [e, hself] at hs
      rw [hcell r' hr' e]
      exact hc s hs
    · rw [get_set_of_ne t cell (Ne.symm e)] at hs
      exact h.cached r' hr' s hs

end ArgumentCells

namespace ArgumentCell

/-- Resolving with a cell that is not stale gives the resolution, whatever was cached. -/
theorem resolve_spec {cell : ArgumentCell} {r : RecordSerializer}
    (hc : ∀ s, cell.cached = some s → Resolution.of r s.args = .ok s) (args : List ConcreteType) :
    ∃ cell', cell.resolve r args = (Resolution.of r args, cell') ∧ cell'.pending = cell.pending ∧
      ∀ s, cell'.cached = some s → Resolution.of r s.args = .ok s := by
  simp only [resolve]
  split
  · next s hs =>
    -- what is cached was resolved for these arguments
    obtain ⟨hs, ha⟩ := Option.filter_eq_some_iff.mp hs
    have ha : s.args = args := by simpa using ha
    refine ⟨cell, ?_, rfl, hc⟩
    rw [← ha, hc s hs]
  · cases hr : Resolution.of r args with
    | error e => exact ⟨_, rfl, rfl, fun s hs => by cases hs⟩
    | ok s =>
      refine ⟨_, rfl, rfl, fun s' hs' => ?_⟩
      cases hs'
      obtain ⟨scope, rfl⟩ := Resolution.eq_of_ok hr
      exact hr

end ArgumentCell

namespace Typing

/-- Nothing is left for a serializer of the stock. -/
theorem supply_stock (t : Typing) (s : Stock) (args : List ConcreteType) :
    t.supply (.stock s) args = t := by
  simp [supply, Serializer.supply]

/-- What arguments left for a record serializer come to when it takes them out. -/
theorem take_supply {t : Typing} {rs : List RecordSerializer} (h : t.cells.Quiet rs)
    {r : RecordSerializer} (hr : r ∈ rs) (args : List ConcreteType) :
    ∃ cells, (t.supply (.record r) args).take r = (r.own args, ⟨t.scopes, cells⟩) ∧
      cells.Quiet rs := by
  have hin := h.inside r hr
  have hp := h.pending r hr
  have hc := h.cached r hr
  simp only [supply]
  split
  · next he =>
    -- nothing is left, and nothing is taken out
    refine ⟨t.cells, ?_, h⟩
    simp [take, ArgumentCell.take, hp, RecordSerializerOf.own, he, ArgumentCells.set_get,
      Except.mapError]
  · next he =>
    simp only [take, Serializer.supply, ArgumentCells.supply, ArgumentCells.get_set_self _ _ hin,
      ArgumentCell.take, ArgumentCells.set_set]
    by_cases ho : (!r.options.optimizedGenerics || r.decl.params.isEmpty) = true
    · -- the arguments are of no use to the serializer
      refine ⟨t.cells.set r.cell ⟨none, (t.cells.get r.cell).cached⟩, ?_, h.set hr rfl hc⟩
      rw [if_pos ho]
      simp [RecordSerializerOf.own, ho, he, Except.mapError]
    · -- the cell keeps what the arguments resolve to
      obtain ⟨cell, hres, hpend, hcached⟩ :=
        ArgumentCell.resolve_spec (show ∀ s, (⟨none, (t.cells.get r.cell).cached⟩ :
          ArgumentCell).cached = some s → Resolution.of r s.args = .ok s from hc) args
      refine ⟨t.cells.set r.cell cell, ?_, h.set hr hpend hcached⟩
      rw [if_neg ho]
      simp only [hres]
      rw [RecordSerializerOf.own, Bool.or_assoc, if_neg (by simp_all)]

end Typing

end GraphCodec
