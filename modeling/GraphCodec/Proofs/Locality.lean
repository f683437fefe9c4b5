import GraphCodec.Proofs.Closed
import GraphCodec.Proofs.FieldTypes
import GraphCodec.Proofs.Substitution

/-!
# Schema — what bindings change in a type

A declared type comes to a concrete one under bindings of its parameters, and to none if it is
dynamic or an unbound parameter.  An unknown argument of a generic class takes the other arguments
of this class with it, but not the class, so that the classes around it keep theirs.  A *node* is a
part of a type at the end of a path, which says at each class which argument to go to.

* `resolve_congr`: the bindings of other parameters make no difference.
* `resolve_node?`: a node of the result is what the declared node in its place comes to.
* `declared_or_bound`: any other node of the result is part of what a parameter is bound to.
* `plan_withoutArgs`: a field is planned for one type and framed in one way under all bindings.
* `resolve_local`: all of these for a declared type.
-/

namespace GraphCodec

/-! ### Nodes -/

/-- The part of the type at the end of the path. -/
def ConcreteType.node? : List Nat → ConcreteType → Option ConcreteType
  | [], k => some k
  | i :: path, k => k.args[i]?.bind (node? path)

namespace FieldType

/-- The type arguments as they are declared. -/
def args : FieldType → List FieldType
  | .generic _ args => args
  | .fixed _ | .param _ | .dynamic => []

/-- The part of the declared type at the end of the path. -/
def node? : List Nat → FieldType → Option FieldType
  | [], t => some t
  | i :: path, t => t.args[i]?.bind (node? path)

/-- The path goes to a parameter and on to this node of what the parameter is bound to. -/
def InBound (lookup : String → Option ConcreteType) (t : FieldType) (path : List Nat)
    (n : ConcreteType) : Prop :=
  ∃ before rest name b, path = before ++ rest ∧ t.node? before = some (.param name) ∧
    lookup name = some b ∧ b.node? rest = some n

variable {lookup lookup' : String → Option ConcreteType}

/-! ### Bindings of other parameters -/

mutual

/-- Types come to the same where their own parameters are bound to the same. -/
theorem resolve_congr : ∀ t : FieldType, (∀ p ∈ t.params, lookup p = lookup' p) →
    t.resolve lookup = t.resolve lookup'
  | .fixed _, _ => rfl
  | .dynamic, _ => rfl
  | .param name, h => h name List.mem_cons_self
  | .generic _ args, h => by rw [resolve, resolve, resolveList_congr args h]

theorem resolveList_congr : ∀ ts : List FieldType, (∀ p ∈ paramsList ts, lookup p = lookup' p) →
    resolveList lookup ts = resolveList lookup' ts
  | [], _ => rfl
  | t :: ts, h => by
      obtain ⟨ht, hts⟩ := List.forall_mem_append.mp h
      rw [resolveList, resolveList, resolve_congr t ht, resolveList_congr ts hts]

end

theorem mentionsParams_eq_false_iff (t : FieldType) : t.mentionsParams = false ↔ t.params = [] := by
  rw [mentionsParams_eq, Bool.not_eq_false', List.isEmpty_iff]

/-! ### The raw type -/

section

variable {t : FieldType} (ht : ∀ name, t ≠ .param name)
include ht

theorem rawType_eq_none_iff : t.rawType = none ↔ t = .dynamic := by
  cases t with
  | param name => exact absurd rfl (ht name)
  | fixed | generic => exact ⟨nofun, nofun⟩
  | dynamic => exact ⟨fun _ => rfl, fun _ => rfl⟩

theorem map_base_resolve (lookup : String → Option ConcreteType) :
    (t.resolve lookup).map ConcreteType.base = t.rawType := by
  cases t with
  | param name => exact absurd rfl (ht name)
  | fixed | generic | dynamic => rfl

end

/-! ### Nodes of the result -/

theorem map_resolve_of_resolveList {ts : List FieldType} {ks : List ConcreteType}
    (h : resolveList lookup ts = some ks) : ts.map (resolve lookup) = ks.map some := by
  rw [← List.forall₂_eq_eq_eq, List.forall₂_map_left_iff, List.forall₂_map_right_iff]
  exact forall₂_of_resolveList h

theorem exists_of_resolveList_eq_none {ts : List FieldType} (h : resolveList lookup ts = none) :
    ∃ t ∈ ts, t.resolve lookup = none := by
  induction ts with
  | nil => cases h
  | cons t ts ih =>
      cases ht : t.resolve lookup with
      | none => exact ⟨t, List.mem_cons_self, ht⟩
      | some k =>
          cases hts : resolveList lookup ts with
          | none =>
              obtain ⟨u, hu, hnone⟩ := ih hts
              exact ⟨u, List.mem_cons_of_mem _ hu, hnone⟩
          | some ks =>
              rw [resolveList, ht, hts] at h
              cases h

/-- A generic class keeps what all its arguments come to, or none of them if one is unknown. -/
theorem args_of_resolve {owner : ClassId} {args : List FieldType} {k : ConcreteType}
    (h : (generic owner args).resolve lookup = some k) :
    (k.args = [] ∧ ∃ a ∈ args, a.resolve lookup = none) ∨
      args.map (resolve lookup) = k.args.map some := by
  cases h
  cases hargs : resolveList lookup args with
  | none => exact .inl ⟨rfl, exists_of_resolveList_eq_none hargs⟩
  | some ks => exact .inr (map_resolve_of_resolveList hargs)

/-- An argument of the result is what the declared one in its place comes to. -/
theorem getElem?_args {owner : ClassId} {args : List FieldType} {k n : ConcreteType} {i : Nat}
    (h : (generic owner args).resolve lookup = some k) (hn : k.args[i]? = some n) :
    ∃ a, args[i]? = some a ∧ a.resolve lookup = some n := by
  rcases args_of_resolve h with ⟨hnil, -⟩ | hmap
  · rw [hnil] at hn
    cases hn
  · have hi := congrArg (fun l => l[i]?) hmap
    simpa [hn] using hi

/-- By induction on the path, as an argument that is kept is what the declared one comes to. -/
theorem resolve_node? {path : List Nat} {m : FieldType} {n : ConcreteType} :
    ∀ {t : FieldType} {k : ConcreteType}, t.resolve lookup = some k → t.node? path = some m →
      k.node? path = some n → m.resolve lookup = some n := by
  induction path with
  | nil =>
      rintro t k h ⟨⟩ ⟨⟩
      exact h
  | cons i path ih =>
      intro t k h hm hn
      obtain ⟨a, ha, hma⟩ := Option.bind_eq_some_iff.mp hm
      obtain ⟨b, hb, hnb⟩ := Option.bind_eq_some_iff.mp hn
      cases t with
      | fixed | param | dynamic => cases ha
      | generic owner args =>
          obtain ⟨a', ha', hres⟩ := getElem?_args h hb
          obtain rfl := Option.some.inj (ha.symm.trans ha')
          exact ih hres hma hnb

/-- A node of the result is declared in its place, or a parameter stands there or above it. -/
theorem declared_or_bound {path : List Nat} {n : ConcreteType} :
    ∀ {t : FieldType} {k : ConcreteType}, t.resolve lookup = some k → k.node? path = some n →
      (∃ m, t.node? path = some m ∧ ∀ name, m ≠ .param name) ∨ t.InBound lookup path n := by
  induction path with
  | nil =>
      intro t k h hn
      cases t with
      | param name => exact .inr ⟨[], [], name, k, rfl, rfl, h, hn⟩
      | fixed | generic | dynamic => exact .inl ⟨_, rfl, nofun⟩
  | cons i path ih =>
      intro t k h hn
      cases t with
      | dynamic => cases h
      | param name => exact .inr ⟨[], i :: path, name, k, rfl, rfl, h, hn⟩
      | fixed u =>
          cases h
          cases hn
      | generic owner args =>
          obtain ⟨b, hb, hn⟩ := Option.bind_eq_some_iff.mp hn
          obtain ⟨a, ha, hres⟩ := getElem?_args h hb
          rcases ih hres hn with ⟨m, hm, hparam⟩ | ⟨before, rest, name, c, rfl, hp, hc⟩
          · exact .inl ⟨m, Option.bind_eq_some_iff.mpr ⟨a, ha, hm⟩, hparam⟩
          · exact .inr ⟨i :: before, rest, name, c, rfl,
              Option.bind_eq_some_iff.mpr ⟨a, ha, hp⟩, hc⟩

end FieldType

/-! ### Plans -/

/-- The plan with its type arguments left out. -/
def Plan.withoutArgs : Plan → Plan
  | .known f => .known { f with args := [] }
  | p => p

theorem Plan.ofType_withoutArgs (c : Codec) (nullable : Bool) (t : ValueType)
    (args args' : List ConcreteType) : (ofType c nullable ⟨t, args⟩).map withoutArgs =
      (ofType c nullable ⟨t, args'⟩).map withoutArgs := by
  cases t with
  | int | long => rfl
  | bool | float | double | str | object =>
      simp only [ofType]
      generalize (c.serializer _).mapError CodecError.config = s
      cases s <;> rfl

namespace FieldEntryOf

variable {e : FieldEntry}

/-- Only the type arguments of a plan hang on more than the known type without them. -/
theorem plan_withoutArgs_congr (c : Codec) {a b : Option ConcreteType}
    (h : (e.knownType a).map ConcreteType.base = (e.knownType b).map ConcreteType.base) :
    (e.plan c a).map Plan.withoutArgs = (e.plan c b).map Plan.withoutArgs := by
  cases ha : e.knownType a with
  | none =>
      have hb : e.knownType b = none := Option.map_eq_none_iff.mp (h.symm.trans (by rw [ha]; rfl))
      simp only [plan, ha, hb]
  | some k =>
      obtain ⟨t, args⟩ := k
      rw [ha] at h
      obtain ⟨⟨_, args'⟩, hb, rfl⟩ := Option.map_eq_some_iff.mp h.symm
      cases he : e.serializer with
      | some s =>
          simp only [plan, he, ha, hb]
          rfl
      | none =>
          rw [plan_of_knownType he ha, plan_of_knownType he hb]
          exact Plan.ofType_withoutArgs c e.nullable _ args args'

/-- A type was set, or else the raw one of the declaration is known, with bindings or without. -/
theorem map_base_knownType (ht : ∀ name, e.type ≠ .param name) {resolved : Option ConcreteType}
    (hres : resolved = none ∨ ∃ lookup, resolved = e.type.resolve lookup) :
    (e.knownType resolved).map ConcreteType.base = e.rawType := by
  cases hraw : e.rawType with
  | some t =>
      obtain ⟨args, hk⟩ := knownType_of_rawType hraw hres
      rw [hk]
      rfl
  | none =>
      -- the field is dynamic, so that nothing is known whatever is bound
      have hdynamic := (FieldType.rawType_eq_none_iff ht).mp (Option.or_eq_none_iff.mp hraw).2
      have hresolved : resolved = none := by
        rcases hres with rfl | ⟨lookup, rfl⟩
        · rfl
        · rw [hdynamic]
          rfl
      rw [hresolved, knownType_of_rawType_none hraw]
      rfl

/-- The plan for what a declaration comes to is the one without bindings, up to type arguments. -/
theorem plan_withoutArgs (c : Codec) (ht : ∀ name, e.type ≠ .param name)
    {resolved : Option ConcreteType}
    (hres : resolved = none ∨ ∃ lookup, resolved = e.type.resolve lookup) :
    (e.plan c resolved).map Plan.withoutArgs = (e.plan c e.type.unbound).map Plan.withoutArgs :=
  plan_withoutArgs_congr c <|
    (map_base_knownType ht hres).trans (map_base_knownType ht (.inr ⟨_, rfl⟩)).symm

end FieldEntryOf

/-! ### Type arguments in a cell -/

/-- What a serializer takes out of its cell is what it makes of some type arguments. -/
theorem Tended.exists_own {d : ClassDecl} {r : RecordSerializer} {cell : ArgumentCell}
    (h : Tended d r cell) {own : Option Resolution} (hown : (cell.take r).1 = .ok own) :
    ∃ args, r.own args = .ok own := by
  simp only [ArgumentCell.take] at hown
  split at hown
  · cases hown
    exact ⟨[], rfl⟩
  · next args _ =>
    refine ⟨args, ?_⟩
    split at hown
    · next hno =>
      cases hown
      rw [RecordSerializerOf.own, Bool.or_assoc, hno, Bool.or_true, if_pos rfl]
    · next hyes =>
      obtain ⟨cell', hres, -⟩ := ArgumentCell.resolve_spec
        (show ∀ s, { cell with pending := none }.cached = some s → Resolution.of r s.args = .ok s
          from h.cached) args
      rw [hres] at hown
      cases hs : Resolution.of r args with
      | error x =>
          rw [hs] at hown
          cases hown
      | ok s =>
          rw [hs] at hown
          cases hown
          have hlen : args.length = r.decl.params.size := by
            by_contra hne
            rw [Resolution.of_eq_error hne] at hs
            cases hs
          -- there is a parameter, so that there is an argument for it
          have hargs : args.isEmpty = false := by
            simp only [Bool.or_eq_true, not_or, TypeParams.isEmpty, List.isEmpty_iff] at hyes
            simpa [← List.length_eq_zero_iff, hlen, TypeParams.size] using hyes.2
          rw [RecordSerializerOf.own, Bool.or_assoc, hargs, Bool.false_or, if_neg hyes, hs]
          rfl

/-! ### A declared type under all bindings -/

/-- Fields of the declared type are planned as without bindings, up to type arguments, whatever
the type comes to, and so whatever their object was handed and whatever is around it. -/
def FieldType.PlannedAlike (t : FieldType) : Prop :=
  ∀ (c : Codec) (e : FieldEntry), e.type = t →
    (∀ lookup, (e.plan c (t.resolve lookup)).map Plan.withoutArgs =
      (e.plan c t.unbound).map Plan.withoutArgs) ∧
    ∀ d r cell, Tended d r cell → ∀ own, (cell.take r).1 = .ok own →
      ∀ scopes i, r.entries[i]? = some e →
        (e.plan c (r.resolved own scopes i e)).map Plan.withoutArgs =
          (e.plan c t.unbound).map Plan.withoutArgs

theorem FieldType.plannedAlike {t : FieldType} (ht : ∀ name, t ≠ .param name) :
    t.PlannedAlike := by
  rintro c e rfl
  refine ⟨fun lookup => e.plan_withoutArgs c ht (.inr ⟨lookup, rfl⟩), ?_⟩
  intro d r cell hr own hown scopes i he
  obtain ⟨args, hown⟩ := hr.exists_own hown
  exact e.plan_withoutArgs c ht (r.resolved_eq hown scopes he)

/-- **Bindings change type arguments and nothing else.**  What a declared type comes to hangs on
its own parameters alone, and on nothing if it mentions none.  Unless it is a bare parameter, its
class is the declared one, so that a field of the type is planned for one type and framed in one
way.  In what it comes to, a class of the declaration has as many arguments as declared, each one
what the declared one comes to, or has none, as one of them is unknown; and what is not declared is
what parameters are bound to. -/
theorem resolve_local (t : FieldType) :
    (∀ lookup lookup', (∀ p ∈ t.params, lookup p = lookup' p) →
      t.resolve lookup = t.resolve lookup') ∧
    (t.mentionsParams = false ↔ t.params = []) ∧
    (t.mentionsParams = false → ∀ lookup lookup', t.resolve lookup = t.resolve lookup') ∧
    ((∀ name, t ≠ .param name) →
      (∀ lookup, (t.resolve lookup).map ConcreteType.base = t.rawType) ∧
      (t.rawType = none ↔ t = .dynamic) ∧ t.PlannedAlike) ∧
    ∀ lookup k, t.resolve lookup = some k → ∀ path n, k.node? path = some n →
      (∀ owner args, t.node? path = some (.generic owner args) →
        n.base = .object owner ∧
        (n.args = [] ∧ (∃ a ∈ args, a.resolve lookup = none) ∨
          n.args.length = args.length ∧ args.map (FieldType.resolve lookup) = n.args.map some)) ∧
      ((∃ m, t.node? path = some m ∧ ∀ name, m ≠ .param name) ∨ t.InBound lookup path n) := by
  refine ⟨fun _ _ => t.resolve_congr, t.mentionsParams_eq_false_iff, fun hno _ _ => ?_,
    fun ht => ⟨FieldType.map_base_resolve ht, FieldType.rawType_eq_none_iff ht,
      FieldType.plannedAlike ht⟩, ?_⟩
  · -- there is no parameter on which the bindings could differ
    have hparams := t.mentionsParams_eq_false_iff.mp hno
    refine t.resolve_congr fun p hp => ?_
    rw [hparams] at hp
    cases hp
  · intro lookup k hk path n hn
    refine ⟨fun owner args hm => ?_, FieldType.declared_or_bound hk hn⟩
    have hres := FieldType.resolve_node? hk hm hn
    refine ⟨?_, (FieldType.args_of_resolve hres).imp_right fun hmap => ⟨?_, hmap⟩⟩
    · cases hres
      rfl
    · simpa using (congrArg List.length hmap).symm

/-- A codec with shelves only. -/
def shelves : Codec := (Codec.new.registerClass shelf .standard).2

/-- The rest of a shelf has both of its arguments where only the second parameter is bound, and the
crate that is one of them goes without its own.  It is planned as a shelf, also for a shelf that was
handed arguments; and a crate for integers is the same everywhere. -/
theorem resolve_local_shelf :
    let crate : ClassId := ⟨"demo::Crate"⟩
    let rest : FieldType := .generic shelf.id [.generic crate [.param "K"], .param "V"]
    let second : String → Option ConcreteType := fun p =>
      if p = "V" then some (.ofType .str) else none
    let more : String → Option ConcreteType := fun p =>
      if p = "W" then some (.ofType .int) else second p
    let k : ConcreteType := ⟨.object shelf.id, [.ofType (.object crate), .ofType .str]⟩
    let r : RecordSerializer := .make shelf .standard .empty none 0
    let cell : ArgumentCell := ⟨some [.ofType .int, .ofType .str], none⟩
    rest.resolve second = some k ∧ rest.resolve more = some k ∧
      some k.base = rest.rawType ∧
      (∃ n, k.node? [0] = some n ∧ n.base = .object crate ∧ n.args = []) ∧
      (∃ e own p, r.entries[1]? = some e ∧ (cell.take r).1 = .ok (some own) ∧
        (e.plan shelves rest.unbound).map Plan.withoutArgs = .ok p ∧
        p.type? = some (.object shelf.id) ∧
        (e.plan shelves (r.resolved (some own) .empty 1 e)).map Plan.withoutArgs = .ok p) ∧
      (FieldType.generic crate [.fixed .int]).resolve second =
        (FieldType.generic crate [.fixed .int]).resolve more := by
  intro crate rest second more k r cell
  obtain ⟨hlocal, -, -, hfixed, hnodes⟩ := resolve_local rest
  obtain ⟨hraw, -, hplan⟩ := hfixed nofun
  have hk : rest.resolve second = some k := rfl
  have hmore : rest.resolve second = rest.resolve more := hlocal second more (by decide)
  have hr : Tended shelf r cell := (Tended.make _ _ _ _).supply _
  refine ⟨hk, hmore.symm.trans hk, ?_, ⟨.ofType (.object crate), rfl, ?_⟩, ?_,
    (resolve_local _).2.2.1 rfl second more⟩
  · rw [← hraw second, hk]
    rfl
  · obtain ⟨hbase, ⟨hargs, -⟩ | ⟨hlen, -⟩⟩ := (hnodes second k hk [0] _ rfl).1 _ _ rfl
    · exact ⟨hbase, hargs⟩
    · cases hlen
  · refine ⟨_, _, _, rfl, rfl, rfl, rfl, ?_⟩
    exact (hplan shelves _ rfl).2 shelf r cell hr _ rfl .empty 1 rfl

end GraphCodec
