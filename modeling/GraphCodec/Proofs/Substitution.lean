import GraphCodec.Proofs.Setup

/-!
# Serializers — type arguments replace parameters

A catalog refuses a class whose fields mention a parameter that it does not declare, and a
serializer refuses type arguments that are not as many as the parameters.  What is left is total: no
parameter of a field goes without an argument, so that no type is unknown and no generic class loses
its arguments, unless something in the declaration is dynamic.

* `resolve_eq_substitute`: where every parameter is bound, a type comes to its `substitute`.
* `Tended.cached`: whatever happened to a serializer, what its cell keeps still holds.
* `resolve_substitutes`: what a serializer of an accepted class makes of type arguments.
-/

namespace GraphCodec

/-! ### Substitution -/

namespace FieldType

mutual

/-- Nothing in the type is dynamic. -/
def dynamicFree : FieldType → Bool
  | .fixed _ | .param _ => true
  | .generic _ args => dynamicFreeList args
  | .dynamic => false

/-- Nothing in the types is dynamic. -/
def dynamicFreeList : List FieldType → Bool
  | [] => true
  | a :: rest => dynamicFree a && dynamicFreeList rest

end

mutual

/-- The type with each parameter replaced.  There is nothing to put for a dynamic type. -/
def substitute (σ : String → ConcreteType) : FieldType → ConcreteType
  | .fixed t => .ofType t
  | .param name => σ name
  | .generic c args => ⟨.object c, substituteList σ args⟩
  | .dynamic => default

/-- The types with each parameter replaced. -/
def substituteList (σ : String → ConcreteType) : List FieldType → List ConcreteType
  | [] => []
  | a :: rest => substitute σ a :: substituteList σ rest

end

variable {lookup : String → Option ConcreteType} {σ : String → ConcreteType}

mutual

/-- Where every parameter is bound, nothing is unknown and no arguments are dropped. -/
theorem resolve_eq_substitute : ∀ t : FieldType, t.dynamicFree = true →
    (∀ p ∈ t.params, lookup p = some (σ p)) → t.resolve lookup = some (t.substitute σ)
  | .fixed _, _, _ => rfl
  | .param name, _, hσ => hσ name List.mem_cons_self
  | .generic c args, hfree, hσ => by
      rw [resolve, resolveList_eq_substituteList args hfree hσ]
      rfl

theorem resolveList_eq_substituteList : ∀ ts : List FieldType, dynamicFreeList ts = true →
    (∀ p ∈ paramsList ts, lookup p = some (σ p)) →
      resolveList lookup ts = some (substituteList σ ts)
  | [], _, _ => rfl
  | t :: ts, hfree, hσ => by
      obtain ⟨ht, hts⟩ := Bool.and_eq_true_iff.mp hfree
      obtain ⟨hσt, hσts⟩ := List.forall_mem_append.mp hσ
      rw [resolveList, resolve_eq_substitute t ht hσt, resolveList_eq_substituteList ts hts hσts]
      rfl

end

end FieldType

/-- The argument in the place of the first parameter with this name. -/
def TypeParams.argument (params : TypeParams) (args : List ConcreteType) (name : String) :
    ConcreteType :=
  ((params.indexOf? name).bind fun i => args[i]?).getD default

/-- A scope binds each declared parameter to its argument. -/
theorem TypeScope.get?_of_bind {owner : ClassId} {params : TypeParams} {args : List ConcreteType}
    {scope : TypeScope} (h : TypeScope.bind owner params args = .ok scope) {name : String}
    (hname : name ∈ params.names) : scope.get? name = some (params.argument args name) := by
  simp only [TypeScope.bind] at h
  split at h
  · next hsize =>
    cases h
    obtain ⟨names⟩ := params
    simp only [TypeParams.size, TypeScope.get?, TypeParams.argument, TypeParams.indexOf?] at *
    induction names generalizing args with
    | nil => cases hname
    | cons p names ih =>
        obtain _ | ⟨a, args⟩ := args
        · cases hsize
        by_cases hp : p = name
        · simp [hp, List.findIdx?_cons]
        · have hrest := ih ((List.mem_cons.mp hname).resolve_left (Ne.symm hp))
            (by simpa using hsize)
          simp [hp, hrest, List.findIdx?_cons, Option.bind_map]
  · cases h

/-! ### A serializer and its cell -/

/-- A record serializer of the class and its cell, as setting up and passes leave them. -/
inductive Tended (d : ClassDecl) : RecordSerializer → ArgumentCell → Prop
  /-- A new serializer has an empty cell. -/
  | make (options : FieldOptions) (context : Table String String) (hooks : Option (Hooks Value))
      (n : Nat) : Tended d (.make d options context hooks n) .empty
  /-- Other options or another context give a new table. -/
  | rebuild {r : RecordSerializer} {cell : ArgumentCell} (hr : Tended d r cell)
      (options : FieldOptions) (context : Table String String) :
      Tended d (.make r.decl options context r.hooks r.cell) { cell with cached := none }
  /-- Entries are taken out of the table. -/
  | remove {r : RecordSerializer} {cell : ArgumentCell} (hr : Tended d r cell) {t : FieldTable}
      (ht : t.Sublist r.entries) : Tended d (r.mapEntries fun _ => t) { cell with cached := none }
  /-- The settings of an entry are changed. -/
  | configure {r : RecordSerializer} {cell : ArgumentCell} (hr : Tended d r cell) (name : String)
      (settings : FieldSettings Serializer) :
      Tended d (r.mapEntries (FieldTable.modify name settings.apply)) cell
  /-- Type arguments are left for the next object. -/
  | supply {r : RecordSerializer} {cell : ArgumentCell} (hr : Tended d r cell)
      (args : List ConcreteType) : Tended d r { cell with pending := some args }
  /-- An object is written or read. -/
  | take {r : RecordSerializer} {cell : ArgumentCell} (hr : Tended d r cell) :
      Tended d r (cell.take r).2
  /-- Type arguments are resolved. -/
  | resolve {r : RecordSerializer} {cell : ArgumentCell} (hr : Tended d r cell)
      (args : List ConcreteType) : Tended d r (cell.resolve r args).2

namespace Tended

variable {d : ClassDecl} {r : RecordSerializer} {cell : ArgumentCell}

theorem decl_eq (h : Tended d r cell) : r.decl = d := by
  induction h with
  | make => rfl
  | rebuild _ _ _ ih | remove _ _ ih | configure _ _ _ ih | supply _ _ ih | take _ ih
  | resolve _ _ ih => exact ih

theorem located (h : Tended d r cell) : FieldTable.Located d r.entries := by
  induction h with
  | make options context hooks => exact (FieldTable.located_build d options context).adjust hooks
  | rebuild hr options context =>
      rw [hr.decl_eq]
      exact (FieldTable.located_build d options context).adjust _
  | remove _ ht ih => exact ih.sublist ht
  | configure _ name settings ih => exact ih.modify name settings
  | supply _ _ ih | take _ ih | resolve _ _ ih => exact ih

/-- What is kept in the cell is what its arguments come to. -/
theorem cached (h : Tended d r cell) :
    ∀ s, cell.cached = some s → Resolution.of r s.args = .ok s := by
  induction h with
  | make | rebuild | remove => nofun
  | @configure r _ _ name settings ih =>
      intro s hs
      -- settings leave the declared types alone, and no more is read off an entry
      have hof : Resolution.of (r.mapEntries (FieldTable.modify name settings.apply)) s.args =
          Resolution.of r s.args := by
        refine Resolution.of_congr ?_ ?_ _
        · rfl
        · exact FieldTable.map_modify name (FieldSettings.type_apply settings) r.entries
      exact hof.trans (ih s hs)
  | supply _ _ ih => exact ih
  | @take r cell _ ih =>
      simp only [ArgumentCell.take]
      split
      · exact ih
      · split
        · exact ih
        · next args _ _ =>
          have hcell : ∀ s, { cell with pending := none }.cached = some s →
              Resolution.of r s.args = .ok s := ih
          obtain ⟨cell', hres, -, hcached⟩ := ArgumentCell.resolve_spec hcell args
          rw [hres]
          exact hcached
  | @resolve r cell _ args ih =>
      obtain ⟨cell', hres, -, hcached⟩ := ArgumentCell.resolve_spec ih args
      rw [hres]
      exact hcached

/-- What type arguments come to does not hang on what was resolved before. -/
theorem resolve_eq (h : Tended d r cell) (args : List ConcreteType) :
    (cell.resolve r args).1 = Resolution.of r args := by
  obtain ⟨_, hres, -, -⟩ := ArgumentCell.resolve_spec h.cached args
  rw [hres]

/-- The field of an entry mentions declared parameters only, if the class does. -/
theorem mem_params (h : Tended d r cell) (hd : d.undeclaredParam? = none) {e : FieldEntry}
    (he : e ∈ r.entries) : ∀ p ∈ e.type.params, p ∈ d.params.names := by
  intro p hp
  obtain ⟨f, hf, -, htype⟩ := h.located.field e he
  exact Codec.mem_params_of_undeclared hd (List.mem_of_getElem? hf) (htype ▸ hp)

end Tended

/-! ### Resolutions -/

namespace Resolution

variable {r : RecordSerializer} {args : List ConcreteType} {s : Resolution}

theorem of_eq_error (h : args.length ≠ r.decl.params.size) : Resolution.of r args =
    .error (.genericArity r.decl.id r.decl.params.size args.length) := by
  rw [Resolution.of, TypeScope.bind, if_neg (Ne.symm h)]
  rfl

theorem exists_of_eq_ok (h : args.length = r.decl.params.size) :
    ∃ s, Resolution.of r args = .ok s := by
  rw [Resolution.of, TypeScope.bind, if_pos h.symm]
  exact ⟨_, rfl⟩

/-- What is kept for an entry that mentions parameters is its type with the arguments put in. -/
theorem field?_eq (hs : Resolution.of r args = .ok s) {i : Nat} {e : FieldEntry}
    (he : r.entries[i]? = some e) (hfree : e.type.dynamicFree = true)
    (hparams : ∀ p ∈ e.type.params, p ∈ r.decl.params.names) (hgeneric : e.isGeneric = true) :
    s.field? i = some (e.type.substitute (r.decl.params.argument args)) := by
  obtain ⟨scope, hscope, hs⟩ := except_bind_eq_ok.mp hs
  cases hs
  have hres := e.type.resolve_eq_substitute hfree fun p hp =>
    TypeScope.get?_of_bind hscope (hparams p hp)
  simp [field?, he, hgeneric, hres]

end Resolution

/-- An entry that mentions no parameter has its type from the declaration alone. -/
theorem FieldEntryOf.unbound_eq {e : FieldEntry} (hfree : e.type.dynamicFree = true)
    (hgeneric : e.isGeneric = false) (σ : String → ConcreteType) :
    e.type.unbound = some (e.type.substitute σ) := by
  refine e.type.resolve_eq_substitute hfree fun p hp => ?_
  rw [isGeneric, FieldType.mentionsParams_eq, Bool.not_eq_false', List.isEmpty_iff] at hgeneric
  rw [hgeneric] at hp
  cases hp

/-- Only what is known of a field counts for its plan. -/
theorem FieldEntryOf.plan_congr {c : Codec} {e : FieldEntry} {a b : Option ConcreteType}
    (h : a.or e.type.unbound = b.or e.type.unbound) : e.plan c a = e.plan c b := by
  have hk : e.knownType a = e.knownType b := by
    simp only [knownType, h]
  simp only [plan, hk]

/-- **Type arguments take the places of the parameters.**  For a class that a catalog has accepted,
as many arguments as there are parameters resolve, and each field in which nothing is dynamic is of
its declared type with the arguments put in, and is planned for it; any other number of arguments
is refused. -/
theorem resolve_substitutes {k k' : Catalog} {d : ClassDecl} (hd : k.register d = .ok k')
    {r : RecordSerializer} {cell : ArgumentCell} (hr : Tended d r cell) (args : List ConcreteType) :
    (args.length = d.params.size → ∃ s, (cell.resolve r args).1 = .ok s ∧
      ∀ (i : Nat) (e : FieldEntry), r.entries[i]? = some e → e.type.dynamicFree = true →
        (if e.isGeneric then s.field? i else e.type.unbound) =
          some (e.type.substitute (d.params.argument args)) ∧
        ∀ (c : Codec) (scopes : ScopeStack), r.options.optimizedGenerics = true →
          e.plan c (r.resolved (some s) scopes i e) =
            e.plan c (some (e.type.substitute (d.params.argument args)))) ∧
    (args.length ≠ d.params.size →
      (cell.resolve r args).1 = .error (.genericArity d.id d.params.size args.length)) := by
  have hdeclared := (Codec.of_fault?_eq_none (Catalog.register_ok hd).1).2
  rw [hr.resolve_eq, ← hr.decl_eq]
  refine ⟨fun hlen => ?_, Resolution.of_eq_error⟩
  obtain ⟨s, hs⟩ := Resolution.exists_of_eq_ok hlen
  refine ⟨s, hs, fun i e he hfree => ?_⟩
  have hparams : ∀ p ∈ e.type.params, p ∈ r.decl.params.names := fun p hp =>
    hr.decl_eq ▸ hr.mem_params hdeclared (List.mem_of_getElem? he) p hp
  cases hgeneric : e.isGeneric with
  | true =>
      have hfield := Resolution.field?_eq hs he hfree hparams hgeneric
      refine ⟨by simpa using hfield, fun c scopes hopt => ?_⟩
      simp [RecordSerializerOf.resolved, hgeneric, hopt, hfield]
  | false =>
      have hunbound := FieldEntryOf.unbound_eq hfree hgeneric (r.decl.params.argument args)
      refine ⟨by simpa using hunbound, fun c scopes _ => FieldEntryOf.plan_congr ?_⟩
      simp [RecordSerializerOf.resolved, hgeneric, hunbound]

/-- A class with two parameters, of which one stands inside a generic class inside another one. -/
def shelf : ClassDecl where
  id := ⟨"demo::Shelf"⟩
  params := ⟨["K", "V"]⟩
  fields :=
    [⟨"top", .param "V", .empty⟩,
      ⟨"rest", .generic ⟨"demo::Shelf"⟩ [.generic ⟨"demo::Crate"⟩ [.param "K"], .param "V"],
        .empty⟩]
  constructible := true

/-- Also after a refused resolution and a change of settings, the rest of a shelf is a shelf for
crates of the first argument. -/
theorem resolve_substitutes_shelf :
    let args : List ConcreteType := [.ofType .str, ⟨.object ⟨"demo::Crate"⟩, [.ofType .int]⟩]
    let settings : FieldSettings Serializer := ⟨none, none, none, false, some false, none, none⟩
    let made : RecordSerializer := .make shelf .standard .empty none 0
    let r : RecordSerializer := made.mapEntries (FieldTable.modify "rest" settings.apply)
    let cell := (ArgumentCell.empty.resolve made [.ofType .int]).2
    ∃ s, (cell.resolve r args).1 = .ok s ∧
      s.field? 1 = some ⟨.object ⟨"demo::Shelf"⟩, [⟨.object ⟨"demo::Crate"⟩, [.ofType .str]⟩,
        ⟨.object ⟨"demo::Crate"⟩, [.ofType .int]⟩]⟩ ∧
      (cell.resolve r [.ofType .int]).1 = .error (.genericArity shelf.id 2 1) := by
  intro args settings made r cell
  have hd : Catalog.empty.register shelf = .ok (Catalog.empty.add shelf) := by
    rw [Catalog.register, show Catalog.empty.fault? shelf = none by decide +kernel]
  have hr : Tended shelf r cell := ((Tended.make _ _ _ _).resolve _).configure _ _
  obtain ⟨s, hs, hfields⟩ := (resolve_substitutes hd hr args).1 rfl
  obtain ⟨e, he, hfree, hgeneric, hsub⟩ : ∃ e, r.entries[1]? = some e ∧
      e.type.dynamicFree = true ∧ e.isGeneric = true ∧
        e.type.substitute (shelf.params.argument args) =
          ⟨.object ⟨"demo::Shelf"⟩, [⟨.object ⟨"demo::Crate"⟩, [.ofType .str]⟩,
            ⟨.object ⟨"demo::Crate"⟩, [.ofType .int]⟩]⟩ :=
    ⟨_, rfl, rfl, rfl, rfl⟩
  refine ⟨s, hs, ?_, (resolve_substitutes hd hr [.ofType .int]).2 (by decide)⟩
  rw [← hsub, ← (hfields 1 e he hfree).1, hgeneric, if_pos rfl]

end GraphCodec
