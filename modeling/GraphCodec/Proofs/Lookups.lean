import Mathlib.Data.List.Nodup
import GraphCodec.Proofs.Setup

/-!
# Schema — what a registry finds

A `Registry` is a catalog that keeps full paths in an index of their own and is changed in place.  A
call leaves what the same call of the catalog leaves (`Registry.run_register`), and a refused call
leaves everything as it was.

After any calls the lookups agree on which tables were accepted, `accepted` in the order of their
calls (`Registry.Holds`).  A short name is in one of three states, by how many accepted classes have
it, and a further one moves it to the next state.

* `ClassId.name_eq_iff`: what the short name of a path is.
* `Catalog.fault?_eq_some_iff`: when a table is refused, and what the error names.
* `Registry.holds_run`: the invariant of any calls.
* `registry_lookups_agree`: what the lookups find.
-/

namespace GraphCodec

/-! ### Short names -/

namespace ClassId

/-- What follows the last `::` of a path, or all of it. -/
inductive ShortName (path : String) : String → Prop
  | whole (hnone : ¬ [':', ':'] <:+: path.toList) : ShortName path path
  | after {front name : String} (hpath : path = front ++ "::" ++ name)
      (hlast : ¬ [':', ':'] <:+: ':' :: name.toList) : ShortName path name

theorem separator_infix_cons (c : Char) (text : List Char) :
    [':', ':'] <:+: c :: text ↔ (c = ':' ∧ ∃ name, text = ':' :: name) ∨ [':', ':'] <:+: text := by
  rw [List.infix_cons_iff, List.cons_prefix_cons]
  refine or_congr_left (and_congr eq_comm ?_)
  constructor
  · rintro ⟨name, rfl⟩
    exact ⟨name, rfl⟩
  · rintro ⟨name, rfl⟩
    exact ⟨name, rfl⟩

/-- Without a separator in the tail, the text can only begin with one. -/
theorem afterSeparator_cons_of_none {c : Char} {tail name : List Char}
    (h : afterSeparator tail = none) :
    afterSeparator (c :: tail) = some name ↔ c = ':' ∧ tail = ':' :: name := by
  unfold afterSeparator
  rw [h]
  by_cases hc : c = ':'
  · simp only [hc, if_true, true_and]
    split
    · simp
    · next hne => simpa using hne name
  · simp [hc]

theorem afterSeparator_cons_of_some (c : Char) {tail name : List Char}
    (h : afterSeparator tail = some name) : afterSeparator (c :: tail) = some name := by
  unfold afterSeparator
  rw [h]

theorem afterSeparator_eq_none {text : List Char} :
    afterSeparator text = none ↔ ¬ [':', ':'] <:+: text := by
  induction text with
  | nil => simp [afterSeparator]
  | cons c tail ih =>
      rw [separator_infix_cons, not_or, ← ih]
      cases htail : afterSeparator tail with
      | some name => simp [afterSeparator_cons_of_some c htail]
      | none =>
          simp only [Option.eq_none_iff_forall_ne_some, ne_eq, afterSeparator_cons_of_none htail,
            not_and, not_exists, and_true]
          exact forall_comm

/-- By induction on the text: a separator in the tail is further to the back than one in front. -/
theorem afterSeparator_eq_some {text name : List Char} : afterSeparator text = some name ↔
    ∃ front, text = front ++ ':' :: ':' :: name ∧ ¬ [':', ':'] <:+: ':' :: name := by
  induction text with
  | nil => simp [afterSeparator]
  | cons c tail ih =>
      cases htail : afterSeparator tail with
      | some later =>
          rw [afterSeparator_cons_of_some c htail, ← htail, ih]
          constructor
          · rintro ⟨front, rfl, hlast⟩
            exact ⟨c :: front, rfl, hlast⟩
          · rintro ⟨front, htext, hlast⟩
            cases front with
            | nil =>
                obtain ⟨-, rfl⟩ := List.cons.inj htext
                rw [afterSeparator_eq_none.mpr hlast] at htail
                cases htail
            | cons c' front => exact ⟨front, (List.cons.inj htext).2, hlast⟩
      | none =>
          have hnone := afterSeparator_eq_none.mp htail
          rw [afterSeparator_cons_of_none htail]
          constructor
          · rintro ⟨rfl, rfl⟩
            exact ⟨[], rfl, hnone⟩
          · rintro ⟨front, htext, -⟩
            cases front with
            | nil => exact List.cons.inj htext
            | cons c' front =>
                refine absurd ⟨front, name, ?_⟩ hnone
                rw [(List.cons.inj htext).2]
                simp

/-- The short name of a class is the only one that its path has. -/
theorem name_eq_iff (c : ClassId) (n : String) : c.name = n ↔ ShortName c.path n := by
  have hafter {front name : String} (hpath : c.path = front ++ "::" ++ name)
      (hlast : ¬ [':', ':'] <:+: ':' :: name.toList) :
      afterSeparator c.path.toList = some name.toList :=
    afterSeparator_eq_some.mpr ⟨front.toList, by simp [hpath], hlast⟩
  rw [name]
  cases h : afterSeparator c.path.toList with
  | none =>
      have hnone := afterSeparator_eq_none.mp h
      constructor
      · rintro rfl
        exact .whole hnone
      · rintro (_ | ⟨hpath, hlast⟩)
        · rfl
        · rw [hafter hpath hlast] at h
          cases h
  | some text =>
      obtain ⟨front, htext, hlast⟩ := afterSeparator_eq_some.mp h
      constructor
      · rintro rfl
        have hpath : c.path = String.ofList front ++ "::" ++ String.ofList text :=
          String.toList_inj.mp (by simp [htext])
        exact .after hpath (by rwa [String.toList_ofList])
      · rintro (hnone | ⟨hpath, hlast'⟩)
        · rw [afterSeparator_eq_none.mpr hnone] at h
          cases h
        · rw [hafter hpath hlast'] at h
          cases h
          exact String.ofList_toList

end ClassId

/-! ### Refusals -/

/-- Why a table is refused where some tables were accepted: its class is known; else a field has the
name of an earlier one; else a field mentions a parameter that is not declared.  The error names the
first such field, and the first such parameter of it. -/
inductive Refused (accepted : List ClassDecl) (d : ClassDecl) : CatalogError → Prop
  | known (hknown : d.id ∈ accepted.map ClassDecl.id) : Refused accepted d (.alreadyRegistered d.id)
  | repeated (hnew : d.id ∉ accepted.map ClassDecl.id) {before after : List FieldDecl}
      {field : FieldDecl} (hfields : d.fields = before ++ field :: after)
      (hbefore : (before.map FieldDecl.name).Nodup)
      (hfield : field.name ∈ before.map FieldDecl.name) :
      Refused accepted d (.duplicateField d.id field.name)
  | undeclared (hnew : d.id ∉ accepted.map ClassDecl.id)
      (hnames : (d.fields.map FieldDecl.name).Nodup) {before after : List FieldDecl}
      {field : FieldDecl} (hfields : d.fields = before ++ field :: after)
      (hbefore : ∀ f ∈ before, ∀ p ∈ f.type.params, p ∈ d.params.names) {ps qs : List String}
      {p : String} (hparams : field.type.params = ps ++ p :: qs)
      (hps : ∀ q ∈ ps, q ∈ d.params.names) (hp : p ∉ d.params.names) :
      Refused accepted d (.unknownTypeParam d.id field.name p)

namespace ClassDecl

theorem firstRepeated_eq_none {seen names : List String} (hseen : seen.Nodup) :
    firstRepeated seen names = none ↔ (seen ++ names).Nodup := by
  induction names generalizing seen with
  | nil => simpa [firstRepeated] using hseen
  | cons name rest ih =>
      rw [List.append_cons, firstRepeated]
      by_cases hmem : name ∈ seen
      · have hdup : ¬ (seen ++ [name] ++ rest).Nodup := fun h =>
          List.disjoint_of_nodup_append h.of_append_left hmem List.mem_cons_self
        simp only [List.contains_iff_mem, hmem, if_true, hdup, reduceCtorEq]
      · have hsnoc : (seen ++ [name]).Nodup :=
          List.concat_eq_append ▸ hseen.concat hmem
        simp [hmem, ih hsnoc]

/-- By induction on the names: those in front of the repeated one are different. -/
theorem firstRepeated_eq_some {seen names : List String} {name : String} (hseen : seen.Nodup) :
    firstRepeated seen names = some name ↔ ∃ before after, names = before ++ name :: after ∧
      (seen ++ before).Nodup ∧ name ∈ seen ++ before := by
  induction names generalizing seen with
  | nil => simp [firstRepeated]
  | cons first rest ih =>
      rw [firstRepeated]
      by_cases hmem : first ∈ seen
      · simp only [List.contains_iff_mem, hmem, if_true, Option.some.injEq]
        constructor
        · rintro rfl
          exact ⟨[], rest, rfl, by simpa using hseen, by simpa using hmem⟩
        · rintro ⟨before, after, hnames, hnodup, -⟩
          cases before with
          | nil => exact (List.cons.inj hnames).1
          | cons b before =>
              obtain ⟨rfl, -⟩ := List.cons.inj hnames
              exact absurd rfl ((List.nodup_append.mp hnodup).2.2 first hmem first (by simp))
      · have hsnoc : (seen ++ [first]).Nodup :=
          List.concat_eq_append ▸ hseen.concat hmem
        simp only [List.contains_iff_mem, hmem, if_false, ih hsnoc]
        constructor
        · rintro ⟨before, after, rfl, hnodup, hname⟩
          exact ⟨first :: before, after, rfl, by simpa using hnodup, by simpa using hname⟩
        · rintro ⟨before, after, hnames, hnodup, hname⟩
          cases before with
          | nil =>
              obtain ⟨rfl, -⟩ := List.cons.inj hnames
              exact absurd (by simpa using hname) hmem
          | cons b before =>
              obtain ⟨rfl, rfl⟩ := List.cons.inj hnames
              exact ⟨before, after, rfl, by simpa using hnodup, by simpa using hname⟩

theorem duplicateField?_eq_none {d : ClassDecl} :
    d.duplicateField? = none ↔ (d.fields.map FieldDecl.name).Nodup :=
  firstRepeated_eq_none List.nodup_nil

theorem duplicateField?_eq_some {d : ClassDecl} {name : String} :
    d.duplicateField? = some name ↔ ∃ before field after, d.fields = before ++ field :: after ∧
      field.name = name ∧ (before.map FieldDecl.name).Nodup ∧
        field.name ∈ before.map FieldDecl.name := by
  rw [duplicateField?, firstRepeated_eq_some List.nodup_nil]
  constructor
  · rintro ⟨names, names', hsplit, hnodup, hmem⟩
    obtain ⟨before, rest, hfields, rfl, hrest⟩ := List.map_eq_append_iff.mp hsplit
    obtain ⟨field, after, rfl, rfl, -⟩ := List.map_eq_cons_iff.mp hrest
    exact ⟨before, field, after, hfields, rfl, hnodup, hmem⟩
  · rintro ⟨before, field, after, hfields, rfl, hnodup, hmem⟩
    exact ⟨before.map FieldDecl.name, after.map FieldDecl.name, by simp [hfields], hnodup, hmem⟩

theorem undeclaredParam?_eq_some {d : ClassDecl} {name p : String} :
    d.undeclaredParam? = some (name, p) ↔ ∃ before field after,
      d.fields = before ++ field :: after ∧ field.name = name ∧
      (∀ f ∈ before, ∀ q ∈ f.type.params, q ∈ d.params.names) ∧
      ∃ ps qs, field.type.params = ps ++ p :: qs ∧ (∀ q ∈ ps, q ∈ d.params.names) ∧
        p ∉ d.params.names := by
  have hfield : ∀ f : FieldDecl,
      (f.type.params.find? fun q => !d.params.contains q).map (fun q => (f.name, q)) =
          some (name, p) ↔
        f.name = name ∧ ∃ ps qs, f.type.params = ps ++ p :: qs ∧ (∀ q ∈ ps, q ∈ d.params.names) ∧
          p ∉ d.params.names := by
    intro f
    simp only [Option.map_eq_some_iff, Prod.mk.injEq, List.find?_eq_some_iff_append,
      TypeParams.contains, Bool.not_eq_true', Bool.not_not,
      List.contains_eq_mem, decide_eq_false_iff_not, decide_eq_true_eq]
    constructor
    · rintro ⟨_, ⟨hp, ps, qs, hparams, hps⟩, rfl, rfl⟩
      exact ⟨rfl, ps, qs, hparams, hps, hp⟩
    · rintro ⟨rfl, ps, qs, hparams, hps, hp⟩
      exact ⟨p, ⟨hp, ps, qs, hparams, hps⟩, rfl, rfl⟩
  have hdeclared : ∀ f : FieldDecl,
      ((f.type.params.find? fun q => !d.params.contains q).map fun q => (f.name, q)) = none ↔
        ∀ q ∈ f.type.params, q ∈ d.params.names := by
    intro f
    simp [TypeParams.contains]
  rw [undeclaredParam?, List.findSome?_eq_some_iff]
  simp only [hfield, hdeclared]
  constructor
  · rintro ⟨before, field, after, hfields, ⟨hname, hp⟩, hbefore⟩
    exact ⟨before, field, after, hfields, hname, hbefore, hp⟩
  · rintro ⟨before, field, after, hfields, hname, hbefore, hp⟩
    exact ⟨before, field, after, hfields, ⟨hname, hp⟩, hbefore⟩

end ClassDecl

namespace Catalog

theorem fault?_eq_some_iff {k : Catalog} {accepted : List ClassDecl} {d : ClassDecl}
    {e : CatalogError} (hk : k.decls.contains d.id = true ↔ d.id ∈ accepted.map ClassDecl.id) :
    k.fault? d = some e ↔ Refused accepted d e := by
  constructor
  · intro h
    rw [fault?] at h
    split at h
    · next hc =>
      cases h
      exact .known (hk.mp hc)
    · next hc =>
      have hnew := mt hk.mpr hc
      split at h
      · next hdup =>
        cases h
        obtain ⟨before, field, after, hfields, rfl, hbefore, hfield⟩ :=
          ClassDecl.duplicateField?_eq_some.mp hdup
        exact .repeated hnew hfields hbefore hfield
      · next hdup =>
        obtain ⟨⟨name, p⟩, hp, rfl⟩ := Option.map_eq_some_iff.mp h
        obtain ⟨before, field, after, hfields, rfl, hbefore, ps, qs, hparams, hps, hp⟩ :=
          ClassDecl.undeclaredParam?_eq_some.mp hp
        exact .undeclared hnew (ClassDecl.duplicateField?_eq_none.mp hdup) hfields hbefore hparams
          hps hp
  · rintro (hknown | ⟨hnew, hfields, hbefore, hfield⟩ |
      ⟨hnew, hnames, hfields, hbefore, hparams, hps, hp⟩)
    · rw [fault?, if_pos (hk.mpr hknown)]
    · have hdup := ClassDecl.duplicateField?_eq_some.mpr ⟨_, _, _, hfields, rfl, hbefore, hfield⟩
      rw [fault?, if_neg (mt hk.mp hnew), hdup]
    · have hparam := ClassDecl.undeclaredParam?_eq_some.mpr
        ⟨_, _, _, hfields, rfl, hbefore, _, _, hparams, hps, hp⟩
      rw [fault?, if_neg (mt hk.mp hnew), ClassDecl.duplicateField?_eq_none.mpr hnames, hparam]
      rfl

end Catalog

/-! ### The registry -/

/-- A catalog, and the index of full paths. -/
structure Registry where
  catalog : Catalog
  paths : Table String ClassId

namespace Registry

def empty : Registry := ⟨.empty, .empty⟩

/-- A short name met for the first time finds its class, and is forgotten when it is met again. -/
def noteName (d : ClassDecl) (r : Registry) : Registry :=
  let name := d.id.name
  if r.catalog.ambiguous.contains name then r
  else if r.catalog.names.contains name then
    { r with catalog := { r.catalog with
        names := r.catalog.names.erase name
        ambiguous := name :: r.catalog.ambiguous } }
  else { r with catalog := { r.catalog with names := r.catalog.names.insert name d.id } }

/-- Tests a table and stores it. -/
def register (d : ClassDecl) : ExceptT CatalogError (StateM Registry) ClassDecl := do
  if (← get).catalog.decls.contains d.id then throw (.alreadyRegistered d.id)
  if let some field := d.duplicateField? then throw (.duplicateField d.id field)
  if let some (field, p) := d.undeclaredParam? then throw (.unknownTypeParam d.id field p)
  modify (noteName d)
  modify fun r => { r with paths := r.paths.insert d.id.path d.id }
  modify fun r => { r with catalog := { r.catalog with decls := r.catalog.decls.insert d.id d } }
  return d

def get? (r : Registry) (c : ClassId) : Option ClassDecl := r.catalog.get? c

def withPath? (r : Registry) (path : String) : Option ClassDecl := (r.paths.get? path).bind r.get?

def withName? (r : Registry) (name : String) : Option ClassDecl := r.catalog.withName? name

def isAmbiguous (r : Registry) (name : String) : Bool := r.catalog.isAmbiguous name

/-- What a call does: the catalog decides, and an accepted path is noted. -/
theorem run_register (r : Registry) (d : ClassDecl) : (register d).run r =
    match r.catalog.register d with
    | .error e => (.error e, r)
    | .ok k => (.ok d, ⟨k, r.paths.insert d.id.path d.id⟩) := by
  have hget {α : Type} (f : Registry → ExceptT CatalogError (StateM Registry) α) :
      (get >>= f).run r = (f r).run r := rfl
  rw [Catalog.register, Catalog.fault?, register, hget]
  by_cases hc : r.catalog.decls.contains d.id = true
  · rw [if_pos hc, if_pos hc]
    rfl
  rw [if_neg hc, if_neg hc]
  cases d.duplicateField? with
  | some field => rfl
  | none =>
      cases d.undeclaredParam? with
      | some p => rfl
      | none =>
          show (Except.ok d, Registry.mk { (noteName d r).catalog with
            decls := (noteName d r).catalog.decls.insert d.id d }
            ((noteName d r).paths.insert d.id.path d.id)) = _
          simp only [noteName, Option.map_none, Catalog.add]
          split
          · rfl
          · split <;> rfl

theorem run_register_error {r r' : Registry} {d : ClassDecl} {e : CatalogError} :
    (register d).run r = (.error e, r') ↔ r.catalog.fault? d = some e ∧ r' = r := by
  rw [run_register, Catalog.register]
  cases r.catalog.fault? d with
  | none =>
      constructor
      · rintro ⟨⟩
      · rintro ⟨⟨⟩, -⟩
  | some e' =>
      constructor
      · rintro ⟨⟩
        exact ⟨rfl, rfl⟩
      · rintro ⟨⟨⟩, rfl⟩
        rfl

theorem run_register_ok {r : Registry} {d : ClassDecl} (h : r.catalog.fault? d = none) :
    (register d).run r = (.ok d, ⟨r.catalog.add d, r.paths.insert d.id.path d.id⟩) := by
  rw [run_register, Catalog.register, h]

/-! ### Calls -/

/-- One call: the registry that it leaves, and the tables accepted so far. -/
def step (s : Registry × List ClassDecl) (d : ClassDecl) : Registry × List ClassDecl :=
  match (register d).run s.1 with
  | (.ok d, r) => (r, s.2 ++ [d])
  | (.error _, r) => (r, s.2)

/-- What calls with some tables leave, one after the other. -/
def run (ds : List ClassDecl) : Registry × List ClassDecl := ds.foldl step (empty, [])

/-- The classes of some tables that have a short name, in order. -/
def sharing (tables : List ClassDecl) (name : String) : List ClassId :=
  (tables.map ClassDecl.id).filter fun c => c.name = name

theorem sharing_append (tables : List ClassDecl) (d : ClassDecl) (name : String) :
    sharing (tables ++ [d]) name =
      sharing tables name ++ if d.id.name = name then [d.id] else [] := by
  rw [sharing, sharing, List.map_append, List.filter_append, List.map_singleton,
    List.filter_singleton, Bool.cond_decide]

/-- What a registry knows that has accepted some tables. -/
structure Holds (r : Registry) (accepted : List ClassDecl) : Prop where
  ids : (accepted.map ClassDecl.id).Nodup
  fields : ∀ d ∈ accepted, d.duplicateField? = none ∧ d.undeclaredParam? = none
  decls : ∀ c d, r.get? c = some d ↔ d ∈ accepted ∧ d.id = c
  paths : ∀ p c, r.paths.get? p = some c ↔ c ∈ accepted.map ClassDecl.id ∧ c.path = p
  names : ∀ n c, r.catalog.names.get? n = some c ↔ sharing accepted n = [c]
  ambiguous : ∀ n, n ∈ r.catalog.ambiguous ↔ 2 ≤ (sharing accepted n).length

theorem holds_empty : Holds empty [] where
  ids := List.nodup_nil
  fields := by simp
  decls := by simp [get?, empty, Catalog.empty, Catalog.get?]
  paths := by simp [empty]
  names := by simp [empty, Catalog.empty, sharing]
  ambiguous := by simp [empty, Catalog.empty, sharing]

namespace Holds

variable {r : Registry} {accepted : List ClassDecl}

theorem contains_iff (h : Holds r accepted) (c : ClassId) :
    r.catalog.decls.contains c = true ↔ c ∈ accepted.map ClassDecl.id := by
  rw [Table.contains, Option.isSome_iff_exists, List.mem_map]
  exact exists_congr (h.decls c)

theorem fault?_eq_none (h : Holds r accepted) {d : ClassDecl} :
    r.catalog.fault? d = none ↔
      d.id ∉ accepted.map ClassDecl.id ∧ d.duplicateField? = none ∧ d.undeclaredParam? = none := by
  rw [Catalog.fault?, ← h.contains_iff]
  split
  · simp [*]
  · cases d.duplicateField? <;> simp [*]

/-- The index of short names after a new class: its name goes from absent to unique, and from there
to ambiguous. -/
theorem names_add (h : Holds r accepted) (d : ClassDecl) (n : String) :
    (∀ c, (r.catalog.add d).names.get? n = some c ↔ sharing (accepted ++ [d]) n = [c]) ∧
      (n ∈ (r.catalog.add d).ambiguous ↔ 2 ≤ (sharing (accepted ++ [d]) n).length) := by
  have hnames := h.names n
  have hambiguous := h.ambiguous n
  rw [sharing_append]
  by_cases hn : d.id.name = n
  · subst hn
    rw [if_pos rfl]
    generalize sharing accepted d.id.name = before at hnames hambiguous
    simp only [Catalog.add, List.contains_iff_mem]
    split
    · next hmem =>
      -- already ambiguous: it has no entry and gets none
      have hlen := hambiguous.mp hmem
      have hne {c : ClassId} {l : List ClassId} (hl : before.length ≤ l.length) : l ≠ [c] := by
        rintro rfl
        exact absurd (hlen.trans hl) (by simp)
      have hsnoc : before.length ≤ (before ++ [d.id]).length := by simp
      exact ⟨fun c => iff_of_false (mt (hnames c).mp (hne le_rfl)) (hne hsnoc),
        iff_of_true hmem (hlen.trans hsnoc)⟩
    · next hmem =>
      split
      · next hone =>
        obtain ⟨c₀, hc₀⟩ := Option.isSome_iff_exists.mp hone
        obtain rfl := (hnames c₀).mp hc₀
        simp
      · next hnone =>
        have hzero : before = [] := by
          rcases before with _ | ⟨c, _ | ⟨c', rest⟩⟩
          · rfl
          · exact absurd (Option.isSome_iff_exists.mpr ⟨c, (hnames c).mpr rfl⟩) hnone
          · exact absurd (hambiguous.mpr (by simp)) hmem
        subst hzero
        simp [hmem]
  · rw [if_neg hn, List.append_nil]
    refine ⟨fun c => ?_, ?_⟩
    · rw [← hnames c]
      simp only [Catalog.add]
      split
      · rfl
      · split <;> simp [hn]
    · rw [← hambiguous]
      simp only [Catalog.add]
      split
      · rfl
      · split <;> simp [Ne.symm hn]

theorem accept (h : Holds r accepted) {d : ClassDecl} (hd : r.catalog.fault? d = none) :
    Holds ⟨r.catalog.add d, r.paths.insert d.id.path d.id⟩ (accepted ++ [d]) := by
  obtain ⟨hnew, hfields⟩ := h.fault?_eq_none.mp hd
  constructor
  case ids =>
    rw [List.map_append, List.map_singleton, ← List.concat_eq_append]
    exact h.ids.concat hnew
  case fields =>
    intro d' hd'
    rcases List.mem_append.mp hd' with hd' | hd'
    · exact h.fields d' hd'
    · exact List.mem_singleton.mp hd' ▸ hfields
  case decls =>
    intro c d'
    have hdecls := h.decls c d'
    simp only [get?] at hdecls ⊢
    rw [Codec.get?_add, List.mem_append, List.mem_singleton]
    split
    · next hc =>
      subst hc
      have hold : ¬ (d' ∈ accepted ∧ d'.id = d.id) := fun ⟨hd', he⟩ =>
        hnew (he ▸ List.mem_map_of_mem hd')
      constructor
      · rintro ⟨⟩
        exact ⟨.inr rfl, rfl⟩
      · rintro ⟨hd' | rfl, he⟩
        · exact absurd ⟨hd', he⟩ hold
        · rfl
    · next hc =>
      rw [hdecls]
      constructor
      · rintro ⟨hd', he⟩
        exact ⟨.inl hd', he⟩
      · rintro ⟨hd' | rfl, he⟩
        · exact ⟨hd', he⟩
        · exact absurd he hc
  case paths =>
    intro p c
    rw [Table.get?_insert, List.map_append, List.mem_append, List.map_singleton, List.mem_singleton]
    split
    · next hp =>
      constructor
      · rintro ⟨⟩
        exact ⟨.inr rfl, hp⟩
      · rintro ⟨-, hc⟩
        rw [show c = d.id from congrArg ClassId.mk (hc.trans hp.symm)]
    · next hp =>
      rw [h.paths]
      constructor
      · rintro ⟨hc, he⟩
        exact ⟨.inl hc, he⟩
      · rintro ⟨hc | rfl, he⟩
        · exact ⟨hc, he⟩
        · exact absurd he hp
  case names => exact fun n => (h.names_add d n).1
  case ambiguous => exact fun n => (h.names_add d n).2

theorem mem_sharing {n : String} {c : ClassId} :
    c ∈ sharing accepted n ↔ ∃ d ∈ accepted, d.id = c ∧ ClassId.ShortName d.id.path n := by
  simp only [sharing, List.mem_filter, List.mem_map, decide_eq_true_eq, ClassId.name_eq_iff]
  constructor
  · rintro ⟨⟨d, hd, rfl⟩, hn⟩
    exact ⟨d, hd, rfl, hn⟩
  · rintro ⟨d, hd, rfl, hn⟩
    exact ⟨⟨d, hd, rfl⟩, hn⟩

theorem nodup_sharing (h : Holds r accepted) (n : String) : (sharing accepted n).Nodup :=
  h.ids.filter _

theorem eq_of_id_eq (h : Holds r accepted) {d d' : ClassDecl} (hd : d ∈ accepted)
    (hd' : d' ∈ accepted) (he : d'.id = d.id) : d' = d :=
  Option.some.inj (((h.decls d.id d').mpr ⟨hd', he⟩).symm.trans ((h.decls d.id d).mpr ⟨hd, rfl⟩))

theorem withPath?_iff (h : Holds r accepted) (p : String) (d : ClassDecl) :
    r.withPath? p = some d ↔ d ∈ accepted ∧ d.id.path = p := by
  simp only [withPath?, Option.bind_eq_some_iff, h.paths, h.decls]
  constructor
  · rintro ⟨c, ⟨-, hp⟩, hd, rfl⟩
    exact ⟨hd, hp⟩
  · rintro ⟨hd, hp⟩
    exact ⟨d.id, ⟨List.mem_map_of_mem hd, hp⟩, hd, rfl⟩

theorem withName?_iff (h : Holds r accepted) (n : String) (d : ClassDecl) :
    r.withName? n = some d ↔ d ∈ accepted ∧ ClassId.ShortName d.id.path n ∧
      ∀ d' ∈ accepted, ClassId.ShortName d'.id.path n → d' = d := by
  have hfind : r.withName? n = some d ↔ sharing accepted n = [d.id] ∧ d ∈ accepted := by
    rw [withName?, Catalog.withName?, Option.bind_eq_some_iff]
    constructor
    · rintro ⟨c, hc, hfound⟩
      obtain ⟨hd, rfl⟩ := (h.decls c d).mp hfound
      exact ⟨(h.names n _).mp hc, hd⟩
    · rintro ⟨hone, hd⟩
      exact ⟨d.id, (h.names n _).mpr hone, (h.decls _ d).mpr ⟨hd, rfl⟩⟩
  rw [hfind]
  constructor
  · rintro ⟨hone, hd⟩
    have hall : ∀ d' ∈ accepted, ClassId.ShortName d'.id.path n → d' = d := by
      intro d' hd' hn
      have hmem := mem_sharing.mpr ⟨d', hd', rfl, hn⟩
      rw [hone, List.mem_singleton] at hmem
      exact h.eq_of_id_eq hd hd' hmem
    obtain ⟨d', hd', he, hn⟩ := mem_sharing.mp (hone ▸ List.mem_singleton_self d.id)
    exact ⟨hd, h.eq_of_id_eq hd hd' he ▸ hn, hall⟩
  · rintro ⟨hd, hn, hall⟩
    refine ⟨?_, hd⟩
    by_contra hne
    rcases ((h.nodup_sharing n).ne_singleton_iff d.id).mp hne with hnil | ⟨c, hc, hne⟩
    · exact absurd (mem_sharing.mpr ⟨d, hd, rfl, hn⟩) (hnil ▸ List.not_mem_nil)
    · obtain ⟨d', hd', rfl, hn'⟩ := mem_sharing.mp hc
      exact hne (congrArg ClassDecl.id (hall d' hd' hn'))

theorem isAmbiguous_iff (h : Holds r accepted) (n : String) :
    r.isAmbiguous n = true ↔ ∃ d ∈ accepted, ∃ d' ∈ accepted, d.id ≠ d'.id ∧
      ClassId.ShortName d.id.path n ∧ ClassId.ShortName d'.id.path n := by
  rw [isAmbiguous, Catalog.isAmbiguous, List.contains_iff_mem, h.ambiguous]
  have hnodup := h.nodup_sharing n
  constructor
  · intro hlen
    rcases hs : sharing accepted n with _ | ⟨c, _ | ⟨c', rest⟩⟩
    · simp [hs] at hlen
    · simp [hs] at hlen
    · rw [hs] at hnodup
      obtain ⟨d, hd, rfl, hn⟩ := mem_sharing.mp (hs ▸ List.mem_cons_self : c ∈ sharing accepted n)
      obtain ⟨d', hd', rfl, hn'⟩ := mem_sharing.mp
        (hs ▸ List.mem_cons_of_mem _ List.mem_cons_self : c' ∈ sharing accepted n)
      exact ⟨d, hd, d', hd', List.ne_of_not_mem_cons (List.nodup_cons.mp hnodup).1, hn, hn'⟩
  · rintro ⟨d, hd, d', hd', hne, hn, hn'⟩
    by_contra hlen
    have hmem := mem_sharing.mpr ⟨d, hd, rfl, hn⟩
    have hmem' := mem_sharing.mpr ⟨d', hd', rfl, hn'⟩
    obtain ⟨c, hc⟩ := List.length_eq_one_iff.mp
      (Nat.le_antisymm (Nat.lt_succ_iff.mp (Nat.not_le.mp hlen)) (List.length_pos_of_mem hmem))
    rw [hc, List.mem_singleton] at hmem hmem'
    exact hne (hmem.trans hmem'.symm)

end Holds

/-- One call keeps the invariant. -/
theorem holds_step {s : Registry × List ClassDecl} (h : Holds s.1 s.2) (d : ClassDecl) :
    Holds (step s d).1 (step s d).2 := by
  rw [step]
  cases hd : s.1.catalog.fault? d with
  | none =>
      rw [run_register_ok hd]
      exact h.accept hd
  | some e =>
      rw [run_register_error.mpr ⟨hd, rfl⟩]
      exact h

theorem holds_run (ds : List ClassDecl) : Holds (run ds).1 (run ds).2 :=
  List.foldlRecOn (motive := fun s => Holds s.1 s.2) ds step holds_empty fun _ h d _ =>
    holds_step h d

/-- The catalog of a registry is the one that the same calls leave. -/
theorem catalog_run (ds : List ClassDecl) :
    (run ds).1.catalog = ds.foldl (fun k d => (k.register d).toOption.getD k) .empty := by
  refine (List.foldl_hom (fun s : Registry × List ClassDecl => s.1.catalog) fun s d => ?_).symm
  rw [step, run_register]
  cases s.1.catalog.register d <;> rfl

/-- Tables of different classes without faults are all accepted, by induction on them. -/
theorem accepted_foldl {ds : List ClassDecl} : ∀ {s : Registry × List ClassDecl}, Holds s.1 s.2 →
    ((s.2 ++ ds).map ClassDecl.id).Nodup →
    (∀ d ∈ ds, d.duplicateField? = none ∧ d.undeclaredParam? = none) →
      (ds.foldl step s).2 = s.2 ++ ds := by
  induction ds with
  | nil =>
      intro s h hids hfields
      exact (List.append_nil _).symm
  | cons d ds ih =>
      intro s h hids hfields
      obtain ⟨hd, hfields⟩ := List.forall_mem_cons.mp hfields
      have hnew : d.id ∉ s.2.map ClassDecl.id := by
        rw [List.map_append, List.nodup_append] at hids
        exact fun hmem => hids.2.2 d.id hmem d.id (by simp) rfl
      have hstep : (step s d).2 = s.2 ++ [d] := by
        rw [step, run_register_ok (h.fault?_eq_none.mpr ⟨hnew, hd⟩)]
      rw [List.append_cons, ← hstep] at hids ⊢
      exact ih (holds_step h d) hids hfields

end Registry

open Registry in
/-- **After any calls the lookups agree on the accepted tables.**  A further call fails exactly for
the reasons in `Refused`, and then changes nothing.  Tables are found by their class and by its
path; by a short name if there is one class that has it, while it is ambiguous if there are several.
In whatever order the accepted tables come, all of them are accepted, and the lookups are the
same. -/
theorem registry_lookups_agree (ds : List ClassDecl) :
    let r := (run ds).1
    let accepted := (run ds).2
    r.catalog = ds.foldl (fun k d => (k.register d).toOption.getD k) .empty ∧
    (∀ d e r', (register d).run r = (.error e, r') ↔ Refused accepted d e ∧ r' = r) ∧
    (∀ c d, r.get? c = some d ↔ d ∈ accepted ∧ d.id = c) ∧
    (∀ p d, r.withPath? p = some d ↔ d ∈ accepted ∧ d.id.path = p) ∧
    (∀ n d, r.withName? n = some d ↔ d ∈ accepted ∧ ClassId.ShortName d.id.path n ∧
      ∀ d' ∈ accepted, ClassId.ShortName d'.id.path n → d' = d) ∧
    (∀ n, r.isAmbiguous n = true ↔ ∃ d ∈ accepted, ∃ d' ∈ accepted, d.id ≠ d'.id ∧
      ClassId.ShortName d.id.path n ∧ ClassId.ShortName d'.id.path n) ∧
    (∀ ds', ds'.Perm accepted → (run ds').2 = ds' ∧ (run ds').1.get? = r.get? ∧
      (run ds').1.withPath? = r.withPath? ∧ (run ds').1.withName? = r.withName? ∧
      (run ds').1.isAmbiguous = r.isAmbiguous) := by
  intro r accepted
  have h : Holds r accepted := holds_run ds
  refine ⟨catalog_run ds, fun d e r' => ?_, h.decls, h.withPath?_iff, h.withName?_iff,
    h.isAmbiguous_iff, fun ds' hperm => ?_⟩
  · rw [run_register_error, Catalog.fault?_eq_some_iff (h.contains_iff d.id)]
  · have hall : (run ds').2 = ds' :=
      accepted_foldl holds_empty ((hperm.map ClassDecl.id).nodup_iff.mpr h.ids)
        fun d hd => h.fields d (hperm.mem_iff.mp hd)
    have h' := hall ▸ holds_run ds'
    refine ⟨hall, ?_, ?_, ?_, ?_⟩
    · ext c d
      simp only [h'.decls, h.decls, hperm.mem_iff]
    · ext p d
      simp only [h'.withPath?_iff, h.withPath?_iff, hperm.mem_iff]
    · ext n d
      simp only [h'.withName?_iff, h.withName?_iff, hperm.mem_iff]
    · ext n
      simp only [Bool.eq_iff_iff, h'.isAmbiguous_iff, h.isAmbiguous_iff, hperm.mem_iff]

end GraphCodec
