import GraphCodec.Scope
import GraphCodec.Serializer.FieldTable

/-!
# Serializers — type arguments

Type arguments for an object are left in the cell of its record serializer right before the
serializer runs, and the serializer takes them out first of all. From the arguments it computes a
`Resolution`: the bindings of the type parameters, and the concrete type of each field that
mentions parameters. The last resolution stays in the cell and serves again while the same
arguments come.

* `get_set_of_ne`, `get_set_self`: cells do not affect each other.
-/

namespace GraphCodec

/-- What the fields of a class amount to under one list of type arguments. -/
structure Resolution where
  args : List ConcreteType
  scope : TypeScope
  /-- For each entry of the field table, its concrete type if it is generic and that is known. -/
  fields : List (Option ConcreteType)
  deriving DecidableEq

namespace Resolution

/-- The resolution of a record serializer's fields under a list of type arguments. -/
def of (r : RecordSerializer) (args : List ConcreteType) : Except ConfigError Resolution := do
  let scope ← TypeScope.bind r.decl.id r.decl.params args
  return ⟨args, scope, r.entries.map fun e =>
    if e.isGeneric then e.type.resolve scope.get? else none⟩

/-- The concrete type of the entry at a place of the field table. -/
def field? (s : Resolution) (index : Nat) : Option ConcreteType := (s.fields[index]?).join

end Resolution

/-- What a record serializer keeps from one object to the next. -/
structure ArgumentCell where
  /-- The type arguments for the next object. -/
  pending : Option (List ConcreteType)
  /-- The resolution computed last. -/
  cached : Option Resolution
  deriving DecidableEq

namespace ArgumentCell

def empty : ArgumentCell := ⟨none, none⟩

instance : Inhabited ArgumentCell := ⟨empty⟩

/-- The resolution under the given arguments, computed only if the cached one is for others. After
a failure nothing is cached. -/
def resolve (cell : ArgumentCell) (r : RecordSerializer) (args : List ConcreteType) :
    Except ConfigError Resolution × ArgumentCell :=
  match cell.cached.filter fun s => s.args = args with
  | some s => (.ok s, cell)
  | none =>
    match Resolution.of r args with
    | .ok s => (.ok s, { cell with cached := some s })
    | .error e => (.error e, { cell with cached := none })

/-- Takes the arguments out and resolves the fields under them, if there are arguments and the
serializer makes use of them. -/
def take (cell : ArgumentCell) (r : RecordSerializer) :
    Except ConfigError (Option Resolution) × ArgumentCell :=
  match cell.pending with
  | none => (.ok none, cell)
  | some args =>
    let cell := { cell with pending := none }
    if !r.options.optimizedGenerics || r.decl.params.isEmpty then (.ok none, cell)
    else
      let (s, cell) := cell.resolve r args
      (s.map some, cell)

end ArgumentCell

/-- The cells of all record serializers, by number. -/
structure ArgumentCells where
  cells : Array ArgumentCell

namespace ArgumentCells

def empty : ArgumentCells := ⟨#[]⟩

def get (t : ArgumentCells) (n : Nat) : ArgumentCell := t.cells.getD n default

def set (t : ArgumentCells) (n : Nat) (cell : ArgumentCell) : ArgumentCells :=
  ⟨t.cells.setIfInBounds n cell⟩

theorem get_set_of_ne (t : ArgumentCells) {n m : Nat} (cell : ArgumentCell) (h : n ≠ m) :
    (t.set n cell).get m = t.get m := by
  simp [get, set, h]

theorem get_set_self (t : ArgumentCells) {n : Nat} (cell : ArgumentCell) (h : n < t.cells.size) :
    (t.set n cell).get n = cell := by
  simp [get, set, h]

/-- Adds an empty cell. -/
def alloc (t : ArgumentCells) : Nat × ArgumentCells := (t.cells.size, ⟨t.cells.push .empty⟩)

/-- Leaves type arguments in a cell, in the place of those that were there. -/
def supply (t : ArgumentCells) (n : Nat) (args : List ConcreteType) : ArgumentCells :=
  t.set n { t.get n with pending := some args }

/-- Forgets the resolution of a cell, as the field table has changed. -/
def invalidate (t : ArgumentCells) (n : Nat) : ArgumentCells :=
  t.set n { t.get n with cached := none }

end ArgumentCells

namespace Serializer

/-- Leaves type arguments for the next object that the serializer writes or reads. Only record
serializers have a place for them. -/
def supply (args : List ConcreteType) (t : ArgumentCells) : Serializer → ArgumentCells
  | .stock _ => t
  | .record r => t.supply r.cell args
  | .catching inner => inner.supply args t
  | .orNew inner => inner.supply args t

end Serializer

namespace RecordSerializerOf

/-- The concrete type of the entry at a place of the field table: under the object's own
arguments if it has any, otherwise by what the enclosing objects of its class bind. -/
def resolved (r : RecordSerializer) (own : Option Resolution) (scopes : ScopeStack) (index : Nat)
    (e : FieldEntry) : Option ConcreteType :=
  if !e.isGeneric || !r.options.optimizedGenerics then none
  else
    match own with
    | some s => s.field? index
    | none =>
      if scopes.isEmpty then none else e.type.resolve (scopes.resolveIn r.decl.id)

end RecordSerializerOf

end GraphCodec
