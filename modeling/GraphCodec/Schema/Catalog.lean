import GraphCodec.Schema.ClassDecl
import GraphCodec.Error.Basic
import GraphCodec.Table

/-!
# Schema — the catalog of classes

A `Catalog` stores class tables by their identity. A table is refused if its class is already
there, if two of its fields share a name, or if a field mentions a type parameter that the class
does not declare, tested in that order. A short name finds a class only while exactly one class in
the catalog has it.

* `register_ok`, `register_error`: what an accepted and a refused table leave behind.
-/

namespace GraphCodec

/-- Class tables by identity, with an index of short names. -/
structure Catalog where
  decls : Table ClassId ClassDecl
  /-- The short names that one class has. -/
  names : Table String ClassId
  /-- The short names that several classes have. -/
  ambiguous : List String

namespace Catalog

def empty : Catalog := ⟨.empty, .empty, []⟩

/-- Why a table is refused, if it is. -/
def fault? (k : Catalog) (d : ClassDecl) : Option CatalogError :=
  if k.decls.contains d.id then some (.alreadyRegistered d.id)
  else
    match d.duplicateField? with
    | some field => some (.duplicateField d.id field)
    | none => d.undeclaredParam?.map fun p => .unknownTypeParam d.id p.1 p.2

/-- Adds a table that is not refused. A short name met for the second time becomes ambiguous, and
stays so. -/
def add (k : Catalog) (d : ClassDecl) : Catalog :=
  let name := d.id.name
  let k := { k with decls := k.decls.insert d.id d }
  if k.ambiguous.contains name then k
  else if k.names.contains name then
    { k with names := k.names.erase name, ambiguous := name :: k.ambiguous }
  else { k with names := k.names.insert name d.id }

/-- Adds a table or says why it is refused. -/
def register (k : Catalog) (d : ClassDecl) : Except CatalogError Catalog :=
  match k.fault? d with
  | some e => .error e
  | none => .ok (k.add d)

/-- The table of a class. -/
def get? (k : Catalog) (c : ClassId) : Option ClassDecl := k.decls.get? c

/-- The table of the class with this full path. -/
def withPath? (k : Catalog) (path : String) : Option ClassDecl := k.get? ⟨path⟩

/-- The table of the only class with this short name. -/
def withName? (k : Catalog) (name : String) : Option ClassDecl :=
  (k.names.get? name).bind k.get?

/-- Whether several classes have this short name. -/
def isAmbiguous (k : Catalog) (name : String) : Bool := k.ambiguous.contains name

def contains (k : Catalog) (c : ClassId) : Bool := k.decls.contains c

def size (k : Catalog) : Nat := k.decls.size

def isEmpty (k : Catalog) : Bool := k.decls.isEmpty

/-- The full paths of all classes. -/
def paths (k : Catalog) : List String := k.decls.keys.map ClassId.path

/-- The full paths in the order of their code points. -/
def sortedPaths (k : Catalog) : List String := k.paths.mergeSort fun a b => decide (a ≤ b)

theorem register_ok {k k' : Catalog} {d : ClassDecl} (h : k.register d = .ok k') :
    k.fault? d = none ∧ k' = k.add d := by
  unfold register at h
  split at h
  · cases h
  · rename_i hf
    injection h with h
    exact ⟨hf, h.symm⟩

theorem register_error {k : Catalog} {d : ClassDecl} {e : CatalogError} :
    k.register d = .error e ↔ k.fault? d = some e := by
  unfold register
  split
  · rename_i hf
    simp [hf]
  · rename_i hf
    simp [hf]

end Catalog

end GraphCodec
