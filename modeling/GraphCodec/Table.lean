/-!
# Tables — finite maps that keep their order

A `Table κ α` is a finite map whose entries stay in the order in which their keys were first put
in. Catalogs, contexts, reference numbers and named values are all tables.

* `Table.get?` looks a key up, `Table.insert` replaces or adds, `Table.erase` removes.
* `Table.sameEntries` compares two tables as maps, whatever their order.
* `get?_insert`, `get?_erase`, `get?_insertNew`: what each operation does to look-up.
-/

namespace GraphCodec

/-- A finite map; no key occurs twice. -/
structure Table (κ α : Type) where
  entries : List (κ × α)
  nodup : (entries.map Prod.fst).Nodup

namespace Table

variable {κ α : Type} [DecidableEq κ]

/-- The value of the first entry with key `k`. -/
def find (k : κ) : List (κ × α) → Option α
  | [] => none
  | (k', v) :: rest => if k' = k then some v else find k rest

/-- Replaces the value of `k` where it stands, or adds an entry at the end. -/
def put (k : κ) (v : α) : List (κ × α) → List (κ × α)
  | [] => [(k, v)]
  | (k', v') :: rest => if k' = k then (k, v) :: rest else (k', v') :: put k v rest

theorem keys_put (k : κ) (v : α) (l : List (κ × α)) :
    (put k v l).map Prod.fst =
      if k ∈ l.map Prod.fst then l.map Prod.fst else l.map Prod.fst ++ [k] := by
  induction l with
  | nil => simp [put]
  | cons e rest ih =>
    obtain ⟨k', v'⟩ := e
    by_cases h : k' = k
    · simp [put, h]
    · have h' : k ≠ k' := fun e => h e.symm
      simp only [put, h, if_false, List.map_cons, ih, List.mem_cons, h', false_or]
      split <;> simp

theorem nodup_put (k : κ) (v : α) {l : List (κ × α)} (h : (l.map Prod.fst).Nodup) :
    ((put k v l).map Prod.fst).Nodup := by
  rw [keys_put]
  split
  · exact h
  · rename_i hk
    rw [List.nodup_append]
    exact ⟨h, by simp, fun a ha b hb => by
      rw [List.mem_singleton] at hb
      subst hb
      exact fun e => hk (e ▸ ha)⟩

/-- The table without entries. -/
def empty : Table κ α := ⟨[], List.nodup_nil⟩

instance : Inhabited (Table κ α) := ⟨empty⟩

/-- The value of `k`, if it has one. -/
def get? (t : Table κ α) (k : κ) : Option α := find k t.entries

/-- Whether `k` has a value. -/
def contains (t : Table κ α) (k : κ) : Bool := (t.get? k).isSome

/-- Gives `k` the value `v`; a key that is already present keeps its place. -/
def insert (t : Table κ α) (k : κ) (v : α) : Table κ α :=
  ⟨put k v t.entries, nodup_put k v t.nodup⟩

/-- Gives `k` the value `v` unless it has one. -/
def insertNew (t : Table κ α) (k : κ) (v : α) : Table κ α :=
  if t.contains k then t else t.insert k v

/-- Takes the entry of `k` out. -/
def erase (t : Table κ α) (k : κ) : Table κ α :=
  ⟨t.entries.filter (fun e => e.1 ≠ k), by
    refine List.Nodup.sublist ?_ t.nodup
    exact List.Sublist.map Prod.fst List.filter_sublist⟩

def size (t : Table κ α) : Nat := t.entries.length

def isEmpty (t : Table κ α) : Bool := t.entries.isEmpty

def keys (t : Table κ α) : List κ := t.entries.map Prod.fst

def values (t : Table κ α) : List α := t.entries.map Prod.snd

/-- Puts the pairs in one after the other; a later pair replaces an earlier one of its key. -/
def ofList (pairs : List (κ × α)) : Table κ α :=
  pairs.foldl (fun t p => t.insert p.1 p.2) empty

/-- Whether two tables hold the same value under every key. -/
def sameEntries [DecidableEq α] (t u : Table κ α) : Bool :=
  t.size == u.size && t.entries.all (fun e => decide (u.get? e.1 = some e.2))

/-! ## Look-up after each operation -/

theorem find_put (k k' : κ) (v : α) (l : List (κ × α)) :
    find k' (put k v l) = if k = k' then some v else find k' l := by
  induction l with
  | nil => simp [put, find]
  | cons e rest ih =>
    obtain ⟨a, b⟩ := e
    by_cases h : a = k
    · subst h
      by_cases h' : a = k' <;> simp [put, find, h']
    · by_cases h' : a = k'
      · subst h'
        have hk : k ≠ a := fun e => h e.symm
        simp [put, find, h, hk]
      · simp [put, find, h, h', ih]

@[simp] theorem get?_empty (k : κ) : (empty : Table κ α).get? k = none := rfl

@[simp] theorem get?_insert (t : Table κ α) (k k' : κ) (v : α) :
    (t.insert k v).get? k' = if k = k' then some v else t.get? k' :=
  find_put k k' v t.entries

theorem get?_insertNew (t : Table κ α) (k k' : κ) (v : α) :
    (t.insertNew k v).get? k' =
      if k = k' then some ((t.get? k).getD v) else t.get? k' := by
  unfold insertNew contains
  cases h : t.get? k with
  | none => simp
  | some w =>
    by_cases hk : k = k'
    · subst hk; simp [h]
    · simp [hk]

theorem find_filter_ne (k k' : κ) (l : List (κ × α)) :
    find k' (l.filter (fun e => e.1 ≠ k)) = if k = k' then none else find k' l := by
  induction l with
  | nil => simp [find]
  | cons e rest ih =>
    obtain ⟨a, b⟩ := e
    by_cases h : a = k
    · subst h
      by_cases h' : a = k'
      · subst h'
        simpa [find] using ih
      · simpa [find, h'] using ih
    · by_cases h' : a = k'
      · subst h'
        have hk : k ≠ a := fun e => h e.symm
        simp [find, h, hk]
      · simpa [find, h, h'] using ih

@[simp] theorem get?_erase (t : Table κ α) (k k' : κ) :
    (t.erase k).get? k' = if k = k' then none else t.get? k' :=
  find_filter_ne k k' t.entries

end Table

end GraphCodec
