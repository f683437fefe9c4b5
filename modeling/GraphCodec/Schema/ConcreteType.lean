import GraphCodec.Schema.ClassId

/-!
# Schema — concrete types

A `ConcreteType` is a value type together with type arguments, which are concrete types again.
-/

namespace GraphCodec

/-- A value type with its type arguments. -/
structure ConcreteType where
  base : ValueType
  args : List ConcreteType

namespace ConcreteType

/-- A type without arguments. -/
def ofType (t : ValueType) : ConcreteType := ⟨t, []⟩

instance : Inhabited ConcreteType := ⟨ofType .bool⟩

mutual

/-- Decides whether two types are the same. -/
def decideEq : (a b : ConcreteType) → Decidable (a = b)
  | ⟨t, as⟩, ⟨u, bs⟩ =>
    if h : t = u then
      match decideEqList as bs with
      | .isTrue h' => .isTrue (by rw [h, h'])
      | .isFalse h' => .isFalse (by intro e; injection e with _ e'; exact h' e')
    else .isFalse (by intro e; injection e with e' _; exact h e')

/-- Decides whether two lists of arguments are the same. -/
def decideEqList : (as bs : List ConcreteType) → Decidable (as = bs)
  | [], [] => .isTrue rfl
  | [], _ :: _ => .isFalse (by intro e; cases e)
  | _ :: _, [] => .isFalse (by intro e; cases e)
  | a :: as, b :: bs =>
    match decideEq a b with
    | .isTrue h =>
      match decideEqList as bs with
      | .isTrue h' => .isTrue (by rw [h, h'])
      | .isFalse h' => .isFalse (by intro e; injection e with _ e'; exact h' e')
    | .isFalse h => .isFalse (by intro e; injection e with e' _; exact h e')

end

instance : DecidableEq ConcreteType := decideEq

mutual

/-- The type as it is shown, with its arguments between angle brackets if it has any. -/
def text : ConcreteType → String
  | ⟨base, args⟩ =>
    if args.isEmpty then base.path else base.path ++ "<" ++ Text.commaSeparated (texts args) ++ ">"

/-- The texts of a list of arguments. -/
def texts : List ConcreteType → List String
  | [] => []
  | a :: rest => text a :: texts rest

end

instance : ToString ConcreteType := ⟨text⟩

end ConcreteType

end GraphCodec
