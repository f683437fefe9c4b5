import GraphCodec.Schema.ConcreteType

/-!
# Schema — declared types of fields

A field is declared with a fixed type, a generic class applied to arguments, a type parameter of
its own class, or as dynamic. `FieldType.resolve` replaces the parameters by what they are bound
to; it has no answer for a dynamic field or an unbound parameter, and it drops all arguments of a
generic class as soon as one of them has no answer.

* `mentionsParams_eq`: a type mentions parameters exactly if the list of them is not empty.
-/

namespace GraphCodec

/-- The declared type of a field. -/
inductive FieldType
  | fixed (t : ValueType)
  | generic (c : ClassId) (args : List FieldType)
  | param (name : String)
  | dynamic

namespace FieldType

mutual

/-- Decides whether two declared types are the same. -/
def decideEq : (a b : FieldType) → Decidable (a = b)
  | .fixed t, .fixed u =>
    if h : t = u then .isTrue (by rw [h])
    else .isFalse (by intro e; injection e with e'; exact h e')
  | .generic c as, .generic d bs =>
    if h : c = d then
      match decideEqList as bs with
      | .isTrue h' => .isTrue (by rw [h, h'])
      | .isFalse h' => .isFalse (by intro e; injection e with _ e'; exact h' e')
    else .isFalse (by intro e; injection e with e' _; exact h e')
  | .param x, .param y =>
    if h : x = y then .isTrue (by rw [h])
    else .isFalse (by intro e; injection e with e'; exact h e')
  | .dynamic, .dynamic => .isTrue rfl
  | .fixed _, .generic _ _ | .fixed _, .param _ | .fixed _, .dynamic
  | .generic _ _, .fixed _ | .generic _ _, .param _ | .generic _ _, .dynamic
  | .param _, .fixed _ | .param _, .generic _ _ | .param _, .dynamic
  | .dynamic, .fixed _ | .dynamic, .generic _ _ | .dynamic, .param _ =>
    .isFalse (by intro e; cases e)

/-- Decides whether two lists of declared types are the same. -/
def decideEqList : (as bs : List FieldType) → Decidable (as = bs)
  | [], [] => .isTrue rfl
  | [], _ :: _ => .isFalse (by intro e; cases e)
  | _ :: _, [] => .isFalse (by intro e; cases e)
  | a :: as, b :: bs =>
    match decideEq a b with
    | .isTrue h =>
      match decideEqList as bs with
      | .isTrue h' => .isTrue (by rw [h, h'])
      | .isFalse h' => .isFalse (by intro e; injection e with _ e'; exact h' e')
    | .isFalse h => .isFalse (by intro e; injection e with e' _; exact h e')

end

instance : DecidableEq FieldType := decideEq

mutual

/-- The type parameters in the order in which they are met, repetitions included. -/
def params : FieldType → List String
  | .param name => [name]
  | .generic _ args => paramsList args
  | .fixed _ | .dynamic => []

/-- The type parameters of a list of types. -/
def paramsList : List FieldType → List String
  | [] => []
  | a :: rest => params a ++ paramsList rest

end

mutual

/-- Whether a type parameter occurs in the type. -/
def mentionsParams : FieldType → Bool
  | .param _ => true
  | .generic _ args => mentionsParamsList args
  | .fixed _ | .dynamic => false

/-- Whether a type parameter occurs in one of the types. -/
def mentionsParamsList : List FieldType → Bool
  | [] => false
  | a :: rest => mentionsParams a || mentionsParamsList rest

end

mutual

/-- The concrete type under bindings of the parameters, if it is known. -/
def resolve (lookup : String → Option ConcreteType) : FieldType → Option ConcreteType
  | .fixed t => some (.ofType t)
  | .param name => lookup name
  | .dynamic => none
  | .generic c args => some ⟨.object c, (resolveList lookup args).getD []⟩

/-- The concrete types of all arguments, if every one of them is known. -/
def resolveList (lookup : String → Option ConcreteType) :
    List FieldType → Option (List ConcreteType)
  | [] => some []
  | a :: rest =>
    match resolve lookup a, resolveList lookup rest with
    | some t, some ts => some (t :: ts)
    | _, _ => none

end

/-- The value type that the declaration fixes whatever the parameters are bound to. -/
def rawType : FieldType → Option ValueType
  | .fixed t => some t
  | .generic c _ => some (.object c)
  | .param _ | .dynamic => none

/-- The concrete type of a declaration when nothing is bound. -/
def unbound (t : FieldType) : Option ConcreteType := t.resolve fun _ => none

def isPrimitive : FieldType → Bool
  | .fixed t => t.isPrimitive
  | _ => false

mutual

/-- The type as it is declared; a generic class always has its angle brackets. -/
def text : FieldType → String
  | .fixed t => t.path
  | .generic c args => c.path ++ "<" ++ Text.commaSeparated (texts args) ++ ">"
  | .param name => name
  | .dynamic => "dyn"

/-- The texts of a list of declared types. -/
def texts : List FieldType → List String
  | [] => []
  | a :: rest => text a :: texts rest

end

instance : ToString FieldType := ⟨text⟩

mutual

theorem mentionsParams_eq : ∀ t : FieldType, t.mentionsParams = !t.params.isEmpty
  | .fixed _ => rfl
  | .param _ => rfl
  | .dynamic => rfl
  | .generic _ args => by
    rw [mentionsParams, params, mentionsParamsList_eq]

theorem mentionsParamsList_eq : ∀ ts : List FieldType,
    mentionsParamsList ts = !(paramsList ts).isEmpty
  | [] => rfl
  | a :: rest => by
    rw [mentionsParamsList, paramsList, mentionsParams_eq a, mentionsParamsList_eq rest]
    cases a.params <;> simp

end

end FieldType

end GraphCodec
