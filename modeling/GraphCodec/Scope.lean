import GraphCodec.Schema.ClassDecl
import GraphCodec.Error.Basic

/-!
# Scopes — what type parameters are bound to

A `TypeScope` binds the parameters of one class to the arguments that one of its instances was
given. During a pass the scopes of the enclosing instances form a `ScopeStack`, innermost first.
A field looks its parameters up in the scopes of its own class only (`ScopeStack.resolveIn`).

* `length_bindings`: a scope has one binding for each declared parameter.
-/

namespace GraphCodec

/-- The bindings of the parameters of one class, in their order. -/
structure TypeScope where
  owner : ClassId
  bindings : List (String × ConcreteType)
  deriving DecidableEq

namespace TypeScope

/-- Binds the parameters to the arguments, place by place. -/
def bind (owner : ClassId) (params : TypeParams) (args : List ConcreteType) :
    Except ConfigError TypeScope :=
  if params.size = args.length then .ok ⟨owner, params.names.zip args⟩
  else .error (.genericArity owner params.size args.length)

/-- What the first parameter with this name is bound to. -/
def get? (s : TypeScope) (name : String) : Option ConcreteType :=
  (s.bindings.find? fun b => b.1 = name).map Prod.snd

def size (s : TypeScope) : Nat := s.bindings.length

def isEmpty (s : TypeScope) : Bool := s.bindings.isEmpty

def text (s : TypeScope) : String :=
  s.owner.path ++ "<" ++
    Text.commaSeparated (s.bindings.map fun b => b.1 ++ " = " ++ b.2.text) ++ ">"

theorem length_bindings {owner : ClassId} {params : TypeParams} {args : List ConcreteType}
    {s : TypeScope} (h : bind owner params args = .ok s) :
    s.bindings.length = params.size ∧ s.bindings.length = args.length := by
  unfold bind at h
  split at h
  · rename_i hl
    injection h with h
    subst h
    unfold TypeParams.size at hl ⊢
    simp [List.length_zip, hl]
  · cases h

end TypeScope

/-- The scopes in force, innermost first. -/
structure ScopeStack where
  scopes : List TypeScope
  deriving DecidableEq

namespace ScopeStack

def empty : ScopeStack := ⟨[]⟩

def depth (s : ScopeStack) : Nat := s.scopes.length

def isEmpty (s : ScopeStack) : Bool := s.scopes.isEmpty

def push (s : ScopeStack) (scope : TypeScope) : ScopeStack := ⟨scope :: s.scopes⟩

def pop (s : ScopeStack) : ScopeStack := ⟨s.scopes.tail⟩

/-- Pushes a scope if there is one. -/
def enter (s : ScopeStack) : Option TypeScope → ScopeStack
  | some scope => s.push scope
  | none => s

/-- Undoes `enter`. -/
def leave (s : ScopeStack) : Option TypeScope → ScopeStack
  | some _ => s.pop
  | none => s

/-- The innermost scope. -/
def current? (s : ScopeStack) : Option TypeScope := s.scopes.head?

/-- What the innermost scope that has the name binds it to, whatever its class. -/
def resolve (s : ScopeStack) (name : String) : Option ConcreteType :=
  s.scopes.findSome? fun scope => scope.get? name

/-- What the innermost scope of the class that has the name binds it to. -/
def resolveIn (s : ScopeStack) (owner : ClassId) (name : String) : Option ConcreteType :=
  (s.scopes.filter fun scope => scope.owner = owner).findSome? fun scope => scope.get? name

/-- The scopes outermost first, for inspection. -/
def inspect (s : ScopeStack) : String :=
  Text.record "GenericsResolver"
    [("scopes", Text.list (s.scopes.reverse.map TypeScope.text))]

@[simp] theorem leave_enter (s : ScopeStack) (scope : Option TypeScope) :
    (s.enter scope).leave scope = s := by
  cases scope <;> rfl

end ScopeStack

/-- A stack of scopes together with the openings that built it, each of which pushed one or none. -/
structure ScopeTrail where
  stack : ScopeStack
  /-- For each opening, newest first, whether it pushed a scope. -/
  openings : List Bool

namespace ScopeTrail

def empty : ScopeTrail := ⟨.empty, []⟩

/-- Opens with a scope or without one. -/
def openWith (t : ScopeTrail) (scope : Option TypeScope) : ScopeTrail :=
  ⟨t.stack.enter scope, scope.isSome :: t.openings⟩

/-- Closes the newest opening. -/
def close (t : ScopeTrail) : ScopeTrail :=
  match t.openings with
  | [] => t
  | true :: rest => ⟨t.stack.pop, rest⟩
  | false :: rest => ⟨t.stack, rest⟩

/-- Closes everything that is open. -/
def closeAll (t : ScopeTrail) : ScopeTrail := t.openings.foldl (fun t _ => t.close) t

end ScopeTrail

end GraphCodec
