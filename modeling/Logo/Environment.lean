import Logo.Procedure.Table
import Logo.Store

/-!
# Variables

Scopes are dynamic: a name is looked up through all scopes that are open, the innermost first, down
to the global one. Assignment changes the nearest scope that knows the name. Names are kept in small
letters.
-/

namespace Logo

inductive Binding where
  /-- The name is declared and has no value yet. -/
  | declared
  | assigned (value : Value)

/-- A declared name reads as the empty value. -/
def Binding.read : Binding → Value
  | .declared => .none
  | .assigned value => value

/-- The names of one scope. The operations on it take names in small letters. -/
structure Scope where
  name : String
  members : NameTable Binding

namespace Scope

def new (name : String) : Scope where
  name := Text.lowercase name
  members := []

def contains (scope : Scope) (key : String) : Bool :=
  scope.members.contains key

def get? (scope : Scope) (key : String) : Option Value :=
  (scope.members.get? key).map Binding.read

def set (scope : Scope) (key : String) (value : Value) : Scope :=
  { scope with members := scope.members.insert key (.assigned value) }

/-- Makes a name known without a value, unless the scope knows it already. -/
def declare (scope : Scope) (key : String) : Scope :=
  if scope.contains key then scope
  else { scope with members := scope.members.insert key .declared }

def size (scope : Scope) : Nat :=
  scope.members.length

end Scope

/-- The open scopes and the procedures. -/
structure Environment where
  /-- The scopes above the global one, the innermost first. -/
  inner : List Scope
  global : Scope
  procedures : Procedures

namespace Environment

def empty : Environment where
  inner := []
  global := .new "global"
  procedures := .empty

/-- The number of scopes, the global one included. -/
def depth (environment : Environment) : Nat :=
  environment.inner.length + 1

/-- The innermost scope. -/
def top (environment : Environment) : Scope :=
  environment.inner.headD environment.global

def modifyTop (environment : Environment) (change : Scope → Scope) : Environment :=
  match environment.inner with
  | [] => { environment with global := change environment.global }
  | scope :: outer => { environment with inner := change scope :: outer }

def push (environment : Environment) (scope : Scope) : Environment :=
  { environment with inner := scope :: environment.inner }

/-- Closes the innermost scope. The global one stays open. -/
def pop (environment : Environment) : Environment :=
  { environment with inner := environment.inner.tail }

/-- Closes every scope but the global one. -/
def truncate (environment : Environment) : Environment :=
  { environment with inner := [] }

/-- Assigns in the first of the scopes that knows the name. -/
def assignNearest? (key : String) (value : Value) : List Scope → Option (List Scope)
  | [] => none
  | scope :: outer =>
    if scope.contains key then some (scope.set key value :: outer)
    else (assignNearest? key value outer).map (scope :: ·)

/-- Assigns in the nearest scope that knows the name, or else in the global one. -/
def make (environment : Environment) (name : String) (value : Value) : Environment :=
  let key := Text.lowercase name
  match assignNearest? key value environment.inner with
  | some inner => { environment with inner }
  | none => { environment with global := environment.global.set key value }

/-- Declares a name in the innermost scope. -/
def declare (environment : Environment) (name : String) : Environment :=
  environment.modifyTop (·.declare (Text.lowercase name))

/-- The value of the nearest binding of a name. -/
def thing? (environment : Environment) (name : String) : Option Value :=
  let key := Text.lowercase name
  match environment.inner.findSome? (·.get? key) with
  | some value => some value
  | none => environment.global.get? key

end Environment

end Logo
