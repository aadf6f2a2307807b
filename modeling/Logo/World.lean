import Logo.Console
import Logo.Environment
import Logo.Error
import Logo.Log
import Logo.Program
import Logo.Turtle

/-!
# What primitives work on

The world is all that primitives can see and change: variables and procedures, the store, the
console, the turtle and the log. An action on it may fail; what it has changed by then stays
changed.
-/

namespace Logo

structure World where
  environment : Environment
  store : Store
  console : Console
  turtle : Turtle
  /-- The number of symbols made so far. -/
  symbols : Nat
  log : Log

def World.empty : World where
  environment := .empty
  store := .empty
  console := .new []
  turtle := .start
  symbols := 0
  log := .new none

abbrev Action := EStateM RuntimeError World

namespace World

/-- The datum that a value holds. -/
def view (world : World) (value : Value) : Datum :=
  world.store.view value

/-- Adds a record to the log if its level is kept. -/
@[inline]
def note (world : World) (level : LogLevel) (message : World → String) : World :=
  if world.log.keeps level then { world with log := world.log.add level (message world) }
  else world

/-- Runs a change of the store. The store is taken out of the world meanwhile, so that it is not
copied. -/
def withStore {α : Type} (change : Store → α × Store) : Action α :=
  modifyGet fun world =>
    let store := world.store
    let world := { world with store := .empty }
    let (value, store) := change store
    (value, { world with store })

/-- Places a datum in the store. -/
def place (datum : Datum) : Action Value :=
  withStore (·.place datum)

/-- A new list of values. -/
def build (items : List Value) : Action Value :=
  withStore (·.build items)

/-- Fails because a value is of none of the expected types. -/
def mismatch {α : Type} (expected : List TypeName) (value : Value) : Action α := do
  throw (.typeMismatch expected ((← get).view value))

def expectNumber (value : Value) : Action Number :=
  match value.number? with
  | some number => return number
  | none => mismatch [.number] value

def expectInteger (value : Value) : Action Int64 :=
  match value.number? with
  | some (.integer n) => return n
  | _ => mismatch [.integer] value

def expectBoolean (value : Value) : Action Bool :=
  match value with
  | .atom (.boolean truth) => return truth
  | _ => mismatch [.boolean] value

def expectList (value : Value) : Action ListHandle :=
  match value with
  | .list handle => return handle
  | _ => mismatch [.list] value

/-- The text of a symbol or quoted word, in small letters. -/
def expectName (value : Value) : Action String :=
  match value.text? with
  | some text => return Text.lowercase text
  | none => mismatch [.symbol, .quote] value

/-- Assigns a variable. -/
def make (name : String) (value : Value) : Action Unit :=
  modify fun world =>
    let world := world.note .trace fun world =>
      "make " ++ name ++ " " ++ (world.view value).source
    { world with environment := world.environment.make name value }

/-- Declares a variable in the innermost scope. -/
def declare (name : String) : Action Unit :=
  modify fun world =>
    let world := world.note .trace fun world =>
      "local " ++ name ++ " in " ++ world.environment.top.name
    { world with environment := world.environment.declare name }

/-- The world with another procedure table. -/
def withProcedures (world : World) (procedures : Procedures) : World :=
  { world with environment := { world.environment with procedures } }

/-- Reads the text of a list as a program. -/
def readText (text : String) : Action (List Datum) := fun world =>
  match readSource text world.environment.procedures with
  | .ok program procedures => .ok program (world.withProcedures procedures)
  | .error error procedures =>
    .error (.unreadableBlock error text) (world.withProcedures procedures)

/-- Reads a list as a program. -/
def readBlock (handle : ListHandle) : Action (List Datum) := do
  let store := (← get).store
  readText (match store.view (.list handle) with
    | .list items text _ => Datum.blockText items text
    | _ => "")

end World

end Logo
