import Logo.Atom
import Logo.Primitive
import Logo.Span

/-!
# Data

The same trees are both program and data: what is read from a text is made of them, and programs
compute with them. A datum is a plain tree; lists that programs share and change live in a store,
and a datum is then what a list holds at one moment.
-/

namespace Logo

mutual

inductive Datum where
  | atom (value : Atom)
  /-- A list that was read from a text keeps the text between its brackets and its place. -/
  | list (items : List Datum) (source : Option String) (span : Option Span)
  | call (site : Call)
  | procedure (definition : Procedure)

/-- A procedure's name with the expressions that give its inputs. -/
structure Call where
  name : String
  inputs : List Datum
  span : Span

structure Procedure where
  name : String
  params : List String
  kind : ProcedureKind
  body : List Datum
  /-- The text of the definition, from `to` through `end`. -/
  source : Option String

end

namespace Procedure

/-- A procedure of the program itself. Its name is kept in small letters. -/
def user (name : String) (params : List String) (body : List Datum) (source : Option String) :
    Procedure where
  name := Text.lowercase name
  params
  kind := .userDefined
  body
  source

def arity (procedure : Procedure) : Nat :=
  procedure.params.length

def isSpecial (procedure : Procedure) : Bool :=
  match procedure.kind with
  | .special _ => true
  | _ => false

def isUserDefined (procedure : Procedure) : Bool :=
  match procedure.kind with
  | .userDefined => true
  | _ => false

/-- The name and the inputs as a definition writes them. -/
def header (procedure : Procedure) : String :=
  procedure.name ++ String.join (procedure.params.map (" :" ++ ·))

end Procedure

namespace Datum

def integer (value : Int64) : Datum :=
  .atom (.number (.integer value))

def float (value : Float) : Datum :=
  .atom (.number (.float value))

def boolean (value : Bool) : Datum :=
  .atom (.boolean value)

def symbol (text : String) : Datum :=
  .atom (.symbol text)

def quote (text : String) : Datum :=
  .atom (.quote text)

def nil : Datum :=
  .atom .nil

def none : Datum :=
  .atom .none

instance : Inhabited Datum where
  default := .none

/-- A list that a program has built. -/
def built (items : List Datum) : Datum :=
  .list items Option.none Option.none

def typeName : Datum → TypeName
  | .atom value => value.typeName
  | .list .. => .list
  | .call _ => .call
  | .procedure _ => .procedure

def atom? : Datum → Option Atom
  | .atom value => some value
  | _ => Option.none

def number? (datum : Datum) : Option Number :=
  datum.atom?.bind Atom.number?

def text? (datum : Datum) : Option String :=
  datum.atom?.bind Atom.text?

def isWord : Datum → Bool
  | .atom value => value.isWord
  | _ => false

end Datum

end Logo
