import Logo.Datum
import Logo.NameTable

/-!
# The procedure table

Procedures are found by name in small letters. Two names may stand for one procedure.
-/

namespace Logo

structure Procedures where
  entries : NameTable Procedure

namespace Procedures

def empty : Procedures where
  entries := []

def find? (procedures : Procedures) (name : String) : Option Procedure :=
  procedures.entries.get? (Text.lowercase name)

def contains (procedures : Procedures) (name : String) : Bool :=
  (procedures.find? name).isSome

/-- Enters a procedure under its own name. -/
def define (procedures : Procedures) (procedure : Procedure) : Procedures where
  entries := procedures.entries.insert (Text.lowercase procedure.name) procedure

/-- Enters the procedure called `name`, if there is one, under a second name. -/
def nameAgain? (procedures : Procedures) (name second : String) : Option Procedures :=
  (procedures.find? name).map fun procedure =>
    { entries := procedures.entries.insert (Text.lowercase second) procedure }

end Procedures

end Logo
