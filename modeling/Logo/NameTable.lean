/-!
# Tables of names

A finite map from names to values, as a list in which every name occurs once, the latest first.
-/

namespace Logo

abbrev NameTable (α : Type) := List (String × α)

namespace NameTable

variable {α : Type}

def get? (name : String) : NameTable α → Option α
  | [] => none
  | (key, value) :: rest => if key = name then some value else get? name rest

def contains (name : String) (table : NameTable α) : Bool :=
  (table.get? name).isSome

def erase (name : String) : NameTable α → NameTable α
  | [] => []
  | (key, value) :: rest => if key = name then erase name rest else (key, value) :: erase name rest

def insert (name : String) (value : α) (table : NameTable α) : NameTable α :=
  (name, value) :: table.erase name

/-- The entries in the order of their names. -/
def sorted (table : NameTable α) : List (String × α) :=
  table.mergeSort fun left right => left.1 ≤ right.1

@[simp]
theorem get?_erase (name other : String) (table : NameTable α) :
    (table.erase name).get? other = if other = name then none else table.get? other := by
  fun_induction erase name table <;> grind [get?]

@[simp]
theorem get?_insert (name other : String) (value : α) (table : NameTable α) :
    (table.insert name value).get? other =
      if other = name then some value else table.get? other := by
  by_cases hother : name = other
  · simp [insert, get?, hother]
  · simp [insert, get?, hother, Ne.symm hother]

end NameTable

end Logo
