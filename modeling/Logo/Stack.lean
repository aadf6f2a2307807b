/-!
# Stacks

A stack with its size at hand.
-/

namespace Logo

structure Stack (α : Type) where
  /-- The elements, the top one first. -/
  toList : List α
  size : Nat
  size_eq : size = toList.length

namespace Stack

variable {α : Type}

def empty : Stack α where
  toList := []
  size := 0
  size_eq := rfl

def push (stack : Stack α) (element : α) : Stack α where
  toList := element :: stack.toList
  size := stack.size + 1
  size_eq := by rw [stack.size_eq, List.length_cons]

/-- The stack without its top elements, of which there are `count`. -/
def drop (stack : Stack α) (count : Nat) : Stack α where
  toList := stack.toList.drop count
  size := stack.size - count
  size_eq := by rw [stack.size_eq, List.length_drop]

/-- The stack without its top element. -/
def pop (stack : Stack α) : Stack α where
  toList := stack.toList.tail
  size := stack.size - 1
  size_eq := by rw [stack.size_eq, List.length_tail]

def top? (stack : Stack α) : Option α :=
  stack.toList.head?

/-- Puts another element in the place of the top one. -/
def replaceTop (stack : Stack α) (element : α) : Stack α where
  toList := match stack.toList with
    | [] => []
    | _ :: rest => element :: rest
  size := stack.size
  size_eq := by
    rw [stack.size_eq]
    cases stack.toList <;> rfl

def isEmpty (stack : Stack α) : Bool :=
  stack.toList.isEmpty

end Stack

end Logo
