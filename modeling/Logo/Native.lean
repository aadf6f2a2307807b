import Logo.Datum.Equality
import Logo.Native.Arithmetic
import Logo.Native.Words
import Logo.World

/-!
# Native procedures

What each native does with its inputs. Selectors hand out the stored item itself, so that a list
reached through another one can be changed; constructors copy what they are given.
-/

namespace Logo.World

variable [Segmentation]

/-- The result of a computation that does not touch the world. -/
def lift {α : Type} (result : Except RuntimeError α) : Action α :=
  match result with
  | .ok value => return value
  | .error error => throw error

def arithmetic (operation : Number → Number → Except RuntimeError Number) (left right : Value) :
    Action Value := do
  let a ← expectNumber left
  let b ← expectNumber right
  return .atom (.number (← lift (operation a b)))

def rounding (operation : Number → Except RuntimeError Number) (value : Value) : Action Value := do
  let a ← expectNumber value
  return .atom (.number (← lift (operation a)))

/-- Compares two numbers. What has no order passes no test. -/
def comparison (test : Ordering → Bool) (left right : Value) : Action Value := do
  let a ← expectNumber left
  let b ← expectNumber right
  return .boolean ((a.compare? b).any test)

def equality (left right : Value) : Action Bool := do
  let world ← get
  return (world.view left).equal (world.view right)

/-- The item of a list or the character of a word at the position that `position` chooses for its
length. -/
def select (thing : Value) (position : Nat → Option Nat) (index : Int64) : Action Value :=
  match thing with
  | .list handle => do
    let items := (← get).store.items handle
    match (position items.length).bind (items[·]?) with
    | some item => return item
    | none => throw (.outOfRange index items.length)
  | .atom atom =>
    if atom.isWord then
      let characters := Segmentation.pieces atom.display
      match (position characters.length).bind (characters[·]?) with
      | some character => return .atom (Words.rebuild atom character)
      | none => throw (.outOfRange index characters.length)
    else mismatch [.list, .word] thing
  | _ => mismatch [.list, .word] thing

/-- Positions that programs count from one. -/
def position? (index : Int64) : Option Nat :=
  if 1 ≤ index.toInt then some (index.toInt.toNat - 1) else none

/-- Replaces an item in place. What is stored is a copy, and never a list that holds the target. -/
def setItem (index target value : Value) : Action Value := do
  let index ← expectInteger index
  let handle ← expectList target
  let store := (← get).store
  if let .list inner := value then
    if store.reaches inner handle then throw .circularList
  let length := (store.items handle).length
  match position? index with
  | some position =>
    if position < length then
      withStore fun store =>
        let (stored, store) := store.copy value
        (Value.none, (store.set? handle position stored).getD store)
    else throw (.outOfRange index length)
  | none => throw (.outOfRange index length)

/-- Places the result of an operation on the data that the inputs hold. -/
def rebuilding (operation : Datum → Except RuntimeError Datum) (value : Value) : Action Value := do
  let datum := (← get).view value
  place (← lift (operation datum))

def rebuilding₂ (operation : Datum → Datum → Except RuntimeError Datum) (left right : Value) :
    Action Value := do
  let world ← get
  let first := world.view left
  let second := world.view right
  place (← lift (operation first second))

/-- The number of items or characters. -/
def count (thing : Value) : Action Value :=
  match thing with
  | .list handle => do return .integer (.ofNat ((← get).store.items handle).length)
  | .atom atom =>
    if atom.isWord then return .integer (.ofNat (Segmentation.pieces atom.display).length)
    else mismatch [.list, .word] thing
  | _ => mismatch [.list, .word] thing

def isEmpty (thing : Value) : Action Bool :=
  match thing with
  | .list handle => do return ((← get).store.items handle).isEmpty
  | .atom (.symbol text) | .atom (.quote text) => return text.isEmpty
  | .atom .nil | .atom .none => return true
  | _ => return false

/-- Whether a thing equals an item of a list or is a character of a word. -/
def isMember (thing target : Value) : Action Bool := do
  let world ← get
  let needle := world.view thing
  match ← lift (Words.sequence (world.view target)) with
  | .list items => return items.any (·.equal needle)
  | .word atom =>
    let text ← lift (Words.wordText needle)
    return (Segmentation.pieces atom.display).contains text

/-- Writes the inputs, a blank between any two. -/
def writeAll (form : Datum → String) (close : String) (inputs : List Value) : Action Value := do
  modify fun world =>
    let texts := inputs.map fun value => form (world.view value)
    { world with console := world.console.write (" ".intercalate texts ++ close) }
  return .none

/-- The next line of input. After the last one every line is empty. -/
def nextLine : Action String :=
  modifyGet fun world =>
    let (line, console) := world.console.readLine
    (line.getD "", { world with console })

/-- Moves the turtle and tells its place. -/
def moveTurtle (move : Turtle → Turtle) : Action Value := do
  modify fun world => { world with turtle := move world.turtle }
  let (x, y) := (← get).turtle.position
  build [.integer x, .integer y]

def moveBy (move : Turtle → Float → Turtle) (amount : Value) : Action Value := do
  let number ← expectNumber amount
  moveTurtle (move · number.toFloat)

/-- Runs a native on its inputs. It gets at least as many as it has names for. -/
def runNative (action : Native) (inputs : List Value) : Action Value :=
  let first := inputs.getD 0 .nil
  let second := inputs.getD 1 .nil
  let third := inputs.getD 2 .nil
  match action with
  | .add => arithmetic Arithmetic.add first second
  | .subtract => arithmetic Arithmetic.subtract first second
  | .multiply => arithmetic Arithmetic.multiply first second
  | .divide => arithmetic Arithmetic.divide first second
  | .modulo => do
    let a ← expectInteger first
    let b ← expectInteger second
    return .atom (.number (← lift (Arithmetic.modulo a b)))
  | .integer => rounding Arithmetic.integer first
  | .round => rounding Arithmetic.round first
  | .equal => do return .boolean (← equality first second)
  | .notEqual => do return .boolean (!(← equality first second))
  | .less => comparison Ordering.isLT first second
  | .greater => comparison Ordering.isGT first second
  | .lessEqual => comparison Ordering.isLE first second
  | .greaterEqual => comparison Ordering.isGE first second
  | .and => do
    if ← expectBoolean first then return .boolean (← expectBoolean second)
    else return .boolean false
  | .or => do
    if ← expectBoolean first then return .boolean true
    else return .boolean (← expectBoolean second)
  | .not => do return .boolean (!(← expectBoolean first))
  | .nameAgain => do
    let name ← expectName first
    let again ← expectName second
    let world ← get
    match world.environment.procedures.nameAgain? name again with
    | some procedures =>
      set { world with environment := { world.environment with procedures } }
      return .none
    | none => throw (.unknownProcedure name)
  | .first => select first (fun _ => some 0) 1
  | .last => select first (fun length => some (length - 1)) 1
  | .item => do
    let index ← expectInteger first
    select second (fun _ => position? index) index
  | .setItem => setItem first second third
  | .butFirst => rebuilding Words.butFirst first
  | .butLast => rebuilding Words.butLast first
  | .reverse => rebuilding Words.reverse first
  | .putFirst => rebuilding₂ Words.putFirst first second
  | .putLast => rebuilding₂ Words.putLast first second
  | .joinWord => do
    let world ← get
    return .atom (.symbol (← lift (Words.join (inputs.map world.view))))
  | .makeList => do
    let world ← get
    place (.built (inputs.map world.view))
  | .sentence => do
    let world ← get
    place (Words.sentence (inputs.map world.view))
  | .lowercase => rebuilding (Words.convertCase Text.lowercase) first
  | .uppercase => rebuilding (Words.convertCase Text.uppercase) first
  | .freshSymbol =>
    modifyGet fun world =>
      let symbols := world.symbols + 1
      (.atom (.symbol ("g" ++ toString symbols)), { world with symbols })
  | .count => count first
  | .isEmpty => do return .boolean (← isEmpty first)
  | .isWord => return .boolean (first.atom?.any Atom.isWord)
  | .isNumber => return .boolean first.number?.isSome
  | .isList => return .boolean (first matches .list _)
  | .isMember => do return .boolean (← isMember first second)
  | .print => writeAll Datum.printed "\n" inputs
  | .display => writeAll Datum.display "\n" inputs
  | .write => writeAll Datum.printed "" inputs
  | .readWord => do return .atom (.quote (← nextLine))
  | .readList => do
    let line ← nextLine
    match readList line with
    | .ok list => place list
    | .error error => throw (.unreadableLine error)
  | .forward => moveBy Turtle.forward first
  | .back => moveBy (fun turtle amount => turtle.forward (-amount)) first
  | .right => moveBy Turtle.turn first
  | .left => moveBy (fun turtle amount => turtle.turn (-amount)) first
  | .position => moveTurtle id
  | .home => moveTurtle Turtle.home
  | .clearScreen => moveTurtle fun _ => .start

end Logo.World
