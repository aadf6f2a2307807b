import Logo.Machine
import Logo.Text.Segmentation

/-!
# Special forms

What each special form does when it is reached, and again each time the work that it asked for is
done. Blocks are read again every time they are run; their lines are run one at a time, so that a
pause can fall between any two of them.
-/

namespace Logo

/-- How far a special form has come. -/
inductive Progress where
  /-- The form is over with this value. -/
  | done (value : Value)
  /-- The procedure around the form is over with this value. -/
  | output (value : Value)
  /-- The form is over and the machine is to stop. -/
  | pause
  /-- The form goes on when the call is over. -/
  | call (site : Call) (continuation : Continuation)
  /-- The form goes on when the program has been run on a stack of its own. -/
  | bounded (program : List Value) (continuation : Continuation)

namespace World

variable [Segmentation]

/-- Where a block stops: at its next call, or at its end. -/
inductive BlockStep where
  | calls (site : Call) (block : Block)
  | ends (value : Value)

/-- Runs the lines of a block up to the next call. A literal is the value of its line. -/
def stepLines (value : Value) : List Datum → Action BlockStep
  | [] => return .ends value
  | .call site :: lines => return .calls site ⟨lines, value⟩
  | .atom (.symbol name) :: _ => throw (.unknownProcedure name)
  | .procedure _ :: lines => stepLines value lines
  | literal :: lines => do
    let value ← place literal
    stepLines value lines

/-- Goes on with a block after the call that it waited for, whose value is `finished`. -/
def stepBlock (block : Block) (finished : Option Value) : Action BlockStep :=
  stepLines (finished.getD block.value) block.lines

/-- Reads a list as a block of which no line has run. -/
def startBlock (handle : ListHandle) : Action Block := do
  return ⟨← readBlock handle, .nil⟩

/-- Goes on with the block that the form keeps, or starts with the list. -/
def runBlock (handle : ListHandle) (continuation : Option Continuation) (finished : Option Value) :
    Action Progress := do
  let block ← match continuation with
    | some (.block block) => pure block
    | _ => startBlock handle
  match ← stepBlock block finished with
  | .calls site block => return .call site (.block block)
  | .ends value => return .done value

/-- Goes on with the block of one round and with the rounds after it. -/
def runRounds (handle : ListHandle) (block : Block) (finished : Option Value) :
    Nat → Action Progress
  | 0 => do
    match ← stepBlock block finished with
    | .calls site block => return .call site (.repeating 0 block)
    | .ends value => return .done value
  | remaining + 1 => do
    match ← stepBlock block finished with
    | .calls site block => return .call site (.repeating (remaining + 1) block)
    | .ends _ => runRounds handle (← startBlock handle) none remaining

def repeatBlock (count list : Value) (continuation : Option Continuation)
    (finished : Option Value) : Action Progress := do
  let handle ← expectList list
  match continuation with
  | some (.repeating remaining block) => runRounds handle block finished remaining
  | _ =>
    let count ← expectInteger count
    if count.toInt ≤ 0 then return .done .nil
    else runRounds handle (← startBlock handle) finished (count.toInt.toNat - 1)

/-- Lines that a program has made, each placed in the store. -/
def placeLines : List Datum → Action (List Value)
  | [] => return []
  | line :: lines => do
    let value ← place line
    return value :: (← placeLines lines)

/-- Runs a list on a stack of its own. The name of a procedure runs the procedure; anything else is
its own value. -/
def runList (input : Value) (continuation : Option Continuation) (finished : Option Value) :
    Action Progress :=
  match continuation with
  | some .running => return .done (finished.getD .nil)
  | _ =>
    match input with
    | .list handle => do
      let program ← readBlock handle
      return .bounded (← placeLines program) .running
    | .atom (.symbol text) | .atom (.quote text) => do
      let name := Text.lowercase text
      if (← get).environment.procedures.contains name then
        return .bounded [.call ⟨name, [], .nowhere⟩] .running
      else return .done input
    | _ => return .done input

/-- A bare word that is read back as code would be a call, so it gets a quote mark unless it spells
a number. -/
def asLiteral (datum : Datum) : Datum :=
  match datum with
  | .atom (.symbol text) => if (Number.ofWord? text).isSome then datum else .quote text
  | _ => datum

mutual

/-- Puts a value in the place of every question mark, at any depth. -/
def substitute (value : Datum) : Datum → Datum
  | .list items _ _ => .built (substituteAll value items)
  | .atom (.symbol text) => if text = "?" then asLiteral value else .symbol text
  | datum => datum

def substituteAll (value : Datum) : List Datum → List Datum
  | [] => []
  | datum :: data => substitute value datum :: substituteAll value data

end

/-- The text of a template in which a value stands for every question mark. -/
def realize (template : Datum) (value : Datum) : String :=
  match template with
  | .list items _ _ => Datum.blockText (substituteAll value items) none
  | _ => ""

/-- The values for which a template runs: the items of a list or the characters of a word. -/
def iterationValues (values : Value) : Action (List Value × Bool) :=
  match values with
  | .list handle => do return ((← get).store.items handle, false)
  | .atom (.symbol text) | .atom (.quote text) =>
    return ((Segmentation.pieces text).map fun character => .atom (.quote character), true)
  | _ => mismatch [.list, .word] values

/-- The value of an iteration that has come to its end. -/
def iterationResult (mode : Iteration) (word : Bool) (results : List Value) : Action Value := do
  match mode, word with
  | .find, _ => return .nil
  | _, false => build results
  | .map, true => do
    let world ← get
    return .atom (.symbol (String.join (results.map fun value => (world.view value).display)))
  | .filter, true => do
    let world ← get
    return .atom (.quote (String.join (results.map fun value => (world.view value).display)))

/-- Runs the template for the next of the pending values. -/
def nextIteration (mode : Iteration) (template : ListHandle) (word : Bool) (results : List Value) :
    List Value → Action Progress
  | [] => do return .done (← iterationResult mode word results.reverse)
  | current :: pending => do
    let world ← get
    let text := realize (world.view (.list template)) (world.view current)
    let program ← readText text
    return .bounded (← placeLines program) (.iterating ⟨current, pending, results, word⟩)

/-- The truth value that a template has to give. -/
def expectTruth (template : ListHandle) (result : Value) : Action Bool :=
  match result with
  | .atom (.boolean truth) => return truth
  | _ => mismatch [.boolean] (.list template)

/-- Goes on with an iteration after the run of the template for its current value. -/
def iterate (mode : Iteration) (template values : Value) (continuation : Option Continuation)
    (finished : Option Value) : Action Progress := do
  let template ← expectList template
  match continuation with
  | some (.iterating ⟨current, pending, results, word⟩) =>
    let result := finished.getD .nil
    match mode with
    | .map => nextIteration mode template word (result :: results) pending
    | .filter =>
      if ← expectTruth template result then
        nextIteration mode template word (current :: results) pending
      else nextIteration mode template word results pending
    | .find =>
      if ← expectTruth template result then return .done current
      else nextIteration mode template word results pending
  | _ =>
    let (pending, word) ← iterationValues values
    nextIteration mode template word [] pending

/-- Runs a special form on its inputs. `continuation` is what it has kept and `finished` the value
of the work that it has waited for. -/
def runSpecial (form : Special) (inputs : List Value) (continuation : Option Continuation)
    (finished : Option Value) : Action Progress :=
  let first := inputs.getD 0 .nil
  let second := inputs.getD 1 .nil
  let third := inputs.getD 2 .nil
  match form with
  | .output => return .output first
  | .stop => return .output .nil
  | .thing => do
    let name ← expectName first
    match (← get).environment.thing? name with
    | some value => return .done value
    | none => throw (.unknownVariable name)
  | .declare => do
    declare (← expectName first)
    return .done .none
  | .make => do
    make (← expectName first) second
    return .done second
  | .declareMake => do
    let name ← expectName first
    declare name
    make name second
    return .done second
  | .ifThen => do
    if ← expectBoolean first then runBlock (← expectList second) continuation finished
    else return .done .nil
  | .ifElse => do
    let branch := if ← expectBoolean first then second else third
    runBlock (← expectList branch) continuation finished
  | .repeatBlock => repeatBlock first second continuation finished
  | .run => runList first continuation finished
  | .pause => return .pause
  | .iterate mode => iterate mode first second continuation finished

end World

end Logo
