import Logo.Proofs.Orderly

/-!
# Positions that are read

Primitives take their inputs by position, and a template takes the values that it runs for one after
the other. Here it is said which positions those are. A primitive that is given the inputs at its
positions never looks further. An iteration can be followed by the index of the value that it has
come to, in the list of all its values, and the one that keeps the values still to come is the same
iteration.
-/

namespace Logo

/-- A list of some length is read at a position, or an amount is taken off a counter. -/
inductive Access where
  | read (position length : Nat)
  | subtract (amount counter : Nat)
  deriving DecidableEq, Repr

/-- The position is one of the list; the counter is at least as large as the amount. -/
def Access.InRange : Access → Prop
  | .read position length => position < length
  | .subtract amount counter => amount ≤ counter

instance : DecidablePred Access.InRange
  | .read position length => inferInstanceAs (Decidable (position < length))
  | .subtract amount counter => inferInstanceAs (Decidable (amount ≤ counter))

def Access.reads (count : Nat) (inputs : List Value) : List Access :=
  (List.range count).map (.read · inputs.length)

theorem Access.inRange_reads {count : Nat} {inputs : List Value} (hcount : count ≤ inputs.length) :
    ∀ access ∈ reads count inputs, access.InRange := by
  intro access hmem
  obtain ⟨position, hposition, rfl⟩ := List.mem_map.mp hmem
  exact Nat.lt_of_lt_of_le (List.mem_range.mp hposition) hcount

/-! ## Inputs -/

def Native.positions : Native → Nat
  | .setItem => 3
  | .add | .subtract | .multiply | .divide | .modulo | .equal | .notEqual | .less | .greater
  | .lessEqual | .greaterEqual | .and | .or | .nameAgain | .item | .putFirst | .putLast
  | .isMember => 2
  | .integer | .round | .not | .first | .last | .butFirst | .butLast | .reverse | .lowercase
  | .uppercase | .count | .isEmpty | .isWord | .isNumber | .isList | .forward | .back | .right
  | .left => 1
  | .joinWord | .makeList | .sentence | .freshSymbol | .print | .display | .write | .readWord
  | .readList | .position | .home | .clearScreen => 0

def Native.takesAll : Native → Bool
  | .joinWord | .makeList | .sentence | .print | .display | .write => true
  | _ => false

def Special.positions : Special → Nat
  | .ifElse => 3
  | .make | .declareMake | .ifThen | .repeatBlock | .iterate _ => 2
  | .output | .thing | .declare | .run => 1
  | .stop | .pause => 0

section Inputs

variable {inputs : List Value}

theorem getD_append_of_lt {position : Nat} (hposition : position < inputs.length)
    (more : List Value) : (inputs ++ more).getD position .nil = inputs.getD position .nil := by
  rw [List.getD_eq_getElem?_getD, List.getElem?_append_left hposition,
    ← List.getD_eq_getElem?_getD]

variable [Segmentation]

/-- A native that has the inputs it takes by position takes no notice of others. -/
theorem World.runNative_append {action : Native} (hsome : action.takesAll = false)
    (hinputs : action.positions ≤ inputs.length) (more : List Value) :
    runNative action (inputs ++ more) = runNative action inputs := by
  have hfirst : 1 ≤ action.positions →
      (inputs ++ more).getD 0 .nil = inputs.getD 0 .nil :=
    fun hread => getD_append_of_lt (Nat.lt_of_lt_of_le hread hinputs) more
  have hsecond : 2 ≤ action.positions →
      (inputs ++ more).getD 1 .nil = inputs.getD 1 .nil :=
    fun hread => getD_append_of_lt (Nat.lt_of_lt_of_le hread hinputs) more
  have hthird : 3 ≤ action.positions →
      (inputs ++ more).getD 2 .nil = inputs.getD 2 .nil :=
    fun hread => getD_append_of_lt (Nat.lt_of_lt_of_le hread hinputs) more
  clear hinputs
  revert hsome
  cases action <;> simp (disch := decide) only [Native.takesAll, Bool.true_eq_false, false_implies,
    implies_true, runNative, hfirst, hsecond, hthird]

/-- The same of special forms. -/
theorem World.runSpecial_append {form : Special} (hinputs : form.positions ≤ inputs.length)
    (more : List Value) (continuation : Option Continuation) (finished : Option Value) :
    runSpecial form (inputs ++ more) continuation finished =
      runSpecial form inputs continuation finished := by
  have hfirst : 1 ≤ form.positions →
      (inputs ++ more).getD 0 .nil = inputs.getD 0 .nil :=
    fun hread => getD_append_of_lt (Nat.lt_of_lt_of_le hread hinputs) more
  have hsecond : 2 ≤ form.positions →
      (inputs ++ more).getD 1 .nil = inputs.getD 1 .nil :=
    fun hread => getD_append_of_lt (Nat.lt_of_lt_of_le hread hinputs) more
  have hthird : 3 ≤ form.positions →
      (inputs ++ more).getD 2 .nil = inputs.getD 2 .nil :=
    fun hread => getD_append_of_lt (Nat.lt_of_lt_of_le hread hinputs) more
  clear hinputs
  cases form with
  | iterate mode => rw [runSpecial, hfirst (Nat.le_succ 1), hsecond (Nat.le_refl 2), runSpecial]
  | _ => simp (disch := decide) only [runSpecial, hfirst, hsecond, hthird]

end Inputs

/-- A primitive has names for all inputs that it takes by position. -/
def Procedure.namesPositions (procedure : Procedure) : Bool :=
  match procedure.kind with
  | .native action => action.positions ≤ procedure.arity
  | .special form => form.positions ≤ procedure.arity
  | .userDefined => true

theorem all_standard_namesPositions :
    Procedures.standard.All fun procedure => procedure.namesPositions = true := by
  have hprimitives : primitives.all Procedure.namesPositions = true := by decide +kernel
  exact Procedures.All.foldl_define Procedures.all_empty (List.all_eq_true.mp hprimitives)

/-! ## Iterations -/

/-- An iteration that keeps all its values, and the position of the one that the template is running
for. -/
structure Sweep where
  values : List Value
  current : Nat
  /-- The results so far, the latest first. -/
  results : List Value
  /-- The values are the characters of a word. -/
  word : Bool

namespace Sweep

def value (sweep : Sweep) : Value :=
  sweep.values.getD sweep.current .nil

def access (sweep : Sweep) : Access :=
  .read sweep.current sweep.values.length

def state (sweep : Sweep) : IterationState where
  current := sweep.value
  pending := sweep.values.drop (sweep.current + 1)
  results := sweep.results
  word := sweep.word

end Sweep

inductive SweepStep where
  | done (value : Value)
  /-- The template is to be run for the value that the iteration has come to. -/
  | runs (program : List Value) (sweep : Sweep)

/-- The iteration that goes on after a step that has not failed. -/
def SweepStep.kept? : EStateM.Result RuntimeError World SweepStep → Option Sweep
  | .ok (.runs _ sweep) _ => some sweep
  | _ => none

def SweepStep.progress : SweepStep → Progress
  | .done value => .done value
  | .runs program sweep => .bounded program (.iterating sweep.state)

namespace World

/-- Runs the template for the value at the position, or ends the iteration if there is none. -/
def sweepOn (mode : Iteration) (template : ListHandle) (sweep : Sweep) : Action SweepStep :=
  if sweep.current < sweep.values.length then do
    let world ← get
    let program ← readText (realize (world.view (.list template)) (world.view sweep.value))
    return .runs (← placeLines program) sweep
  else do return .done (← iterationResult mode sweep.word sweep.results.reverse)

theorem nextIteration_eq_sweepOn (mode : Iteration) (template : ListHandle) (sweep : Sweep) :
    nextIteration mode template sweep.word sweep.results (sweep.values.drop sweep.current) =
      SweepStep.progress <$> sweepOn mode template sweep := by
  rw [sweepOn]
  split
  · rename_i hcurrent
    have hvalue : sweep.values[sweep.current] = sweep.value := by
      rw [Sweep.value, List.getD_eq_getElem?_getD, List.getElem?_eq_getElem hcurrent,
        Option.getD_some]
    rw [List.drop_eq_getElem_cons hcurrent, hvalue, nextIteration]
    simp only [map_bind, map_pure, SweepStep.progress, Sweep.state]
  · rename_i hcurrent
    rw [List.drop_eq_nil_of_le (Nat.not_lt.mp hcurrent), nextIteration]
    simp only [map_bind, map_pure, SweepStep.progress]

/-- An iteration goes on only at a position of its values. -/
theorem inRange_of_sweepOn (mode : Iteration) (template : ListHandle) (sweep : Sweep) :
    Yields (fun step => ∀ program next, step = .runs program next → next.access.InRange)
      (sweepOn mode template sweep) := by
  rw [sweepOn]
  split
  · rename_i hcurrent
    refine Yields.bind fun world => Yields.bind fun program => Yields.bind fun lines => ?_
    refine Yields.pure ?_
    intro program next hstep
    cases hstep
    exact hcurrent
  · refine Yields.bind fun value => Yields.pure ?_
    intro program next hstep
    cases hstep

variable [Segmentation]

/-- Goes on with an iteration after the run of the template for the value at its position. -/
def sweep (mode : Iteration) (template values : Value) (kept : Option Sweep)
    (finished : Option Value) : Action SweepStep := do
  let template ← expectList template
  match kept with
  | some sweep =>
    let result := finished.getD .nil
    let next := { sweep with current := sweep.current + 1 }
    match mode with
    | .map => sweepOn mode template { next with results := result :: sweep.results }
    | .filter =>
      if ← expectTruth template result then
        sweepOn mode template { next with results := sweep.value :: sweep.results }
      else sweepOn mode template next
    | .find =>
      if ← expectTruth template result then return .done sweep.value
      else sweepOn mode template next
  | none =>
    let (values, word) ← iterationValues values
    sweepOn mode template ⟨values, 0, [], word⟩

/-- The iteration of the machine, told by the position that it has come to. -/
theorem iterate_eq_sweep (mode : Iteration) (template values : Value) (kept : Option Sweep)
    (finished : Option Value) :
    iterate mode template values (kept.map fun sweep => .iterating sweep.state) finished =
      SweepStep.progress <$> sweep mode template values kept finished := by
  rw [iterate, sweep, map_bind]
  refine bind_congr fun template => ?_
  cases kept with
  | none =>
    dsimp only [Option.map_none]
    rw [map_bind]
    exact bind_congr fun result =>
      nextIteration_eq_sweepOn mode template ⟨result.1, 0, [], result.2⟩
  | some kept =>
    have hnext : ∀ results, nextIteration mode template kept.word results
        (kept.values.drop (kept.current + 1)) = SweepStep.progress <$>
          sweepOn mode template { kept with current := kept.current + 1, results } :=
      fun results => nextIteration_eq_sweepOn mode template
        { kept with current := kept.current + 1, results }
    dsimp only [Option.map_some, Sweep.state]
    cases mode with
    | map => exact hnext _
    | filter =>
      dsimp only
      rw [map_bind]
      refine bind_congr fun truth => ?_
      cases truth with
      | true => exact hnext _
      | false => exact hnext _
    | find =>
      dsimp only
      rw [map_bind]
      refine bind_congr fun truth => ?_
      cases truth with
      | true => rfl
      | false => exact hnext _

/-- A sweep reads only values that it has. -/
theorem inRange_of_sweep (mode : Iteration) (template values : Value) (kept : Option Sweep)
    (finished : Option Value) :
    Yields (fun step => ∀ program next, step = .runs program next → next.access.InRange)
      (sweep mode template values kept finished) := by
  rw [sweep]
  refine Yields.bind fun template => ?_
  cases kept with
  | none => exact Yields.bind fun result => inRange_of_sweepOn mode template _
  | some kept =>
    cases mode with
    | map => exact inRange_of_sweepOn _ template _
    | filter =>
      refine Yields.bind fun truth => ?_
      cases truth with
      | true => exact inRange_of_sweepOn _ template _
      | false => exact inRange_of_sweepOn _ template _
    | find =>
      refine Yields.bind fun truth => ?_
      cases truth with
      | true =>
        refine Yields.pure ?_
        intro program next hstep
        cases hstep
      | false => exact inRange_of_sweepOn _ template _

theorem inRange_of_kept? (mode : Iteration) (template values : Value) (kept : Option Sweep)
    (finished : Option Value) (world : World) :
    ∀ next ∈ SweepStep.kept? (sweep mode template values kept finished world),
      next.access.InRange := by
  intro next hnext
  cases hrun : sweep mode template values kept finished world with
  | error cause after =>
    rw [hrun] at hnext
    cases hnext
  | ok step after =>
    rw [hrun] at hnext
    cases step with
    | done value => cases hnext
    | runs program sweep =>
      cases hnext
      exact inRange_of_sweep mode template values kept finished world _ _ hrun _ _ rfl

end World

/-! ## Brackets -/

/-- What is taken off the bracket depth where a character of list text is read as a token. -/
def listAccesses (depth : Nat) (c : Char) : List Access :=
  if c = ']' then [.subtract 1 depth] else []

def scanAccesses (depth : Nat) (text : List Char) : List Access :=
  match text with
  | [] => []
  | c :: rest =>
    if isSkipped depth c then scanAccesses depth rest
    else if depth = 0 ∧ c = ';' then scanAccesses depth (rest.dropWhile (· != '\n'))
    else
      match lexeme depth c rest with
      | .error _ => []
      | .ok lexeme =>
        (if depth = 0 then [] else listAccesses depth c) ++
          scanAccesses lexeme.depth (rest.drop lexeme.tail.length)
termination_by text.length
decreasing_by
  · simp only [List.length_cons]; omega
  · have := (List.dropWhile_sublist (l := rest) (· != '\n')).length_le
    simp only [List.length_cons]; omega
  · simp only [List.length_cons, List.length_drop]; omega

/-- List text is read only inside of brackets, so that there is one to close. -/
theorem inRange_scanAccesses (depth : Nat) (text : List Char) :
    ∀ access ∈ scanAccesses depth text, access.InRange := by
  fun_induction scanAccesses depth text with
  | case1 => exact List.forall_mem_nil _
  | case2 _ _ _ _ ih => exact ih
  | case3 _ _ _ _ _ ih => exact ih
  | case4 => exact List.forall_mem_nil _
  | case5 depth c rest hskipped hcomment lexeme hlexeme ih =>
    refine List.forall_mem_append.mpr ⟨?_, ih⟩
    split
    · exact List.forall_mem_nil _
    · rename_i hdepth
      rw [listAccesses]
      split
      · exact List.forall_mem_singleton.mpr (Nat.one_le_iff_ne_zero.mpr hdepth)
      · exact List.forall_mem_nil _

end Logo
