import Logo.Program
import Logo.Proofs.Computation

/-!
# What the passes of a reading come to

A pass that fails leaves the table that it has reached, and a reading puts the first one back. So a
reading as a whole is a function of the text and the table that gives nothing at all if it fails,
and it is made up of such functions, one for each pass.
-/

namespace EStateM.Result

variable {ε σ α : Type}

/-- The value and the state, or the error alone. -/
def outcome : EStateM.Result ε σ α → Except ε (α × σ)
  | .ok value state => .ok (value, state)
  | .error cause _ => .error cause

end EStateM.Result

namespace Logo

theorem outcome_bind {ε σ α β : Type} (action : EStateM ε σ α) (next : α → EStateM ε σ β)
    (state : σ) :
    ((action >>= next) state).outcome =
      (action state).outcome >>= fun found => (next found.1 found.2).outcome := by
  rw [bind_apply]
  cases action state <;> rfl

theorem outcome_ofExcept {ε σ α : Type} (result : Except ε α) (state : σ) :
    ((ofExcept result : EStateM ε σ α) state).outcome = result.map fun value => (value, state) := by
  cases result <;> rfl

def enterHeaders (procedures : Procedures) : List Token → Except ParseError Procedures
  | [] => return procedures
  | ⟨.define, span⟩ :: rest =>
    match rest with
    | ⟨.symbol name, _⟩ :: after =>
      enterHeaders (procedures.define (.user name (takeParams after).1 [] none)) rest
    | _ => throw ⟨.missingProcedureName, span⟩
  | _ :: rest => enterHeaders procedures rest

def enterAliases (procedures : Procedures) : List Token → Except ParseError Procedures
  | [] => return procedures
  | token :: rest =>
    match aliasAt? (token :: rest) with
    | some (name, second) =>
      match procedures.nameAgain? name second with
      | some procedures => enterAliases procedures rest
      | none => throw ⟨.unknownProcedure name, token.span⟩
    | none => enterAliases procedures rest

def readLines (source : String) (finish : Span) (procedures : Procedures) (tokens : List Token) :
    Except ParseError (List Datum × Procedures) :=
  match hnext : skipNewlines tokens with
  | [] => return ([], procedures)
  | ⟨.define, opening⟩ :: inside => do
    have hinside : inside.length < tokens.length := length_lt_of_skipNewlines hnext
    let (procedure, ⟨rest, hrest⟩) ← readDefinition ⟨source, finish, procedures⟩ opening inside
    have : rest.length < tokens.length := length_lt_of_lt_of_lt hinside hrest
    let (lines, final) ← readLines source finish (procedures.define procedure) rest
    return (.procedure procedure :: lines, final)
  | next :: others => do
    let (line, ⟨rest, hrest⟩) ← readExpression ⟨source, finish, procedures⟩ (next :: others)
    have : rest.length < tokens.length :=
      length_lt_of_skipNewlines_of_lt hnext hrest
    let (lines, final) ← readLines source finish procedures rest
    return (line :: lines, final)
termination_by tokens.length
decreasing_by
  all_goals assumption

def readTokens (procedures : Procedures) (source : String) (scan : Scan) :
    Except ParseError (List Datum × Procedures) := do
  let procedures ← enterHeaders procedures scan.tokens
  let procedures ← enterAliases procedures scan.tokens
  readLines source scan.finish procedures scan.tokens

namespace Pass

/-- The pass over headers does what the reader does. -/
theorem outcome_headers (tokens : List Token) (procedures : Procedures) :
    (headers tokens procedures).outcome =
      (enterHeaders procedures tokens).map fun final => ((), final) := by
  fun_induction enterHeaders procedures tokens with
  | case1 => rfl
  | case2 procedures span name place after ih =>
    rw [headers, outcome_bind]
    exact ih
  | case3 procedures span rest hname =>
    rw [headers]
    · rfl
    · exact hname
  | case4 procedures token rest hdefine ih =>
    rw [headers, ih]
    exact hdefine

theorem outcome_aliases (tokens : List Token) (procedures : Procedures) :
    (aliases tokens procedures).outcome =
      (enterAliases procedures tokens).map fun final => ((), final) := by
  fun_induction enterAliases procedures tokens with
  | case1 => rfl
  | case2 procedures token rest name second halias named hnamed ih =>
    rw [aliases, halias]
    dsimp only
    rw [get_bind_apply, hnamed]
    exact ih
  | case3 procedures token rest name second halias hnamed =>
    rw [aliases, halias]
    dsimp only
    rw [get_bind_apply, hnamed]
    rfl
  | case4 procedures token rest halias ih => rw [aliases, halias, ih]

section Lines

variable {source : String} {finish : Span} {tokens rest : List Token} {next : Token}

theorem lines_of_nil (hnext : skipNewlines tokens = []) : lines source finish tokens = pure [] := by
  rw [lines.eq_def]
  split
  · rfl
  all_goals
    rename_i hother
    cases hnext.symm.trans hother

theorem lines_of_define (hnext : skipNewlines tokens = next :: rest)
    (hkind : next.kind = .define) :
    lines source finish tokens = (do
      let procedures ← get
      let definition ← ofExcept (readDefinition ⟨source, finish, procedures⟩ next.span rest)
      modify (·.define definition.1)
      let others ← lines source finish definition.2.val
      return .procedure definition.1 :: others) := by
  obtain ⟨kind, span⟩ := next
  subst hkind
  rw [lines.eq_def]
  split
  all_goals
    rename_i hother
    cases hnext.symm.trans hother
  · rfl
  · rename_i hnone
    exact absurd rfl (hnone _)

theorem lines_of_next (hnext : skipNewlines tokens = next :: rest) (hkind : next.kind ≠ .define) :
    lines source finish tokens = (do
      let procedures ← get
      let line ← ofExcept (readExpression ⟨source, finish, procedures⟩ (next :: rest))
      let others ← lines source finish line.2.val
      return line.1 :: others) := by
  rw [lines.eq_def]
  split
  all_goals
    rename_i hother
    cases hnext.symm.trans hother
  · exact absurd rfl hkind
  · rfl

end Lines

/-- The pass over the lines reads what the reader does. -/
theorem outcome_lines (source : String) (finish : Span) (tokens : List Token)
    (procedures : Procedures) :
    (lines source finish tokens procedures).outcome =
      readLines source finish procedures tokens := by
  fun_induction readLines source finish procedures tokens with
  | case1 procedures tokens hnext =>
    rw [lines_of_nil hnext]
    rfl
  | case2 procedures tokens opening inside hnext hinside ih =>
    rw [lines_of_define hnext rfl, get_bind_apply, outcome_bind, outcome_ofExcept]
    cases readDefinition ⟨source, finish, procedures⟩ opening inside with
    | error cause => rfl
    | ok definition =>
      obtain ⟨procedure, rest, hrest⟩ := definition
      change ((lines source finish rest >>= _) (procedures.define procedure)).outcome =
        readLines source finish (procedures.define procedure) rest >>= _
      rw [outcome_bind, ih procedure rest hrest]
      rfl
  | case3 procedures tokens next others hdefine hnext ih =>
    rw [lines_of_next hnext (fun hkind => ?_), get_bind_apply, outcome_bind, outcome_ofExcept]
    · cases readExpression ⟨source, finish, procedures⟩ (next :: others) with
      | error cause => rfl
      | ok found =>
        obtain ⟨line, rest, hrest⟩ := found
        change ((lines source finish rest >>= _) procedures).outcome =
          readLines source finish procedures rest >>= _
        rw [outcome_bind, ih rest hrest]
        rfl
    · exact hdefine next.span (by rw [← hkind])

/-- The passes together are the reader. -/
theorem outcome_program (source : String) (scan : Scan) (procedures : Procedures) :
    (program source scan procedures).outcome = readTokens procedures source scan := by
  rw [program, outcome_bind, outcome_headers, readTokens]
  cases enterHeaders procedures scan.tokens with
  | error cause => rfl
  | ok headed =>
    change ((aliases scan.tokens >>= _) headed).outcome = _
    rw [outcome_bind, outcome_aliases]
    change _ = enterAliases headed scan.tokens >>= _
    cases enterAliases headed scan.tokens with
    | error cause => rfl
    | ok named => exact outcome_lines source scan.finish scan.tokens named

theorem restoring_apply {α : Type} (pass : Pass α) (procedures : Procedures) :
    pass.restoring procedures =
      match pass procedures with
      | .ok value final => .ok value final
      | .error cause _ => .error cause procedures := by
  rw [restoring, get_bind_apply, tryCatch_apply]
  cases pass procedures <;> rfl

end Pass

theorem readProgram_of_scan {source : String} {scan : Scan} (hscan : Scan.ofSource source = .ok scan)
    (procedures : Procedures) :
    readProgram procedures source =
      (Pass.program source scan procedures).outcome.mapError .parse := by
  rw [readProgram, readSource, hscan]
  dsimp only
  rw [Pass.restoring_apply]
  cases Pass.program source scan procedures <;> rfl

theorem readProgram_eq (procedures : Procedures) (source : String) :
    readProgram procedures source = (do
      let scan ← (Scan.ofSource source).mapError .lex
      (readTokens procedures source scan).mapError .parse) := by
  cases hscan : Scan.ofSource source with
  | error cause =>
    rw [readProgram, readSource, hscan]
    rfl
  | ok scan =>
    rw [readProgram_of_scan hscan, Pass.outcome_program]
    rfl

/-- A reading that fails has put the table back. -/
theorem readSource_apply (source : String) (procedures : Procedures) :
    readSource source procedures =
      match readProgram procedures source with
      | .ok (program, final) => .ok program final
      | .error error => .error error procedures := by
  rw [readProgram, readSource]
  cases Scan.ofSource source with
  | error cause => rfl
  | ok scan =>
    dsimp only
    rw [Pass.restoring_apply]
    cases Pass.program source scan procedures <;> rfl

theorem World.readText_apply (text : String) (world : World) :
    readText text world =
      match readProgram world.environment.procedures text with
      | .ok (program, procedures) => .ok program (world.withProcedures procedures)
      | .error error => .error (.unreadableBlock error text) world := by
  rw [readText, readSource_apply]
  cases readProgram world.environment.procedures text <;> rfl

end Logo
