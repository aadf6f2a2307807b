import Logo.Proofs.AlikeTurns
import Logo.Proofs.Casing
import Logo.Proofs.Operations
import Logo.Text.Cluster
import Mathlib.Algebra.Ring.Nat

/-!
# The books of the machine

The machine keeps account of its frames in several places: each frame that is not of a special form
has a scope, each frame is counted under the name of its procedure, and the frames that bounded
runs have put aside are counted together. The accounts are changed one at a time, and a frame can
be taken off the stack before its entries are removed. So the accounts are stated together with the
frames that are still to be released, and they agree with the stacks when there are none.
-/

namespace Logo

def Procedure.HasSmallName (procedure : Procedure) : Prop :=
  Text.lowercase procedure.name = procedure.name

theorem definable_hasSmallName : Definable Procedure.HasSmallName :=
  fun name _ _ _ => Text.lowercase_lowercase name

theorem all_standard_hasSmallName : Procedures.standard.All Procedure.HasSmallName := by
  have hnames : primitives.all (fun procedure =>
      Text.lowercase procedure.name == procedure.name) = true := by decide +kernel
  exact Procedures.All.foldl_define Procedures.all_empty fun procedure hprocedure =>
    beq_iff_eq.mp (List.all_eq_true.mp hnames procedure hprocedure)

def countNamed (definitions : List Procedure) (name : String) : Option Nat :=
  match (definitions.map (·.name)).count name with
  | 0 => none
  | count + 1 => some (count + 1)

/-- The scopes and the counts are those of calls of the given procedures, the innermost first. -/
structure Accounts (environment : Environment) (active : NameTable Nat)
    (definitions : List Procedure) : Prop where
  scopes : environment.scopeNames =
    (definitions.filter (!·.isSpecial)).map (·.name) ++ ["global"]
  active : ∀ name, active.get? name = countNamed definitions name

namespace Accounts

variable {environment : Environment} {active : NameTable Nat} {definitions : List Procedure}
  {definition : Procedure}

/-- A call adds a scope, unless it is of a special form, and one to the count of its name. -/
theorem enter (haccounts : Accounts environment active definitions)
    (hname : definition.HasSmallName) :
    Accounts
      (if definition.isSpecial then environment else environment.push (.new definition.name))
      (active.insert definition.name ((active.get? definition.name).getD 0 + 1))
      (definition :: definitions) where
  scopes := by
    cases hspecial : definition.isSpecial with
    | true => simpa [hspecial] using haccounts.scopes
    | false =>
      have hscopes := haccounts.scopes
      have hnew : (Scope.new definition.name).name = definition.name := hname
      simp only [Environment.scopeNames] at hscopes
      simp [hspecial, Environment.push, Environment.scopeNames, hnew, hscopes]
  active name := by
    rw [NameTable.get?_insert, haccounts.active, haccounts.active]
    simp only [countNamed, List.map_cons, List.count_cons, beq_iff_eq]
    by_cases hname : name = definition.name
    · subst hname
      cases (definitions.map (·.name)).count definition.name <;> simp
    · simp [hname, Ne.symm hname]

/-- The end of a call takes back what the call has added. -/
theorem leave (haccounts : Accounts environment active (definition :: definitions)) :
    Accounts
      (if definition.isSpecial then environment else environment.pop)
      (Machine.discount active definition.name) definitions where
  scopes := by
    have hscopes := haccounts.scopes
    cases hspecial : definition.isSpecial with
    | true => simpa [hspecial] using hscopes
    | false =>
      simp only [Environment.scopeNames] at hscopes
      simp only [Environment.pop, Environment.scopeNames]
      cases hinner : environment.inner with
      | nil => simp [hinner, hspecial] at hscopes
      | cons scope outer =>
        rw [hinner, List.filter_cons_of_pos (by simp [hspecial])] at hscopes
        exact (List.cons.inj hscopes).2
  active name := by
    have hown := haccounts.active definition.name
    have hother := haccounts.active name
    simp only [countNamed, List.map_cons, List.count_cons_self] at hown
    rw [Machine.discount, hown]
    simp only [countNamed, List.map_cons, List.count_cons, beq_iff_eq] at hother
    simp only [Nat.add_sub_cancel, countNamed]
    by_cases hname : name = definition.name
    · subst hname
      cases (definitions.map (·.name)).count definition.name <;> simp
    · rw [if_neg (Ne.symm hname), Nat.add_zero] at hother
      rw [← hother]
      split
      · rw [NameTable.get?_erase, if_neg hname]
      · rw [NameTable.get?_insert, if_neg hname]

end Accounts

/-- A segment whose top frame waits for a bounded run: it is of a special form and not over. -/
def Segment.Waits (segment : Segment) : Prop :=
  ∃ frame, segment.frames.top? = some frame ∧ frame.definition.isSpecial = true ∧
    frame.evaluated = false

/-- The accounts of the machine agree with its frames, and with those frames besides that have been
taken off the stack and are still to be released. -/
structure Books (maxDepth : Nat) (machine : Machine) (loose : List Frame) : Prop where
  accounts : Accounts machine.world.environment machine.active
    ((loose ++ machine.allFrames).map (·.definition))
  suspended : machine.suspended = (machine.bounded.map (·.frames.size)).sum
  maxDepth_eq : machine.maxDepth = maxDepth
  depth : machine.depth ≤ maxDepth
  saved : ∀ segment ∈ machine.bounded, segment.Waits
  names : machine.world.environment.procedures.All Procedure.HasSmallName

namespace Books

variable {maxDepth : Nat} {machine : Machine} {loose : List Frame}

/-! ## Changes that the books do not show -/

section

variable (hbooks : Books maxDepth machine loose)

include hbooks

theorem world {world : World}
    (hscopes : world.environment.scopeNames = machine.world.environment.scopeNames)
    (hnames : world.environment.procedures.All Procedure.HasSmallName) :
    Books maxDepth { machine with world } loose where
  accounts := ⟨hscopes.trans hbooks.accounts.scopes, hbooks.accounts.active⟩
  suspended := hbooks.suspended
  maxDepth_eq := hbooks.maxDepth_eq
  depth := hbooks.depth
  saved := hbooks.saved
  names := hnames

theorem action {α : Type} {action : Action α} (haction : Orderly action) :
    Books maxDepth { machine with world := (action machine.world).state } loose :=
  hbooks.world (haction.scopes _ machine.world rfl)
    (haction.procedures definable_hasSmallName machine.world hbooks.names)

theorem note (level : LogLevel) (message : Machine → String) :
    Books maxDepth (machine.note level message) loose := by
  rw [Machine.note_eq]
  exact hbooks.world rfl hbooks.names

/-- A frame is known to the books by its procedure only. -/
theorem replaceTop {frame other : Frame} (htop : machine.frames.top? = some frame)
    (hsame : other.definition = frame.definition) :
    Books maxDepth { machine with frames := machine.frames.replaceTop other } loose where
  accounts := by
    have haccounts := hbooks.accounts
    rw [Machine.allFrames, Stack.eq_push_of_top? htop, Stack.toList_push] at haccounts
    rw [Machine.allFrames, Stack.eq_push_of_top? htop, Stack.replaceTop_push, Stack.toList_push]
    simpa [hsame] using haccounts
  suspended := hbooks.suspended
  maxDepth_eq := hbooks.maxDepth_eq
  depth := hbooks.depth
  saved := hbooks.saved
  names := hbooks.names

/-- What is still to be run, and whether it is run now, is not in the books. -/
theorem set (program : List Value) (lastResult : Value) (paused : Bool) :
    Books maxDepth { machine with program, lastResult, paused } loose :=
  ⟨hbooks.accounts, hbooks.suspended, hbooks.maxDepth_eq, hbooks.depth, hbooks.saved, hbooks.names⟩

theorem pause : Books maxDepth machine.pause loose := by
  rw [Machine.pause]
  split
  · exact hbooks.set _ _ _
  · exact (hbooks.note _ _).set _ _ _

end

/-! ## Calls begin and end -/

section

variable (hbooks : Books maxDepth machine [])

include hbooks

/-- A call may start where the depth allows it and the procedure is known by a small name. -/
theorem enter {definition : Procedure} (hname : definition.HasSmallName)
    (hdepth : machine.depth < maxDepth) (call : Call) :
    Books maxDepth (machine.enter call definition) [] := by
  rw [machine.enter_eq]
  refine ⟨hbooks.accounts.enter hname, hbooks.suspended, hbooks.maxDepth_eq, ?_, hbooks.saved, ?_⟩
  · have hsize : machine.depth + 1 ≤ maxDepth := hdepth
    simp only [Machine.depth, Stack.size_push] at hsize ⊢
    omega
  · cases definition.isSpecial with
    | true => exact hbooks.names
    | false => exact hbooks.names

/-- A call is entered in the books. -/
theorem schedule (call : Call) : Books maxDepth (Machine.schedule call machine).state [] := by
  rw [Machine.schedule_apply]
  cases hfind : machine.world.environment.procedures.find? call.name with
  | none => exact hbooks
  | some definition =>
    dsimp only
    split
    · exact hbooks
    · rename_i hdepth
      rw [hbooks.maxDepth_eq, Nat.not_le] at hdepth
      exact hbooks.enter (hbooks.names call.name definition hfind) hdepth call

/-- Frames that are taken off the stack are still to be released. -/
theorem drop (count : Nat) : Books maxDepth { machine with frames := machine.frames.drop count }
      (machine.frames.toList.take count) where
  accounts := by
    have haccounts := hbooks.accounts
    rw [Machine.allFrames, List.nil_append, ← List.take_append_drop count machine.frames.toList,
      List.append_assoc] at haccounts
    exact haccounts
  suspended := hbooks.suspended
  maxDepth_eq := hbooks.maxDepth_eq
  depth := by
    have hsize : (machine.frames.drop count).size ≤ machine.frames.size := Nat.sub_le _ _
    exact Nat.le_trans (Nat.add_le_add_right hsize _) hbooks.depth
  saved := hbooks.saved
  names := hbooks.names

theorem pop {frame : Frame} (htop : machine.frames.top? = some frame) :
    Books maxDepth { machine with frames := machine.frames.pop } [frame] := by
  have hdrop := hbooks.drop 1
  rw [Stack.eq_push_of_top? htop] at hdrop ⊢
  exact hdrop

end

theorem release {frame : Frame} (hbooks : Books maxDepth machine (frame :: loose)) :
    Books maxDepth (machine.release frame) loose := by
  rw [Machine.release_eq]
  refine ⟨hbooks.accounts.leave, hbooks.suspended, hbooks.maxDepth_eq, hbooks.depth, hbooks.saved,
    ?_⟩
  cases frame.definition.isSpecial with
  | true => exact hbooks.names
  | false => exact hbooks.names

theorem abandon {frames : List Frame} {rest : Stack Frame}
    (hbooks : Books maxDepth { machine with frames := rest } frames) :
    Books maxDepth (machine.abandon frames rest) [] := by
  rw [Machine.abandon]
  generalize { machine with frames := rest } = start at hbooks
  induction frames generalizing start with
  | nil => exact hbooks
  | cons frame frames ih =>
    rw [List.foldl_cons]
    exact ih _ (hbooks.note _ _).release

section

variable (hbooks : Books maxDepth machine [])

include hbooks

theorem abandonAll : Books maxDepth (machine.abandon machine.frames.toList .empty) [] := by
  have hdrop := hbooks.drop machine.frames.toList.length
  have hempty : machine.frames.drop machine.frames.toList.length = .empty :=
    Stack.ext List.drop_length
  rw [List.take_length, hempty] at hdrop
  exact hdrop.abandon

theorem deliver (value : Value) : Books maxDepth (machine.deliver value) [] := by
  rw [Machine.deliver]
  split
  · rename_i parent htop
    apply hbooks.replaceTop htop
    rw [Frame.receive]
    split <;> rfl
  · exact hbooks

theorem unschedule : Books maxDepth machine.unschedule.2 [] := by
  rw [Machine.unschedule]
  split
  · exact hbooks
  · rename_i frame htop
    exact (((hbooks.pop htop).release.note _ _).deliver _).set _ _ _

/-! ## Bounded runs -/

theorem beginBounded (program : List Value)
    (hwaits : Segment.Waits ⟨machine.frames, machine.program⟩) :
    Books maxDepth (machine.beginBounded program) [] := by
  rw [Machine.beginBounded, Machine.note_eq]
  refine ⟨?_, ?_, hbooks.maxDepth_eq, ?_, List.forall_mem_cons.mpr ⟨hwaits, hbooks.saved⟩,
    hbooks.names⟩
  · exact hbooks.accounts
  · rw [List.map_cons, List.sum_cons, hbooks.suspended, Nat.add_comm]
  · have hdepth := hbooks.depth
    simp only [Machine.depth] at hdepth ⊢
    rw [Nat.add_comm] at hdepth
    exact Nat.le_trans (Nat.le_of_eq (Nat.zero_add _)) hdepth

/-- The books agree when a run is taken up again. -/
theorem restore {saved : Segment} {outer : List Segment} (hempty : machine.frames = .empty)
    (hbounded : machine.bounded = saved :: outer) :
    Books maxDepth (machine.restore saved outer) [] := by
  have hsuspended := hbooks.suspended
  have hdepth := hbooks.depth
  have hsaved := hbooks.saved
  rw [hbounded] at hsuspended hsaved
  rw [List.map_cons, List.sum_cons] at hsuspended
  rw [Machine.depth, hempty] at hdepth
  refine ⟨?_, ?_, hbooks.maxDepth_eq, ?_, (List.forall_mem_cons.mp hsaved).2, hbooks.names⟩
  · have haccounts := hbooks.accounts
    rw [Machine.allFrames, hempty, hbounded] at haccounts
    exact haccounts
  · simp only [Machine.restore]
    omega
  · simp only [Machine.depth, Machine.restore]
    omega

theorem endBounded {saved : Segment} {outer : List Segment} (hempty : machine.frames = .empty)
    (hbounded : machine.bounded = saved :: outer) :
    Books maxDepth (machine.endBounded saved outer) [] := by
  have hrestored : ∀ message,
      Books maxDepth ((machine.note .debug message).restore saved outer) [] := by
    intro message
    apply (hbooks.note .debug message).restore
    · rw [Machine.note_eq]
      exact hempty
    · rw [Machine.note_eq]
      exact hbounded
  rw [Machine.endBounded]
  split
  · rename_i frame htop
    exact (hrestored _).replaceTop htop rfl
  · exact hrestored _

/-- An output strikes the calls that it ends off the books. -/
theorem outputThrough (value : Value) {segments : List Segment}
    (hbounded : machine.bounded = segments) :
    Books maxDepth (machine.outputThrough value segments) [] := by
  refine Machine.outputThrough_keeps (Books maxDepth · []) (Books maxDepth · [])
    (fun level message hbooks => hbooks.note level message) ?_ ?_ id hbounded hbooks
  · intro machine saved outer hbounded hbooks
    obtain ⟨world, active, habandon⟩ := machine.exists_abandon_eq machine.frames.toList .empty
    have hall := hbooks.abandonAll
    rw [habandon] at hall ⊢
    exact hall.restore rfl hbounded
  · intro machine above target rest hsplit hbooks
    have hdrop := hbooks.drop above.length
    rw [hsplit, List.take_left] at hdrop
    exact abandon (hdrop.replaceTop (Stack.top?_drop_of_append hsplit) rfl)

/-! ## Steps -/

theorem advanceProgram (htop : machine.frames.top? = none) :
    Books maxDepth (Machine.advanceProgram machine).state [] := by
  rw [Machine.advanceProgram_apply]
  split
  · exact (hbooks.set _ _ _).schedule _
  · exact hbooks.set _ _ _
  · exact ((hbooks.set _ _ _).note _ _).set _ _ _
  · exact hbooks.set _ _ _
  · split
    · rename_i hbounded
      exact hbooks.endBounded (Stack.eq_empty_of_top? htop) hbounded
    · exact hbooks

variable [Segmentation]

/-- A call that is under way keeps the books. -/
theorem turn {frame : Frame} (htop : machine.frames.top? = some frame)
    (hopen : frame.evaluated = false) :
    Books maxDepth (machine.make (Forms.standard.turn frame machine.world)).state [] := by
  have hof := Forms.standard.turn_of frame machine.world
  have hcases := Forms.standard.turn_cases frame machine.world
  have hscopes := Forms.keeps_turn World.orderly_runSpecial
    (Environment.stable_scopeNames machine.world.environment.scopeNames) rfl frame
  have hnames := Forms.keeps_turn World.orderly_runSpecial
    (Environment.stable_all definable_hasSmallName) hbooks.names frame
  generalize Forms.standard.turn frame machine.world = turn at hof hcases hscopes hnames ⊢
  have hnext : Books maxDepth (machine.withTop turn.frame turn.world) [] :=
    (hbooks.world hscopes hnames).replaceTop htop hof.definition
  rw [Machine.make]
  cases hmove : turn.move with
  | stay => exact hnext
  | fail cause => exact hnext
  | call site => exact hnext.schedule site
  | output value => exact hnext.outputThrough value rfl
  | pause => exact hnext.pause
  | bounded program =>
    rw [hmove] at hcases
    obtain hplain | ⟨form, hkind, -⟩ := hcases
    · exact hplain.elim
    · refine hnext.beginBounded program ⟨turn.frame, Stack.top?_replaceTop htop _, ?_, ?_⟩
      · rw [hof.definition, Procedure.isSpecial, hkind]
      · rw [hof.evaluated (by rw [hmove]; trivial), hopen]

theorem step : Books maxDepth (Machine.step machine).state [] := by
  obtain ⟨htop, hstep⟩ | ⟨frame, htop, ⟨-, hstep⟩ | ⟨hopen, hstep⟩⟩ := machine.step_cases
  · rw [hstep]
    exact hbooks.advanceProgram htop
  · rw [hstep]
    exact hbooks.unschedule
  · rw [hstep]
    exact hbooks.turn htop hopen

end

/-! ## Operations -/

theorem reset (hbooks : Books maxDepth machine []) : Books maxDepth machine.reset [] where
  accounts := by
    have hglobal := (List.append_inj' hbooks.accounts.scopes rfl).2
    exact ⟨hglobal, fun name => rfl⟩
  suspended := rfl
  maxDepth_eq := hbooks.maxDepth_eq
  depth := Nat.zero_le _
  saved := by
    intro segment hsegment
    cases hsegment
  names := hbooks.names

theorem readProgramList (hbooks : Books maxDepth machine []) (source : String) :
    Books maxDepth (Machine.readProgramList source machine).state [] := by
  obtain ⟨error, -, hread⟩ | ⟨program, procedures, hprogram, hread⟩ :=
    Machine.readProgramList_cases source machine
  · rw [hread]
    exact hbooks
  · rw [hread]
    exact hbooks.world rfl (all_of_readProgram definable_hasSmallName hbooks.names hprogram)

theorem new (maxDepth : Nat) (console : Console) (log : Log) :
    Books maxDepth (.new maxDepth console log) [] where
  accounts := ⟨rfl, fun name => rfl⟩
  suspended := rfl
  maxDepth_eq := rfl
  depth := Nat.zero_le _
  saved := by
    intro segment hsegment
    cases hsegment
  names := all_standard_hasSmallName

theorem scopeNames_eq (hbooks : Books maxDepth machine []) :
    machine.world.environment.inner.map (·.name) =
        (machine.allFrames.filter (!·.definition.isSpecial)).map (·.definition.name) ∧
      machine.world.environment.global.name = "global" := by
  obtain ⟨hinner, hglobal⟩ := List.append_inj' hbooks.accounts.scopes rfl
  refine ⟨?_, (List.cons.inj hglobal).1⟩
  rw [hinner, List.nil_append, List.filter_map, List.map_map]
  rfl

/-- The frames are as many as the depth says. -/
theorem length_allFrames (hbooks : Books maxDepth machine []) :
    machine.allFrames.length = machine.depth := by
  have hsaved : ∀ segments : List Segment, (segments.flatMap (·.frames.toList)).length =
      (segments.map (·.frames.size)).sum := by
    intro segments
    simp only [List.length_flatMap, Stack.size_eq]
  rw [Machine.allFrames, List.length_append, hsaved, ← hbooks.suspended, ← Stack.size_eq]
  rfl

variable [Segmentation]

theorem lasting (maxDepth : Nat) : Lasting (Books maxDepth · []) where
  tick := Machine.keeps_tick _ fun _ hbooks => hbooks.step
  note := note
  set := set

/-- The books agree, whatever is done. -/
theorem perform (hbooks : Books maxDepth machine []) (operation : Operation) :
    Books maxDepth (machine.perform operation) [] := by
  cases operation with
  | read source => exact hbooks.readProgramList source
  | place datum => exact hbooks.world rfl hbooks.names
  | load program => exact (lasting maxDepth).load hbooks program
  | run fuel program => exact (lasting maxDepth).run hbooks fuel program
  | resume fuel => exact (lasting maxDepth).resume hbooks fuel
  | pause => exact (lasting maxDepth).pause hbooks
  | tick => exact (lasting maxDepth).tick machine hbooks
  | schedule call => exact hbooks.schedule call
  | unschedule => exact hbooks.unschedule
  | reset => exact hbooks.reset

/-- The books agree on every machine that can be met. -/
theorem performAll (maxDepth : Nat) (console : Console) (log : Log) (operations : List Operation) :
    Books maxDepth ((Machine.new maxDepth console log).performAll operations) [] := by
  apply Machine.performAll_keeps (Books maxDepth · []) (fun _ => True)
  · exact fun machine operation _ hmachine => hmachine.perform operation
  · exact fun _ _ => trivial
  · exact Books.new maxDepth console log

end Books

theorem Machine.allFrames_of_idle {machine : Machine} (hidle : machine.hasWork = false) :
    machine.allFrames = [] := by
  obtain ⟨hframes, _, hbounded⟩ := hasWork_eq_false_iff.mp hidle
  rw [allFrames, hframes, hbounded]
  rfl

section

variable [Segmentation]

/-- On every machine that can be met, after any operations and whether or not they have failed, the
scopes above the global one are those of the calls that are not of special forms, the counts are
those of the frames and of the frames put aside, no more calls are active than may be, and every
bounded run is waited for by a special form that is not over. A run that comes to its end leaves the
global scope alone. -/
theorem Machine.accounts_agree_with_frames (maxDepth : Nat) (console : Console) (log : Log)
    (operations : List Operation) :
    let machine := (Machine.new maxDepth console log).performAll operations
    (machine.world.environment.inner.map (·.name) =
        (machine.allFrames.filter (!·.definition.isSpecial)).map (·.definition.name) ∧
      machine.world.environment.global.name = "global") ∧
    machine.suspended = (machine.bounded.map (·.frames.size)).sum ∧
    (∀ name, machine.active.get? name =
      countNamed (machine.allFrames.map (·.definition)) name) ∧
    (machine.depth ≤ maxDepth ∧ machine.backtrace.length = machine.depth) ∧
    (∀ segment ∈ machine.bounded, segment.Waits) ∧
    ∀ fuel program value final, run fuel program machine = .ok (some value) final →
      final.paused = false → final.world.environment.inner = [] := by
  intro machine
  have hbooks : Books maxDepth machine [] := Books.performAll maxDepth console log operations
  refine ⟨hbooks.scopeNames_eq, hbooks.suspended, hbooks.accounts.active, ⟨hbooks.depth, ?_⟩,
    hbooks.saved, ?_⟩
  · rw [backtrace, List.length_map, hbooks.length_allFrames]
  · intro fuel program value final hrun hpaused
    have hfinal := (Books.lasting maxDepth).run hbooks fuel program
    rw [hrun] at hfinal
    rw [← Forms.run_standard, Forms.run] at hrun
    have hidle : final.hasWork = false := by
      cases (Forms.ended_of_drive hrun).2 with
      | inl hstopped => rw [hpaused] at hstopped; cases hstopped
      | inr hidle => exact hidle
    have hscopes := hfinal.scopeNames_eq.1
    rw [EStateM.Result.state_ok, allFrames_of_idle hidle] at hscopes
    exact List.map_eq_nil_iff.mp hscopes

end

open scoped Graphemes

/-- The machine is in a block of `f` when `f` is called once more. -/
theorem Machine.accounts_agree_after_block :
    let machine := (Machine.new 10 (.new []) (.new none)).performAll
      [.read "to f :a\nrepeat 2 [print :a]\nend\nf 5", .run 9 (.list ⟨0, none⟩)]
    let call : Call := ⟨"f", [.atom (.number (.integer 7))], .nowhere⟩
    machine.backtrace = ["thing", "print", "repeat", "f"] ∧
      ∃ value final, run 99 (.call call) machine = .ok (some value) final ∧
        final.paused = false ∧ final.world.console.output = "5\n5\n7\n7\n" ∧
        final.world.environment.inner = [] := by
  intro machine call
  have hfacts : (machine.backtrace = ["thing", "print", "repeat", "f"] ∧
      (run 99 (.call call) machine).answer.toOption.join.isSome = true) ∧
      (run 99 (.call call) machine).state.paused = false ∧
      (run 99 (.call call) machine).state.world.console.output = "5\n5\n7\n7\n" := by
    decide +kernel
  obtain ⟨⟨hframes, hvalue⟩, hrunning, hprinted⟩ := hfacts
  have hscopes := (accounts_agree_with_frames 10 (.new []) (.new none)
    [.read "to f :a\nrepeat 2 [print :a]\nend\nf 5", .run 9 (.list ⟨0, none⟩)]).2.2.2.2.2
  cases hresult : run 99 (.call call) machine with
  | error cause final =>
    rw [hresult] at hvalue
    cases hvalue
  | ok value final =>
    rw [hresult] at hvalue hrunning hprinted
    cases value with
    | none => cases hvalue
    | some value =>
      exact ⟨hframes, value, final, rfl, hrunning, hprinted, hscopes _ _ _ _ hresult hrunning⟩

end Logo
