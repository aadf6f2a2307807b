import Logo.Proofs.Bookkeeping
import Logo.Proofs.Guises
import Logo.Text.Cluster

/-!
# The bound on active frames

A machine looks at the bound on its active frames in one place only: when a call is to start and
there are already as many frames as may be. So two machines that differ in the bound alone take the
same steps, up to the first call that the smaller bound does not let start.
-/

namespace Logo

namespace Machine

variable {cause : RuntimeError} {after : Machine}

def within (machine : Machine) (bound : Nat) : Machine :=
  { machine with maxDepth := bound }

section Within

variable (machine : Machine) (bound : Nat)

@[simp]
theorem depth_within : (machine.within bound).depth = machine.depth := rfl

@[simp]
theorem within_within (other : Nat) : (machine.within other).within bound = machine.within bound :=
  rfl

variable [Segmentation]

def limiting : Guise :=
  { Disguise.same.plain with maxDepth := fun _ => bound }

theorem wears_within : (limiting bound).Wears machine (machine.within bound) :=
  .intro rfl rfl

theorem eq_within {bound : Nat} {first second : Machine}
    (hwears : (limiting bound).Wears first second) : second = first.within bound := by
  cases hwears with
  | intro hworld hactive =>
    cases congrArg World.log hworld
    cases hactive
    rfl

theorem noteError_within (cause : RuntimeError) :
    (machine.within bound).noteError cause = (machine.noteError cause).within bound :=
  eq_within ((machine.wears_within bound).note .warn rfl)

theorem enter_within (call : Call) (definition : Procedure) :
    (machine.within bound).enter call definition =
      (machine.enter call definition).within bound :=
  eq_within ((machine.wears_within bound).enter call definition)

end Within

/-! ## Steps -/

/-- What a step from this depth does under each bound: the bound makes no difference, or the step
comes down to the start of a call. -/
inductive StepsWithin (depth : Nat) (results : Nat → EStateM.Result RuntimeError Machine Unit) :
    Prop where
  | ends (after : Machine) (hresults : ∀ bound, results bound = .ok () (after.within bound))
  | fails (cause : RuntimeError) (after : Machine)
      (hcause : ∀ name depth, cause ≠ .tooDeep name depth)
      (hresults : ∀ bound, results bound = .error cause (after.within bound))
  | starts (call : Call) (before : Machine) (hdepth : before.depth = depth)
      (hresults : ∀ bound, results bound = schedule call (before.within bound))

/-- How a call starts under each bound. -/
theorem schedule_within (call : Call) (machine : Machine) (limit : Nat) :
    schedule call (machine.within limit) =
      match machine.world.environment.procedures.find? call.name with
      | none => .error (.unknownProcedure call.name) (machine.within limit)
      | some definition =>
        if limit ≤ machine.depth then
          .error (.tooDeep definition.name machine.depth) (machine.within limit)
        else .ok () ((machine.within limit).enter call definition) :=
  schedule_apply call (machine.within limit)

variable [Segmentation]

theorem stepsWithin_advanceProgram (machine : Machine) :
    StepsWithin machine.depth fun bound => advanceProgram (machine.within bound) := by
  have hprogram : ∀ bound, (machine.within bound).program = machine.program := fun _ => rfl
  have hbounded : ∀ bound, (machine.within bound).bounded = machine.bounded := fun _ => rfl
  simp only [advanceProgram_apply, hprogram, hbounded]
  cases machine.program with
  | nil =>
    cases machine.bounded with
    | nil => exact .ends machine fun bound => rfl
    | cons saved outer =>
      refine .ends (machine.endBounded saved outer) fun bound => ?_
      exact congrArg (EStateM.Result.ok ())
        (eq_within ((machine.wears_within bound).endBounded saved outer))
  | cons line program =>
    cases line with
    | call site => exact .starts site { machine with program } rfl fun bound => rfl
    | procedure definition =>
      refine .ends { ({ machine with program }.note .debug fun _ =>
        "defined " ++ definition.header) with lastResult := .none } fun bound => ?_
      simp only [note_apply]
      rfl
    | list handle =>
      exact .ends { machine with program, lastResult := .list handle } fun bound => rfl
    | atom value =>
      cases value with
      | symbol name =>
        exact .fails (.unknownProcedure name) { machine with program } (by simp)
          fun bound => rfl
      | number _ | boolean _ | quote _ | nil | none =>
        exact .ends { machine with program, lastResult := .atom _ } fun bound => rfl

theorem stepsWithin_make (machine : Machine) {turn : Turn}
    (hcause : ∀ cause, turn.move = .fail cause → ∀ name depth, cause ≠ .tooDeep name depth) :
    StepsWithin machine.depth fun bound => (machine.within bound).make turn := by
  let next := machine.withTop turn.frame turn.world
  have hends : ∀ {after : Machine} {others : Nat → Machine},
      (∀ bound, (limiting bound).Wears after (others bound)) →
      StepsWithin machine.depth fun bound => .ok () (others bound) := fun hwears =>
    .ends _ fun bound => congrArg (EStateM.Result.ok ()) (eq_within (hwears bound))
  have hwears := fun bound => next.wears_within bound
  simp only [make]
  cases hmove : turn.move with
  | stay => exact hends hwears
  | fail cause => exact .fails cause next (hcause cause hmove) fun bound => rfl
  | call site => exact .starts site next rfl fun bound => rfl
  | output value => exact hends fun bound => (hwears bound).output value (.inl rfl)
  | pause => exact hends fun bound => (hwears bound).pause rfl
  | bounded program => exact hends fun bound => (hwears bound).beginBounded program

/-- A call that is at work does not itself fail for too many calls. -/
theorem ne_tooDeep_of_turn {frame : Frame} {world : World}
    (hmove : (Forms.standard.turn frame world).move = .fail cause) (name : String) (depth : Nat) :
    cause ≠ .tooDeep name depth := by
  rw [Forms.turn] at hmove
  split at hmove
  · rw [Frame.takeInput] at hmove
    split at hmove <;> cases hmove
  · split at hmove
    · cases hmove
      simp
    · dsimp only at hmove
      cases hkind : frame.definition.kind with
      | native action =>
        rw [hkind] at hmove
        dsimp only at hmove
        cases hrun : World.runNative action frame.arguments
            ((world.prepared frame).traced frame.definition) with
        | ok value after =>
          rw [hrun] at hmove
          cases hmove
        | error cause after =>
          rw [hrun] at hmove
          cases hmove
          exact ((World.orderly_runNative _ _).faults hrun).ne_tooDeep name depth
      | special form =>
        rw [hkind] at hmove
        dsimp only at hmove
        cases hrun : Forms.standard form frame.arguments frame.continuation frame.result
            (world.prepared frame) with
        | ok progress after =>
          rw [hrun] at hmove
          cases progress <;> cases hmove
        | error cause after =>
          rw [hrun] at hmove
          cases hmove
          exact ((World.orderly_runSpecial _ _ _ _).faults hrun).ne_tooDeep name depth
      | userDefined =>
        rw [hkind] at hmove
        dsimp only at hmove
        rw [Frame.takeLine] at hmove
        dsimp only at hmove
        split at hmove <;> cases hmove
        simp

/-- A step does not depend on the bound, or it starts a call. -/
theorem stepsWithin_step (machine : Machine) :
    StepsWithin machine.depth fun bound => step (machine.within bound) := by
  have hframes : ∀ bound, (machine.within bound).frames = machine.frames := fun _ => rfl
  cases htop : machine.frames.top? with
  | none =>
    simp only [step, hframes, htop]
    exact stepsWithin_advanceProgram machine
  | some frame =>
    cases hevaluated : frame.evaluated with
    | true =>
      simp only [step, hframes, htop, hevaluated, if_true]
      refine .ends machine.unschedule.2 fun bound => ?_
      exact congrArg (EStateM.Result.ok ()) (eq_within (machine.wears_within bound).unschedule)
    | false =>
      have hstep : ∀ bound, step (machine.within bound) =
          (machine.within bound).make (Forms.standard.turn frame machine.world) :=
        fun bound => step_of_open htop hevaluated
      simp only [hstep]
      exact stepsWithin_make machine fun cause => ne_tooDeep_of_turn

variable {bound larger : Nat} {machine : Machine}

def SameTick (bound larger : Nat) (machine : Machine) : Prop :=
  ∃ result : EStateM.Result RuntimeError Machine Bool,
    tick (machine.within bound) = result.mapState (·.within bound) ∧
      tick (machine.within larger) = result.mapState (·.within larger)

/-- The smaller bound does not let the call start that starts under the larger one. -/
structure CutAt (bound larger : Nat) (machine : Machine) (name : String) (after : Machine) :
    Prop where
  reached : bound ≤ machine.depth
  depth_eq : after.depth = machine.depth
  fails : tick (machine.within bound) = .error (.tooDeep name machine.depth) (after.within bound)
  enters : ∃ call definition, definition.name = name ∧
    tick (machine.within larger) = .ok true ((after.within larger).enter call definition)

theorem tick_within (hrunning : machine.paused = false) (limit : Nat) :
    tick (machine.within limit) =
      match step (machine.within limit) with
      | .ok _ machine => .ok machine.hasWork machine
      | .error cause machine => .error cause machine :=
  tick_of_running hrunning

omit [Segmentation] in
theorem hasWork_enter (call : Call) (definition : Procedure) :
    (machine.enter call definition).hasWork = true := by
  rw [enter_eq]
  rfl

omit [Segmentation] in
theorem depth_enter (call : Call) (definition : Procedure) :
    (machine.enter call definition).depth = machine.depth + 1 := by
  rw [enter_eq]
  exact Nat.succ_add machine.frames.size machine.suspended

omit [Segmentation] in
theorem top?_enter (call : Call) (definition : Procedure) :
    (machine.enter call definition).frames.top? = some (.new call definition) := by
  rw [enter_eq]
  rfl

/-- Ticks under two bounds are the same, or the smaller one cuts off. -/
theorem tick_cases (hle : bound ≤ larger) (machine : Machine) :
    SameTick bound larger machine ∨ ∃ name after, CutAt bound larger machine name after := by
  by_cases hpaused : machine.paused = true
  · have htick : ∀ limit, tick (machine.within limit) =
        .ok machine.hasWork (machine.within limit) := fun limit => tick_of_paused hpaused
    exact .inl ⟨.ok machine.hasWork machine, htick bound, htick larger⟩
  have htick := tick_within (Bool.eq_false_iff.mpr hpaused)
  cases stepsWithin_step machine with
  | ends after hresults =>
    simp only [hresults] at htick
    exact .inl ⟨.ok after.hasWork after, htick bound, htick larger⟩
  | fails cause after hcause hresults =>
    simp only [hresults] at htick
    exact .inl ⟨.error cause after, htick bound, htick larger⟩
  | starts call before hdepth hresults =>
    simp only [hresults, schedule_within, hdepth] at htick
    cases hdefinition : before.world.environment.procedures.find? call.name with
    | none =>
      simp only [hdefinition] at htick
      exact .inl ⟨.error (.unknownProcedure call.name) before, htick bound, htick larger⟩
    | some definition =>
      simp only [hdefinition] at htick
      have hsmall := htick bound
      have hlarge := htick larger
      by_cases hlarger : larger ≤ machine.depth
      · rw [if_pos (Nat.le_trans hle hlarger)] at hsmall
        rw [if_pos hlarger] at hlarge
        exact .inl ⟨.error (.tooDeep definition.name machine.depth) before, hsmall, hlarge⟩
      · rw [if_neg hlarger] at hlarge
        simp only [hasWork_enter] at hlarge
        by_cases hbound : bound ≤ machine.depth
        · rw [if_pos hbound] at hsmall
          exact .inr ⟨definition.name, before, hbound, hdepth, hsmall, call, definition, rfl,
            hlarge⟩
        · rw [if_neg hbound] at hsmall
          simp only [hasWork_enter] at hsmall
          rw [enter_within] at hsmall hlarge
          exact .inl ⟨.ok true (before.enter call definition), hsmall, hlarge⟩

/-- A step fails for too many calls only if there are as many as may be. -/
theorem maxDepth_le_of_tick {name : String} {depth : Nat}
    (htick : tick machine = .error (.tooDeep name depth) after) :
    machine.maxDepth ≤ machine.depth := by
  by_cases hpaused : machine.paused = true
  · rw [tick_of_paused hpaused] at htick
    cases htick
  rw [tick_of_running (Bool.eq_false_iff.mpr hpaused)] at htick
  cases stepsWithin_step machine with
  | ends after hresults =>
    have hstep : step machine = _ := hresults machine.maxDepth
    rw [hstep] at htick
    cases htick
  | fails cause after hcause hresults =>
    have hstep : step machine = _ := hresults machine.maxDepth
    rw [hstep] at htick
    injection htick with htick
    exact absurd htick (hcause name depth)
  | starts call before hdepth hresults =>
    have hstep : step machine = _ := hresults machine.maxDepth
    rw [hstep, schedule_within, hdepth] at htick
    cases hdefinition : before.world.environment.procedures.find? call.name with
    | none =>
      rw [hdefinition] at htick
      cases htick
    | some definition =>
      rw [hdefinition] at htick
      by_contra hless
      dsimp only at htick
      rw [if_neg hless] at htick
      cases htick

/-! ## Runs -/

structure SameRun (bound larger : Nat) (machine : Machine) (fuel : Nat) (shared : List Machine) :
    Prop where
  small : (machine.within bound).ticked fuel = shared.map (·.within bound)
  large : (machine.within larger).ticked fuel = shared.map (·.within larger)
  result : (machine.within larger).drive fuel =
    ((machine.within bound).drive fuel).mapState (·.within larger)

/-- The two runs go through the same machines up to one where the smaller bound ends its run. -/
structure CutRun (bound larger : Nat) (machine : Machine) (fuel : Nat) (shared : List Machine)
    (met : Machine) (name : String) (after : Machine) (rest : List Machine) : Prop where
  cut : CutAt bound larger met name after
  small : (machine.within bound).ticked fuel = (shared ++ [met]).map (·.within bound)
  large : (machine.within larger).ticked fuel = (shared ++ [met]).map (·.within larger) ++ rest
  result : (machine.within bound).drive fuel =
    .error (.tooDeep name met.depth)
      ((after.within bound).noteError (.tooDeep name met.depth))

theorem ticked_within (hrunning : machine.paused = false) (limit fuel : Nat) :
    (machine.within limit).ticked (fuel + 1) =
      machine.within limit :: match tick (machine.within limit) with
        | .ok true next => next.ticked fuel
        | _ => [] :=
  if_neg (Bool.eq_false_iff.mp hrunning)

theorem drive_within (hrunning : machine.paused = false) (limit fuel : Nat) :
    (machine.within limit).drive (fuel + 1) =
      match tick (machine.within limit) with
      | .ok true machine => machine.drive fuel
      | .ok false machine => .ok (some machine.lastResult) machine
      | .error cause machine => .error cause (machine.noteError cause) :=
  if_neg (Bool.eq_false_iff.mp hrunning)

section Alongside

variable {fuel : Nat} {next : Machine} {shared : List Machine}

variable {name : String} {after : Machine}

theorem sameRun_of_paused (hpaused : machine.paused = true) :
    SameRun bound larger machine (fuel + 1) [] where
  small := if_pos hpaused
  large := if_pos hpaused
  result := by
    have hdrive : ∀ limit, (machine.within limit).drive (fuel + 1) =
        .ok (some machine.lastResult) (machine.within limit) := fun limit => if_pos hpaused
    rw [hdrive, hdrive]
    rfl

variable (hrunning : machine.paused = false)

include hrunning

/-- The step at this machine is the last of both runs. -/
theorem sameRun_singleton {result : EStateM.Result RuntimeError Machine Bool}
    (hlast : ∀ next, result ≠ .ok true next)
    (hsmall : tick (machine.within bound) = result.mapState (·.within bound))
    (hlarge : tick (machine.within larger) = result.mapState (·.within larger)) :
    SameRun bound larger machine (fuel + 1) [machine] := by
  cases result with
  | error cause next =>
    refine ⟨?_, ?_, ?_⟩
    · rw [ticked_within hrunning, hsmall]
      rfl
    · rw [ticked_within hrunning, hlarge]
      rfl
    · rw [drive_within hrunning, drive_within hrunning, hsmall, hlarge]
      simp only [EStateM.Result.mapState_error, noteError_within, within_within]
  | ok more next =>
    cases more with
    | true => exact absurd rfl (hlast next)
    | false =>
      refine ⟨?_, ?_, ?_⟩
      · rw [ticked_within hrunning, hsmall]
        rfl
      · rw [ticked_within hrunning, hlarge]
        rfl
      · rw [drive_within hrunning, drive_within hrunning, hsmall, hlarge]
        rfl

theorem cutRun_nil (hcut : CutAt bound larger machine name after) (fuel : Nat) :
    ∃ rest, CutRun bound larger machine (fuel + 1) [] machine name after rest := by
  obtain ⟨call, definition, hname, henters⟩ := hcut.enters
  refine ⟨((after.within larger).enter call definition).ticked fuel, hcut, ?_, ?_, ?_⟩
  · rw [ticked_within hrunning, hcut.fails]
    rfl
  · rw [ticked_within hrunning, henters]
    rfl
  · rw [drive_within hrunning, hcut.fails]

variable (hsmall : tick (machine.within bound) = .ok true (next.within bound))
  (hlarge : tick (machine.within larger) = .ok true (next.within larger))

include hsmall hlarge

theorem SameRun.cons (hrun : SameRun bound larger next fuel shared) :
    SameRun bound larger machine (fuel + 1) (machine :: shared) where
  small := by
    rw [ticked_within hrunning, hsmall]
    exact congrArg _ hrun.small
  large := by
    rw [ticked_within hrunning, hlarge]
    exact congrArg _ hrun.large
  result := by
    rw [drive_within hrunning, drive_within hrunning, hsmall, hlarge]
    exact hrun.result

theorem CutRun.cons {met : Machine} {rest : List Machine}
    (hrun : CutRun bound larger next fuel shared met name after rest) :
    CutRun bound larger machine (fuel + 1) (machine :: shared) met name after rest where
  cut := hrun.cut
  small := by
    rw [ticked_within hrunning, hsmall]
    exact congrArg _ hrun.small
  large := by
    rw [ticked_within hrunning, hlarge]
    exact congrArg _ hrun.large
  result := by
    rw [drive_within hrunning, hsmall]
    exact hrun.result

end Alongside

/-- Two runs that differ in the bound alone go through the same machines, to the end or up to the
first call that the smaller bound does not let start. -/
theorem runs_alongside (hle : bound ≤ larger) (machine : Machine) (fuel : Nat) :
    ∃ shared : List Machine, (∀ met ∈ shared, SameTick bound larger met) ∧
      (SameRun bound larger machine fuel shared ∨
        ∃ met name after rest, CutRun bound larger machine fuel shared met name after rest) := by
  induction fuel generalizing machine with
  | zero => exact ⟨[], by simp, .inl ⟨rfl, rfl, rfl⟩⟩
  | succ fuel ih =>
    by_cases hpaused : machine.paused = true
    · exact ⟨[], by simp, .inl (sameRun_of_paused hpaused)⟩
    have hrunning : machine.paused = false := Bool.eq_false_iff.mpr hpaused
    obtain ⟨result, hsmall, hlarge⟩ | ⟨name, after, hcut⟩ := tick_cases hle machine
    · have hhead : SameTick bound larger machine := ⟨result, hsmall, hlarge⟩
      by_cases hmore : ∃ next, result = .ok true next
      · obtain ⟨next, rfl⟩ := hmore
        obtain ⟨shared, hshared, hrun | ⟨met, name, after, rest, hrun⟩⟩ := ih next
        · exact ⟨machine :: shared, List.forall_mem_cons.mpr ⟨hhead, hshared⟩,
            .inl (hrun.cons hrunning hsmall hlarge)⟩
        · exact ⟨machine :: shared, List.forall_mem_cons.mpr ⟨hhead, hshared⟩,
            .inr ⟨met, name, after, rest, hrun.cons hrunning hsmall hlarge⟩⟩
      · have hlast : ∀ next, result ≠ .ok true next :=
          fun next hresult => hmore ⟨next, hresult⟩
        exact ⟨[machine], by simpa using hhead,
          .inl (sameRun_singleton hrunning hlast hsmall hlarge)⟩
    · obtain ⟨rest, hrun⟩ := cutRun_nil hrunning hcut fuel
      exact ⟨[], by simp, .inr ⟨machine, name, after, rest, hrun⟩⟩

/-! ## Where the bound shows -/

theorem forall_mem_ticked {holds : Machine → Prop} (htick : Keeps holds Machine.tick)
    (hmachine : holds machine) (fuel : Nat) : ∀ met ∈ machine.ticked fuel, holds met := by
  fun_induction ticked machine fuel with
  | case1 machine => simp
  | case2 machine fuel hpaused => simp
  | case3 machine fuel hrunning ih =>
    refine List.forall_mem_cons.mpr ⟨hmachine, ?_⟩
    have hnext := htick machine hmachine
    split
    next next heq =>
      rw [heq] at hnext
      exact ih next hnext
    next => simp

/-- A run that fails does so at one of its steps. -/
theorem exists_ticked_of_drive {fuel : Nat} (hdrive : machine.drive fuel = .error cause after) :
    ∃ met ∈ machine.ticked fuel, ∃ failed, tick met = .error cause failed := by
  fun_induction Machine.drive machine fuel with
  | case1 machine => cases hdrive
  | case2 machine fuel hpaused => cases hdrive
  | case3 machine fuel hrunning next htick ih =>
    obtain ⟨met, hmet, hfails⟩ := ih hdrive
    refine ⟨met, ?_, hfails⟩
    rw [ticked, if_neg hrunning, htick]
    exact List.mem_cons_of_mem machine hmet
  | case4 machine fuel hrunning next htick => cases hdrive
  | case5 machine fuel hrunning other next htick =>
    cases hdrive
    refine ⟨machine, ?_, next, htick⟩
    rw [ticked, if_neg hrunning]
    exact List.mem_cons_self

end Machine

theorem Books.within {maxDepth bound : Nat} {machine : Machine} {loose : List Frame}
    (hbooks : Books maxDepth machine loose) (hdepth : machine.depth ≤ bound) :
    Books bound (machine.within bound) loose :=
  { hbooks with maxDepth_eq := rfl, depth := hdepth }

namespace Machine

section

variable [Segmentation]
variable {bound larger fuel : Nat} {machine met after : Machine} {shared rest : List Machine}
  {name : String}

theorem SameTick.depth_eq (htick : SameTick bound larger machine) :
    (tick (machine.within larger)).state.depth = (tick (machine.within bound)).state.depth := by
  obtain ⟨result, hsmall, hlarge⟩ := htick
  rw [hsmall, hlarge]
  cases result <;> rfl

/-- Under a bound that the books keep, runs that end alike do not fail for too many calls. -/
theorem SameRun.ne_tooDeep (hrun : SameRun bound larger machine fuel shared)
    (hbooks : Books bound (machine.within bound) []) (hlt : bound < larger) (depth : Nat) :
    (machine.within bound).drive fuel ≠ .error (.tooDeep name depth) after := by
  intro hdrive
  have hlarge := hrun.result
  rw [hdrive, EStateM.Result.mapState_error] at hlarge
  obtain ⟨met, hmet, failed, hfails⟩ := exists_ticked_of_drive hlarge
  rw [hrun.large] at hmet
  obtain ⟨reached, hreached, rfl⟩ := List.mem_map.mp hmet
  have hsmall : reached.within bound ∈ (machine.within bound).ticked fuel := by
    rw [hrun.small]
    exact List.mem_map_of_mem hreached
  have hdepth := (forall_mem_ticked (Books.lasting bound).tick hbooks fuel _ hsmall).depth
  have hfull := maxDepth_le_of_tick hfails
  exact absurd (Nat.le_trans hfull hdepth) (Nat.not_le.mpr hlt)

theorem CutRun.depth_eq (hrun : CutRun bound larger machine fuel shared met name after rest)
    (hbooks : Books bound (machine.within bound) []) : met.depth = bound := by
  have hmet : met.within bound ∈ (machine.within bound).ticked fuel := by
    rw [hrun.small]
    exact List.mem_map_of_mem (by simp)
  exact Nat.le_antisymm
    (forall_mem_ticked (Books.lasting bound).tick hbooks fuel _ hmet).depth hrun.cut.reached

/-- The first machine of a run whose step makes more calls active than so many. -/
def firstBeyond (machine : Machine) (fuel bound : Nat) : Option Machine :=
  (machine.ticked fuel).find? fun met => bound < (tick met).state.allFrames.length

theorem length_allFrames_tick {limit : Nat} (hbooks : Books limit machine [])
    (hmet : met ∈ machine.ticked fuel) :
    (tick met).state.allFrames.length = (tick met).state.depth := by
  have hlasting := (Books.lasting limit).tick
  exact (hlasting met (forall_mem_ticked hlasting hbooks fuel met hmet)).length_allFrames

theorem depth_tick_le (hbooks : Books bound (machine.within bound) [])
    (hmet : met.within bound ∈ (machine.within bound).ticked fuel)
    (hsame : SameTick bound larger met) : (tick (met.within larger)).state.depth ≤ bound := by
  have hlasting := (Books.lasting bound).tick
  rw [hsame.depth_eq]
  exact (hlasting _ (forall_mem_ticked hlasting hbooks fuel _ hmet)).depth

section FirstBeyond

variable (hsmall : Books bound (machine.within bound) [])
  (hlarge : Books larger (machine.within larger) [])
  (hshared : ∀ met ∈ shared, SameTick bound larger met)

include hsmall hlarge hshared

theorem SameRun.firstBeyond_eq (hrun : SameRun bound larger machine fuel shared) :
    (machine.within larger).firstBeyond fuel bound = none := by
  rw [firstBeyond, List.find?_eq_none]
  intro reached hreached
  rw [length_allFrames_tick hlarge hreached]
  rw [hrun.large] at hreached
  obtain ⟨met, hmet, rfl⟩ := List.mem_map.mp hreached
  have hmem : met.within bound ∈ (machine.within bound).ticked fuel := by
    rw [hrun.small]
    exact List.mem_map_of_mem hmet
  simpa using depth_tick_le hsmall hmem (hshared met hmet)

/-- What is cut off is the first call beyond the smaller bound. -/
theorem CutRun.firstBeyond_eq (hrun : CutRun bound larger machine fuel shared met name after rest) :
    (machine.within larger).firstBeyond fuel bound = some (met.within larger) := by
  have hlength : ∀ reached ∈ (machine.within larger).ticked fuel,
      (tick reached).state.allFrames.length = (tick reached).state.depth :=
    fun reached hreached => length_allFrames_tick hlarge hreached
  rw [firstBeyond, hrun.large, List.map_append, List.append_assoc, List.find?_append]
  rw [hrun.large] at hlength
  have hbefore : (shared.map (·.within larger)).find?
      (fun met => bound < (tick met).state.allFrames.length) = none := by
    rw [List.find?_eq_none]
    intro reached hreached
    obtain ⟨other, hother, rfl⟩ := List.mem_map.mp hreached
    have hmem : other.within bound ∈ (machine.within bound).ticked fuel := by
      rw [hrun.small]
      exact List.mem_map_of_mem (by simp [hother])
    rw [hlength _ (List.mem_append_left rest (List.mem_map_of_mem (by simp [hother])))]
    simpa using depth_tick_le hsmall hmem (hshared other hother)
  have hhere : bound < (tick (met.within larger)).state.allFrames.length := by
    obtain ⟨call, definition, hname, henters⟩ := hrun.cut.enters
    rw [hlength _ (by simp), henters, EStateM.Result.state_ok, depth_enter, depth_within,
      hrun.cut.depth_eq]
    exact Nat.lt_succ_of_le hrun.cut.reached
  simp [hbefore, hhere]

end FirstBeyond

theorem ticked_within_ticked (hle : bound ≤ larger) (machine : Machine) (fuel : Nat) :
    ((machine.within bound).ticked fuel).map (·.within larger) <+:
      (machine.within larger).ticked fuel := by
  obtain ⟨shared, hshared, hrun | ⟨met, name, after, rest, hrun⟩⟩ :=
    runs_alongside hle machine fuel
  · rw [hrun.small, hrun.large, List.map_map]
    exact List.prefix_rfl
  · rw [hrun.small, hrun.large, List.map_map]
    exact List.prefix_append _ rest

theorem sameRun_of_ne_tooDeep (hle : bound ≤ larger) (machine : Machine) (fuel : Nat)
    (hdrive : ∀ name depth after,
      (machine.within bound).drive fuel ≠ .error (.tooDeep name depth) after) :
    ∃ shared, SameRun bound larger machine fuel shared := by
  obtain ⟨shared, hshared, hrun | ⟨met, name, after, rest, hrun⟩⟩ :=
    runs_alongside hle machine fuel
  · exact ⟨shared, hrun⟩
  · exact absurd hrun.result (hdrive _ _ _)

theorem tooDeep_iff_firstBeyond (hsmall : Books bound (machine.within bound) [])
    (hlarge : Books larger (machine.within larger) []) (hlt : bound < larger) (fuel : Nat)
    (name : String) (depth : Nat) :
    (∃ after, (machine.within bound).drive fuel = .error (.tooDeep name depth) after) ↔
      depth = bound ∧ ∃ met, (machine.within larger).firstBeyond fuel bound = some met ∧
        (tick met).state.frames.top?.map (·.definition.name) = some name := by
  obtain ⟨shared, hshared, hrun | ⟨met, first, after, rest, hrun⟩⟩ :=
    runs_alongside (Nat.le_of_lt hlt) machine fuel
  · simp only [hrun.firstBeyond_eq hsmall hlarge hshared, hrun.ne_tooDeep hsmall hlt,
      exists_false, reduceCtorEq, false_and, and_false]
  · obtain ⟨call, definition, hname, henters⟩ := hrun.cut.enters
    have htop : (tick (met.within larger)).state.frames.top? = some (.new call definition) := by
      rw [henters, EStateM.Result.state_ok, top?_enter]
    rw [hrun.result, hrun.firstBeyond_eq hsmall hlarge hshared, hrun.depth_eq hsmall]
    simp [htop, Frame.new, hname, eq_comm, and_comm]

theorem run_within (machine : Machine) (program : Value) (fuel limit : Nat) :
    run fuel program (machine.within limit) =
      ((machine.perform (.run 0 program)).within limit).drive fuel := by
  have hstarted : (machine.within limit).started program =
      (machine.started program).within limit := by
    have hsame : (machine.within limit).hasWork = machine.hasWork := rfl
    rw [started, started, hsame]
    split <;> cases program <;> rfl
  exact congrArg (·.drive fuel) hstarted

theorem resume_within (machine : Machine) (fuel limit : Nat) :
    resume fuel (machine.within limit) =
      ((machine.perform (.resume 0)).within limit).drive fuel :=
  congrArg (·.drive fuel) (eq_within ((machine.wears_within limit).lifted rfl))

/-- The bound on active frames only cuts runs off. Under a smaller bound every run takes the steps
that it takes under a larger one, up to the first call that may not start; a run that does not fail
for too many calls is the same under both. On every machine that can be met, a run fails so exactly
if under the larger bound there is a step that makes more calls active than the smaller bound
allows, the calls that bounded runs have put aside included: it names the call that the first such
step starts, and the smaller bound. Running a program and going on after a pause are such runs. -/
theorem bound_only_cuts_runs_off {bound larger : Nat} (hle : bound ≤ larger) :
    (∀ (machine : Machine) (fuel : Nat),
      ((machine.within bound).ticked fuel).map (·.within larger) <+:
          (machine.within larger).ticked fuel ∧
        ((∀ name depth after,
            (machine.within bound).drive fuel ≠ .error (.tooDeep name depth) after) →
          (machine.within larger).ticked fuel =
              ((machine.within bound).ticked fuel).map (·.within larger) ∧
            (machine.within larger).drive fuel =
              ((machine.within bound).drive fuel).mapState (·.within larger))) ∧
    (∀ (limit : Nat) (console : Console) (log : Log) (operations : List Operation) (fuel : Nat),
      let machine := (Machine.new limit console log).performAll operations
      machine.depth ≤ bound → bound < larger → ∀ name depth,
        (∃ after, (machine.within bound).drive fuel = .error (.tooDeep name depth) after) ↔
          depth = bound ∧ ∃ met, (machine.within larger).firstBeyond fuel bound = some met ∧
            (tick met).state.frames.top?.map (·.definition.name) = some name) ∧
    ∀ (machine : Machine) (program : Value) (fuel limit : Nat),
      run fuel program (machine.within limit) =
          ((machine.perform (.run 0 program)).within limit).drive fuel ∧
        resume fuel (machine.within limit) =
          ((machine.perform (.resume 0)).within limit).drive fuel := by
  refine ⟨?_, ?_, ?_⟩
  · intro machine fuel
    refine ⟨ticked_within_ticked hle machine fuel, fun hdrive => ?_⟩
    obtain ⟨shared, hrun⟩ := sameRun_of_ne_tooDeep hle machine fuel hdrive
    refine ⟨?_, hrun.result⟩
    rw [hrun.small, hrun.large, List.map_map]
    rfl
  · intro limit console log operations fuel machine hdepth hlt name depth
    have hbooks := Books.performAll limit console log operations
    exact tooDeep_iff_firstBeyond (hbooks.within hdepth) (hbooks.within (Nat.le_trans hdepth hle))
      hlt fuel name depth
  · intro machine program fuel limit
    exact ⟨run_within machine program fuel limit, resume_within machine fuel limit⟩

end

open scoped Graphemes

/-- Where one call may be active, the input of `print` cannot be read, and with two it is. -/
theorem bound_cuts_readword_off :
    let machine := (Machine.new 1 (.new ["hello"]) (.new none)).performAll
      [.run 0 (.call ⟨"print", [.call ⟨"readword", [], .nowhere⟩], .nowhere⟩)]
    ∃ met, (machine.within 2).firstBeyond 4 1 = some met ∧
      (tick met).state.frames.top?.map (·.definition.name) = some "readword" := by
  intro machine
  have hfails : ∃ after, (machine.within 1).drive 4 = .error (.tooDeep "readword" 1) after :=
    ⟨_, rfl⟩
  exact (((bound_only_cuts_runs_off (by decide : 1 ≤ 2)).2.1 1 (.new ["hello"]) (.new none) _ 4
    (by decide) (by decide) "readword" 1).mp hfails).2

end Machine

end Logo
