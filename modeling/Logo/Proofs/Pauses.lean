import Logo.Proofs.Steady
import Logo.Text.Cluster

/-!
# Pauses change no outcome

A script that is run through its pauses ends as it would on the steady machine, on which a pause
does not stop anything. The steady machine gives the meaning of a run: what its steps lead to in
the end, if they lead to an end. Every way to run a script through its pauses is shown to give just
that.
-/

namespace Logo

/-- A run has failed or has a value; it has not used up its fuel. -/
def Ended : EStateM.Result Error Machine (Option Value) → Prop
  | .ok value _ => value.isSome = true
  | .error _ _ => True

instance (result : EStateM.Result Error Machine (Option Value)) : Decidable (Ended result) :=
  match result with
  | .ok value _ => inferInstanceAs (Decidable (value.isSome = true))
  | .error _ _ => .isTrue trivial

namespace Machine

theorem bare_lifted (machine : Machine) : machine.lifted.bare = machine.bare := by
  rw [lifted]
  split
  · rw [note_eq]
    rfl
  · rfl

variable [Segmentation]

/-- The steps of the steady machine come to an end with this result. -/
inductive Ends : Machine → EStateM.Result Error Machine (Option Value) → Prop
  | failed {machine after : Machine} {cause : RuntimeError}
      (htick : Forms.steady.tick machine = .error cause after) :
      Ends machine (.error (.runtime cause) after)
  | done {machine after : Machine} (htick : Forms.steady.tick machine = .ok false after) :
      Ends machine (.ok (some after.lastResult) after)
  | more {machine after : Machine} {result : EStateM.Result Error Machine (Option Value)}
      (htick : Forms.steady.tick machine = .ok true after) (hends : Ends after result) :
      Ends machine result

variable {machine : Machine} {result : EStateM.Result Error Machine (Option Value)}

/-- A tick comes to the end, or nearer to it. -/
theorem ends_iff :
    machine.Ends result ↔
      match Forms.steady.tick machine with
      | .error cause after => result = .error (.runtime cause) after
      | .ok false after => result = .ok (some after.lastResult) after
      | .ok true after => after.Ends result := by
  constructor
  · intro hends
    cases hends with
    | failed htick => rw [htick]
    | done htick => rw [htick]
    | more htick hends =>
      rw [htick]
      exact hends
  · intro hends
    cases htick : Forms.steady.tick machine with
    | error cause after =>
      rw [htick] at hends
      exact hends ▸ .failed htick
    | ok more after =>
      rw [htick] at hends
      cases more with
      | true => exact .more htick hends
      | false => exact hends ▸ .done htick

/-- There is one end. -/
theorem Ends.unique {other : EStateM.Result Error Machine (Option Value)}
    (hends : machine.Ends result) (hother : machine.Ends other) : result = other := by
  induction hends with
  | failed htick =>
    rw [ends_iff, htick] at hother
    exact hother.symm
  | done htick =>
    rw [ends_iff, htick] at hother
    exact hother.symm
  | more htick _ ih =>
    rw [ends_iff, htick] at hother
    exact ih hother

omit [Segmentation] in
theorem outcome_eq_completed {value : Option Value} {final : Value}
    (houtcome : machine.outcome value = .completed final) :
    value = some final ∧ machine.paused = false := by
  cases value with
  | none => cases houtcome
  | some value =>
    rw [outcome] at houtcome
    cases hpaused : machine.paused with
    | true =>
      rw [hpaused] at houtcome
      cases houtcome
    | false =>
      rw [hpaused] at houtcome
      cases houtcome
      exact ⟨rfl, rfl⟩

/-- Goes on with a script, whatever its outcome has been, once for each amount of fuel. -/
def resumed (resume : Nat → EStateM Error Machine Outcome) :
    List Nat → Outcome → EStateM Error Machine (Option Value)
  | [], .completed value => return some value
  | [], _ => return none
  | _ :: _, .exhausted => return none
  | fuel :: fuels, _ => do
    let outcome ← resume fuel
    resumed resume fuels outcome

end Machine

namespace Forms

variable [Segmentation]

/-- A step that finds nothing to do changes nothing. -/
theorem tick_bare_of_idle {machine : Machine} (hidle : machine.hasWork = false) :
    steady.tick machine.bare = .ok false machine.bare := by
  have hbare : machine.bare.hasWork = false := hidle
  obtain ⟨hframes, hprogram, hbounded⟩ := Machine.hasWork_eq_false_iff.mp hbare
  have htop : machine.bare.frames.top? = none := List.head?_eq_none_iff.mpr hframes
  have hstep : steady.step machine.bare = .ok () machine.bare := by
    rw [step, htop]
    dsimp only
    rw [Machine.advanceProgram_apply, hprogram, hbounded]
  rw [steady.tick_of_running rfl, hstep]
  exact congrArg (EStateM.Result.ok · machine.bare) hbare

variable (forms : Forms)

def carry (fuel : Nat) : EStateM Error Machine Outcome := do
  let value ← Machine.running (forms.drive · fuel)
  return (← get).outcome value

variable {forms} {machine after : Machine} {fuel : Nat}

theorem carry_of_ok {value : Option Value} (hdrive : forms.drive machine fuel = .ok value after) :
    forms.carry fuel machine = .ok (after.outcome value) after := by
  have hrun : Machine.running (forms.drive · fuel) machine = .ok value after := by
    simp only [Machine.running, hdrive]
  exact bind_of_ok hrun

theorem carry_of_error {cause : RuntimeError}
    (hdrive : forms.drive machine fuel = .error cause after) :
    forms.carry fuel machine = .error (.runtime cause) after := by
  have hrun : Machine.running (forms.drive · fuel) machine = .error (.runtime cause) after := by
    simp only [Machine.running, hdrive]
  exact bind_of_error hrun

theorem carry_of_more (hrunning : machine.paused = false)
    (htick : forms.tick machine = .ok true after) :
    forms.carry (fuel + 1) machine = forms.carry fuel after := by
  have hrun : Machine.running (forms.drive · (fuel + 1)) machine =
      Machine.running (forms.drive · fuel) after := by
    simp only [Machine.running, drive_of_more hrunning htick]
  rw [carry, carry, bind_apply, bind_apply, hrun]

theorem carry_of_paused (hpaused : machine.paused = true) :
    forms.carry (fuel + 1) machine = .ok .paused machine := by
  have houtcome : machine.outcome (some machine.lastResult) = .paused := by
    rw [Machine.outcome, if_pos hpaused]
  rw [carry_of_ok (drive_of_paused hpaused), houtcome]

theorem resumed_cons (fuel : Nat) (fuels : List Nat) {outcome : Outcome}
    (houtcome : outcome ≠ .exhausted) (machine : Machine) :
    Machine.resumed forms.resumeScript (fuel :: fuels) outcome machine =
      (forms.carry fuel >>= Machine.resumed forms.resumeScript fuels) machine.lifted := by
  cases outcome with
  | completed value => rfl
  | paused => rfl
  | exhausted => exact absurd rfl houtcome

theorem runScript_apply (fuel : Nat) (source : String) (machine : Machine) :
    forms.runScript fuel source machine =
      match Machine.readProgramList source machine with
      | .error cause after => .error cause after
      | .ok program after => forms.carry fuel (after.started program) := by
  rw [runScript, bind_apply]
  cases Machine.readProgramList source machine <;> rfl

/-- A further round goes on from a machine that differs in its log and in not being paused. -/
theorem exists_finishScript_eq (forms : Forms) (fuel pauses rounds : Nat) (machine : Machine) :
    ∃ next, next.paused = false ∧ next.bare = machine.bare ∧
      forms.finishScript fuel pauses (rounds + 1) .paused machine =
        (forms.carry fuel >>= forms.finishScript fuel (pauses + 1) rounds) next := by
  let noted := machine.note .info fun machine =>
    "paused (" ++ toString (pauses + 1) ++ ") at depth " ++ toString machine.depth ++ ": " ++
      " <- ".intercalate machine.backtrace
  refine ⟨noted.lifted, noted.running_lifted, ?_, ?_⟩
  · rw [noted.bare_lifted]
    exact Machine.muted_note _ machine _ _
  · rw [finishScript]
    rfl

/-! ## Runs end as the steady machine does -/

section Stopping

variable (hforms : forms.Stopping) {result : EStateM.Result Error Machine (Option Value)}

include hforms

/-- Pauses on the way do not change the end. -/
theorem ends_of_drive {value : Option Value} (hdrive : forms.drive machine fuel = .ok value after)
    (hends : after.bare.Ends result) : machine.bare.Ends result := by
  fun_induction drive forms machine fuel with
  | case1 machine =>
    cases hdrive
    exact hends
  | case2 machine fuel hpaused =>
    cases hdrive
    exact hends
  | case3 machine fuel hrunning next hrun ih =>
    have htick := tick_bare hforms (Bool.eq_false_iff.mpr hrunning)
    rw [hrun] at htick
    exact .more htick (ih hdrive)
  | case4 machine fuel hrunning next hrun =>
    cases hdrive
    have htick := tick_bare hforms (Bool.eq_false_iff.mpr hrunning)
    rw [hrun] at htick
    -- Nothing is left to do, so that the next step is as good as this one.
    have hstay := tick_bare_of_idle (forms.hasWork_of_tick hrun).symm
    rw [Machine.ends_iff, hstay] at hends
    rw [Machine.ends_iff, htick]
    exact hends
  | case5 machine fuel hrunning cause next hrun => cases hdrive

omit hforms in
theorem ends_of_completed {value : Option Value} {final : Value}
    (hdrive : forms.drive machine fuel = .ok value after)
    (houtcome : after.outcome value = .completed final) :
    after.bare.Ends (.ok (some final) after.silence) := by
  obtain ⟨rfl, hrunning⟩ := Machine.outcome_eq_completed houtcome
  obtain ⟨rfl, hstopped | hidle⟩ := ended_of_drive hdrive
  · rw [hrunning] at hstopped
    cases hstopped
  · rw [← Machine.bare_of_running hrunning]
    exact .done (tick_bare_of_idle hidle)

theorem ends_of_drive_error {cause : RuntimeError}
    (hdrive : forms.drive machine fuel = .error cause after) :
    machine.bare.Ends (.error (.runtime cause) after.silence) := by
  fun_induction drive forms machine fuel with
  | case1 machine => cases hdrive
  | case2 machine fuel hpaused => cases hdrive
  | case3 machine fuel hrunning next hrun ih =>
    have htick := tick_bare hforms (Bool.eq_false_iff.mpr hrunning)
    rw [hrun] at htick
    exact .more htick (ih hdrive)
  | case4 machine fuel hrunning next hrun => cases hdrive
  | case5 machine fuel hrunning cause next hrun =>
    have hpaused := Bool.eq_false_iff.mpr hrunning
    have htick := tick_bare hforms hpaused
    rw [hrun] at htick
    cases hdrive
    rw [Machine.silence_note,
      ← Machine.bare_of_running (running_of_tick_error hforms hpaused hrun)]
    exact .failed htick

/-- What a script is brought to that goes on is what the steady machine comes to. -/
theorem ends_of_carry {next : Outcome → EStateM Error Machine (Option Value)}
    (hnext : ∀ outcome after,
      (∀ final, outcome = .completed final → after.bare.Ends (.ok (some final) after.silence)) →
      (next outcome after).mapState Machine.silence = result → after.bare.Ends result)
    (hcarry : ((forms.carry fuel >>= next) machine).mapState Machine.silence = result) :
    machine.bare.Ends result := by
  cases hdrive : forms.drive machine fuel with
  | error cause after =>
    rw [bind_of_error (carry_of_error hdrive)] at hcarry
    exact hcarry ▸ ends_of_drive_error hforms hdrive
  | ok value after =>
    rw [bind_of_ok (carry_of_ok hdrive)] at hcarry
    have hlater := hnext _ after (fun final => ends_of_completed hdrive) hcarry
    exact ends_of_drive hforms hdrive hlater

theorem ends_of_finishScript (hended : Ended result) {outcome : Outcome} {pauses rounds : Nat}
    (hcompleted : ∀ final, outcome = .completed final →
      machine.bare.Ends (.ok (some final) machine.silence))
    (hfinish : (forms.finishScript fuel pauses rounds outcome machine).mapState
      Machine.silence = result) : machine.bare.Ends result := by
  induction rounds generalizing outcome machine pauses with
  | zero =>
    cases outcome with
    | completed final => exact hfinish ▸ hcompleted final rfl
    | paused =>
      subst hfinish
      cases hended
    | exhausted =>
      subst hfinish
      cases hended
  | succ rounds ih =>
    cases outcome with
    | completed final => exact hfinish ▸ hcompleted final rfl
    | paused =>
      obtain ⟨next, _, hbare, hround⟩ :=
        forms.exists_finishScript_eq fuel pauses rounds machine
      rw [hround] at hfinish
      rw [← hbare]
      exact ends_of_carry hforms (fun outcome after => ih) hfinish
    | exhausted =>
      subst hfinish
      cases hended

theorem ends_of_resumed (hended : Ended result) {outcome : Outcome} {fuels : List Nat}
    (hcompleted : ∀ final, outcome = .completed final →
      machine.bare.Ends (.ok (some final) machine.silence))
    (hresumed : (Machine.resumed forms.resumeScript fuels outcome machine).mapState
      Machine.silence = result) : machine.bare.Ends result := by
  induction fuels generalizing outcome machine with
  | nil =>
    cases outcome with
    | completed final => exact hresumed ▸ hcompleted final rfl
    | paused =>
      subst hresumed
      cases hended
    | exhausted =>
      subst hresumed
      cases hended
  | cons fuel fuels ih =>
    by_cases houtcome : outcome = .exhausted
    · subst houtcome hresumed
      cases hended
    · rw [resumed_cons fuel fuels houtcome] at hresumed
      rw [← machine.bare_lifted]
      exact ends_of_carry hforms (fun outcome after => ih) hresumed

end Stopping

/-! ## The end of the steady machine is reached -/

/-- With at least so much fuel and as many rounds, a script ends with this result. -/
def FinishesWithin (forms : Forms) (bound : Nat) (machine : Machine)
    (result : EStateM.Result Error Machine (Option Value)) : Prop :=
  ∀ left fuel pauses rounds, bound ≤ left → bound ≤ fuel → bound ≤ rounds →
    ((forms.carry left >>= forms.finishScript fuel pauses rounds) machine).mapState
      Machine.silence = result

def Resumes (forms : Forms) (machine : Machine)
    (result : EStateM.Result Error Machine (Option Value)) : Prop :=
  ∃ left fuels,
    ((forms.carry left >>= Machine.resumed forms.resumeScript fuels) machine).mapState
      Machine.silence = result

section Reached

variable {bare : Machine} {result : EStateM.Result Error Machine (Option Value)}

/-- A machine that is paused needs one more round. -/
theorem finishesWithin_succ {bound : Nat}
    (hfinishes : ∀ machine, machine.paused = false → machine.bare = bare →
      forms.FinishesWithin bound machine result)
    (machine : Machine) (hbare : machine.bare = bare) :
    forms.FinishesWithin (bound + 1) machine result := by
  intro left fuel pauses rounds hleft hfuel hrounds
  cases hpaused : machine.paused with
  | false =>
    exact hfinishes machine hpaused hbare left fuel pauses rounds (Nat.le_of_succ_le hleft)
      (Nat.le_of_succ_le hfuel) (Nat.le_of_succ_le hrounds)
  | true =>
    obtain ⟨left, rfl⟩ := Nat.exists_eq_add_one_of_ne_zero (Nat.ne_zero_of_lt hleft)
    obtain ⟨rounds, rfl⟩ := Nat.exists_eq_add_one_of_ne_zero (Nat.ne_zero_of_lt hrounds)
    obtain ⟨next, hnext, hsame, hround⟩ :=
      forms.exists_finishScript_eq fuel pauses rounds machine
    rw [bind_of_ok (carry_of_paused hpaused), hround]
    exact hfinishes next hnext (hsame.trans hbare) fuel fuel (pauses + 1) rounds
      (Nat.le_of_succ_le hfuel) (Nat.le_of_succ_le hfuel) (Nat.le_of_succ_le_succ hrounds)

theorem resumes_of_running
    (hresumes : ∀ machine, machine.paused = false → machine.bare = bare →
      forms.Resumes machine result)
    (machine : Machine) (hbare : machine.bare = bare) : forms.Resumes machine result := by
  cases hpaused : machine.paused with
  | false => exact hresumes machine hpaused hbare
  | true =>
    obtain ⟨left, fuels, hgives⟩ := hresumes machine.lifted machine.running_lifted
      (machine.bare_lifted.trans hbare)
    refine ⟨1, left :: fuels, ?_⟩
    have hnext : Outcome.paused ≠ .exhausted := nofun
    rw [bind_of_ok (carry_of_paused hpaused), resumed_cons left fuels hnext]
    exact hgives

variable (hforms : forms.Stopping)

include hforms

theorem carry_of_tick_error (hrunning : machine.paused = false) {cause : RuntimeError}
    (htick : steady.tick machine.bare = .error cause after) :
    ∃ final, final.silence = after ∧
      ∀ fuel, forms.carry (fuel + 1) machine = .error (.runtime cause) final := by
  rw [tick_bare hforms hrunning] at htick
  obtain ⟨next, hrun, rfl⟩ := EStateM.Result.exists_of_mapState_error htick
  refine ⟨next.noteError cause, ?_, fun fuel => carry_of_error (drive_of_error hrunning hrun)⟩
  rw [Machine.noteError, Machine.silence_note,
    Machine.bare_of_running (running_of_tick_error hforms hrunning hrun)]

theorem carry_of_tick_done (hrunning : machine.paused = false)
    (htick : steady.tick machine.bare = .ok false after) :
    ∃ final, final.silence = after ∧
      ∀ fuel, forms.carry (fuel + 1) machine = .ok (.completed after.lastResult) final := by
  rw [tick_bare hforms hrunning] at htick
  obtain ⟨next, hrun, rfl⟩ := EStateM.Result.exists_of_mapState_ok htick
  have hnext := running_of_tick_done hforms hrunning hrun
  have houtcome : next.outcome (some next.lastResult) = .completed next.lastResult := by
    rw [Machine.outcome, if_neg (Bool.eq_false_iff.mp hnext)]
  refine ⟨next, (Machine.bare_of_running hnext).symm, fun fuel => ?_⟩
  rw [carry_of_ok (drive_of_done hrunning hrun), houtcome]
  rfl

theorem carry_of_tick_more (hrunning : machine.paused = false)
    (htick : steady.tick machine.bare = .ok true after) :
    ∃ next, next.bare = after ∧
      ∀ fuel, forms.carry (fuel + 1) machine = forms.carry fuel next := by
  rw [tick_bare hforms hrunning] at htick
  obtain ⟨next, hrun, hnext⟩ := EStateM.Result.exists_of_mapState_ok htick
  exact ⟨next, hnext, fun fuel => carry_of_more hrunning hrun⟩

/-- What ends does so with enough fuel, however often it pauses. -/
theorem exists_finishesWithin (hends : bare.Ends result) :
    ∃ bound, ∀ machine, machine.paused = false → machine.bare = bare →
      forms.FinishesWithin bound machine result := by
  induction hends with
  | failed htick =>
    refine ⟨1, fun machine hrunning hbare left fuel pauses rounds hleft _ _ => ?_⟩
    obtain ⟨final, rfl, hcarry⟩ := carry_of_tick_error hforms hrunning (hbare ▸ htick)
    obtain ⟨left, rfl⟩ := Nat.exists_eq_add_one_of_ne_zero (Nat.ne_zero_of_lt hleft)
    rw [bind_of_error (hcarry left)]
    rfl
  | done htick =>
    refine ⟨1, fun machine hrunning hbare left fuel pauses rounds hleft _ _ => ?_⟩
    obtain ⟨final, rfl, hcarry⟩ := carry_of_tick_done hforms hrunning (hbare ▸ htick)
    obtain ⟨left, rfl⟩ := Nat.exists_eq_add_one_of_ne_zero (Nat.ne_zero_of_lt hleft)
    rw [bind_of_ok (hcarry left)]
    cases rounds <;> rfl
  | more htick _ ih =>
    obtain ⟨bound, hbound⟩ := ih
    refine ⟨bound + 2, ?_⟩
    intro machine hrunning hbare left fuel pauses rounds hleft hfuel hrounds
    obtain ⟨next, hnext, hcarry⟩ := carry_of_tick_more hforms hrunning (hbare ▸ htick)
    obtain ⟨left, rfl⟩ := Nat.exists_eq_add_one_of_ne_zero (Nat.ne_zero_of_lt hleft)
    rw [bind_apply, hcarry left, ← bind_apply]
    exact finishesWithin_succ hbound next hnext left fuel pauses rounds
      (Nat.le_of_succ_le_succ hleft) (Nat.le_of_succ_le hfuel) (Nat.le_of_succ_le hrounds)

/-- What ends does so if it is resumed often enough. -/
theorem resumes_of_ends (hends : bare.Ends result) :
    ∀ machine, machine.paused = false → machine.bare = bare → forms.Resumes machine result := by
  induction hends with
  | failed htick =>
    intro machine hrunning hbare
    obtain ⟨final, rfl, hcarry⟩ := carry_of_tick_error hforms hrunning (hbare ▸ htick)
    refine ⟨1, [], ?_⟩
    rw [bind_of_error (hcarry 0)]
    rfl
  | done htick =>
    intro machine hrunning hbare
    obtain ⟨final, rfl, hcarry⟩ := carry_of_tick_done hforms hrunning (hbare ▸ htick)
    refine ⟨1, [], ?_⟩
    rw [bind_of_ok (hcarry 0)]
    rfl
  | more htick _ ih =>
    intro machine hrunning hbare
    obtain ⟨next, hnext, hcarry⟩ := carry_of_tick_more hforms hrunning (hbare ▸ htick)
    obtain ⟨left, fuels, hgives⟩ := resumes_of_running ih next hnext
    refine ⟨left + 1, fuels, ?_⟩
    rw [bind_apply, hcarry left, ← bind_apply]
    exact hgives

end Reached

end Forms

/-! ## Scripts -/

namespace Machine

/-- One of the ways to run a script gives this result, apart from what has been recorded. -/
def Gives {ι : Type} (runs : ι → EStateM Error Machine (Option Value)) (machine : Machine)
    (result : EStateM.Result Error Machine (Option Value)) : Prop :=
  ∃ index, (runs index machine).mapState silence = result

variable [Segmentation]

def Concludes (machine : Machine) (source : String)
    (result : EStateM.Result Error Machine (Option Value)) : Prop :=
  match readProgramList source machine with
  | .error cause after => result = .error cause after.silence
  | .ok program after => (after.started program).bare.Ends result

theorem Concludes.unique {machine : Machine} {source : String}
    {first second : EStateM.Result Error Machine (Option Value)}
    (hfirst : machine.Concludes source first) (hsecond : machine.Concludes source second) :
    first = second := by
  rw [Concludes] at hfirst hsecond
  cases hread : readProgramList source machine with
  | error cause after =>
    rw [hread] at hfirst hsecond
    rw [hfirst, hsecond]
  | ok program after =>
    rw [hread] at hfirst hsecond
    exact hfirst.unique hsecond

end Machine

namespace Forms

variable [Segmentation]
variable {forms : Forms} (hforms : forms.Stopping) (machine : Machine) (source : String)
  {result : EStateM.Result Error Machine (Option Value)}

theorem gives_runScript {ι : Type} [Inhabited ι] (fuel : ι → Nat)
    (next : ι → Outcome → EStateM Error Machine (Option Value)) :
    machine.Gives (fun index => forms.runScript (fuel index) source >>= next index) result ↔
      match Machine.readProgramList source machine with
      | .error cause after => result = .error cause after.silence
      | .ok program after => ∃ index,
        ((forms.carry (fuel index) >>= next index) (after.started program)).mapState
          Machine.silence = result := by
  have hruns : ∀ index, (forms.runScript (fuel index) source >>= next index) machine =
      match Machine.readProgramList source machine with
      | .error cause after => .error cause after
      | .ok program after =>
        (forms.carry (fuel index) >>= next index) (after.started program) := by
    intro index
    rw [bind_apply, runScript_apply]
    cases Machine.readProgramList source machine <;> rfl
  simp only [Machine.Gives, hruns]
  cases Machine.readProgramList source machine with
  | error cause after => exact ⟨fun ⟨_, hgives⟩ => hgives.symm, fun hsame => ⟨default, hsame.symm⟩⟩
  | ok program after => exact Iff.rfl

include hforms

theorem gives_completeScript (hended : Ended result) :
    machine.Gives (forms.completeScript · source) result ↔ machine.Concludes source result := by
  refine (gives_runScript machine source id fun fuel => forms.finishScript fuel 0 fuel).trans ?_
  rw [Machine.Concludes]
  cases Machine.readProgramList source machine with
  | error cause after => exact Iff.rfl
  | ok program after =>
    constructor
    · rintro ⟨fuel, hgives⟩
      exact ends_of_carry hforms (fun outcome after => ends_of_finishScript hforms hended) hgives
    · intro hends
      obtain ⟨bound, hbound⟩ := exists_finishesWithin hforms hends
      exact ⟨bound + 1, finishesWithin_succ hbound _ rfl _ _ _ _ (Nat.le_refl _) (Nat.le_refl _)
        (Nat.le_refl _)⟩

theorem gives_resumed (hended : Ended result) :
    machine.Gives (fun fuels : Nat × List Nat => do
      let outcome ← forms.runScript fuels.1 source
      Machine.resumed forms.resumeScript fuels.2 outcome) result ↔
        machine.Concludes source result := by
  refine (gives_runScript machine source Prod.fst fun fuels =>
    Machine.resumed forms.resumeScript fuels.2).trans ?_
  rw [Machine.Concludes]
  cases Machine.readProgramList source machine with
  | error cause after => exact Iff.rfl
  | ok program after =>
    constructor
    · rintro ⟨fuels, hgives⟩
      exact ends_of_carry hforms (fun outcome after => ends_of_resumed hforms hended) hgives
    · intro hends
      obtain ⟨left, fuels, hgives⟩ := resumes_of_running (resumes_of_ends hforms hends) _ rfl
      exact ⟨(left, fuels), hgives⟩

end Forms

/-! ## Pauses from outside -/

/-- Fuel may be given in two parts. -/
theorem Forms.drive_add [Segmentation] {forms : Forms} {machine between : Machine} {steps : Nat}
    (hdrive : forms.drive machine steps = .ok none between) (fuel : Nat) :
    forms.drive machine (steps + fuel) = forms.drive between fuel := by
  fun_induction drive forms machine steps with
  | case1 machine =>
    cases hdrive
    rw [Nat.zero_add]
  | case2 machine steps hpaused => cases hdrive
  | case3 machine steps hrunning next htick ih =>
    rw [Nat.succ_add, drive_of_more (Bool.eq_false_iff.mpr hrunning) htick]
    exact ih hdrive
  | case4 machine steps hrunning next htick => cases hdrive
  | case5 machine steps hrunning cause next htick => cases hdrive

namespace Machine

section

/-- A pause changes the mark of the pause alone. -/
theorem silence_pause (machine : Machine) :
    machine.pause.silence = { machine.silence with paused := true } := by
  rw [pause]
  split
  · rfl
  · rw [note_eq]
    rfl

variable [Segmentation]

theorem commutes_drive (fuel : Nat) : Commutes silence (Forms.standard.drive · fuel) := by
  intro machine
  dsimp only
  fun_induction Forms.drive Forms.standard machine fuel with
  | case1 machine => rfl
  | case2 machine fuel hpaused => exact Forms.drive_of_paused hpaused
  | case3 machine fuel hrunning next htick ih =>
    have hsilent : machine.silence.paused = false := Bool.eq_false_iff.mpr hrunning
    have hquiet := commutes_tick machine
    rw [← Forms.tick_standard, htick] at hquiet
    rw [Forms.drive_of_more hsilent hquiet]
    exact ih
  | case4 machine fuel hrunning next htick =>
    have hsilent : machine.silence.paused = false := Bool.eq_false_iff.mpr hrunning
    have hquiet := commutes_tick machine
    rw [← Forms.tick_standard, htick] at hquiet
    exact Forms.drive_of_done hsilent hquiet
  | case5 machine fuel hrunning cause next htick =>
    have hsilent : machine.silence.paused = false := Bool.eq_false_iff.mpr hrunning
    have hquiet := commutes_tick machine
    rw [← Forms.tick_standard, htick] at hquiet
    rw [Forms.drive_of_error hsilent hquiet,
      EStateM.Result.mapState_error, silence_note]
    exact congrArg (EStateM.Result.error cause) (note_muted id next _ _)

theorem resume_pause {machine : Machine} (hrunning : machine.paused = false) (fuel : Nat) :
    (Forms.standard.resume fuel machine.pause).mapState silence =
      (Forms.standard.drive machine fuel).mapState silence := by
  have hlifted : machine.pause.lifted.silence = machine.silence := by
    rw [← bare_of_running machine.pause.running_lifted, bare_lifted, bare_pause,
      bare_of_running hrunning]
  calc (Forms.standard.resume fuel machine.pause).mapState silence
      = (Forms.standard.drive machine.pause.lifted fuel).mapState silence := rfl
    _ = Forms.standard.drive machine.pause.lifted.silence fuel :=
        (commutes_drive fuel machine.pause.lifted).symm
    _ = Forms.standard.drive machine.silence fuel := by rw [hlifted]
    _ = (Forms.standard.drive machine fuel).mapState silence := commutes_drive fuel machine

/-- A script that is run through its pauses ends in the same way, if it ends, as on a machine where
a pause does not stop anything: with the same value or error and with the machine in the same
state. A pause from outside between two steps of a run and going on after it changes nothing that
follows, and while the machine is paused, a step changes nothing. -/
theorem pauses_change_no_outcome :
    (∀ source machine result, Ended result →
      (Gives (completeScript · source) machine result ↔
        Gives (Forms.steady.completeScript · source) machine result) ∧
      (Gives (fun fuels : Nat × List Nat => do
          let outcome ← runScript fuels.1 source
          resumed resumeScript fuels.2 outcome) machine result ↔
        Gives (Forms.steady.completeScript · source) machine result)) ∧
    (∀ source machine first second, Ended first → Ended second →
      Gives (Forms.steady.completeScript · source) machine first →
      Gives (Forms.steady.completeScript · source) machine second → first = second) ∧
    (∀ (machine between : Machine) steps fuel, machine.drive steps = .ok none between →
      between.paused = false →
      between.pause.silence = { between.silence with paused := true } ∧
      (resume fuel between.pause).mapState silence =
        (machine.drive (steps + fuel)).mapState silence) ∧
    ∀ machine : Machine, machine.paused = true → tick machine = .ok machine.hasWork machine := by
  refine ⟨fun source machine result hended => ?_, ?_, ?_, fun machine => tick_of_paused⟩
  · have hsteady := Forms.gives_completeScript Forms.stopping_steady machine source hended
    have hcomplete := Forms.gives_completeScript Forms.stopping_standard machine source hended
    have hresumed := Forms.gives_resumed Forms.stopping_standard machine source hended
    rw [Forms.completeScript_standard] at hcomplete
    rw [Forms.runScript_standard, Forms.resumeScript_standard] at hresumed
    exact ⟨hcomplete.trans hsteady.symm, hresumed.trans hsteady.symm⟩
  · intro source machine first second hfirst hsecond hgives hother
    rw [Forms.gives_completeScript Forms.stopping_steady machine source hfirst] at hgives
    rw [Forms.gives_completeScript Forms.stopping_steady machine source hsecond] at hother
    exact hgives.unique hother
  · intro machine between steps fuel hdrive hrunning
    rw [← Forms.drive_standard] at hdrive ⊢
    rw [Forms.drive_add hdrive, ← Forms.resume_standard]
    exact ⟨between.silence_pause, resume_pause hrunning fuel⟩

end

open scoped Graphemes

theorem readword_ends_after_pause :
    let machine := Machine.new 4 (.new ["hello"]) (.new none)
    let result := (completeScript 9 "pause readword" machine).mapState silence
    let steady := (Forms.steady.completeScript 9 "pause readword" machine).mapState silence
    let loaded := machine.load (.call ⟨"readword", [], .nowhere⟩)
    let between := (loaded.drive 1).state
    (Ended result ∧ Ended steady ∧ result = steady) ∧
    (loaded.drive 1 = .ok none between ∧ between.paused = false ∧
      (resume 4 between.pause).mapState silence = (loaded.drive (1 + 4)).mapState silence) ∧
    between.pause.paused = true ∧
      tick between.pause = .ok between.pause.hasWork between.pause := by
  intro machine result steady loaded between
  have hresult : Ended result := by decide +kernel
  have hsteady : Ended steady := by decide +kernel
  have hdrive : loaded.drive 1 = .ok none between := rfl
  have hrunning : between.paused = false := rfl
  obtain ⟨hgives, hunique, hpause, hstill⟩ := pauses_change_no_outcome
  have hsame := (hgives "pause readword" machine result hresult).1.mp ⟨9, rfl⟩
  exact ⟨⟨hresult, hsteady, hunique _ machine result steady hresult hsteady hsame ⟨9, rfl⟩⟩,
    ⟨hdrive, hrunning, (hpause loaded between 1 4 hdrive hrunning).2⟩, rfl, hstill _ rfl⟩

end Machine

end Logo
