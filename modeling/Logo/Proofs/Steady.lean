import Logo.Proofs.Evolution
import Logo.Proofs.Quiet

/-!
# Steps that do not stop the machine

Of all special forms only one makes the machine stop. Where it does, the machine with a pause that
does not stop it takes the same step, and the two differ in nothing but the mark of the pause.
-/

namespace Logo

namespace Forms

variable [Segmentation]

theorem steady_of_ne {form : Special} (hform : form ≠ .pause) : steady form = standard form := by
  cases form with
  | pause => exact absurd rfl hform
  | _ => rfl

theorem unpausing_steady : steady.Unpausing := by
  intro form inputs continuation finished world after
  by_cases hform : form = .pause
  · subst hform
    exact nofun
  · rw [steady_of_ne hform]
    exact fun hrun => World.yields_ne_pause hform inputs world .pause after hrun rfl

theorem orderly_steady (form : Special) (inputs : List Value)
    (continuation : Option Continuation) (finished : Option Value) :
    Orderly (steady form inputs continuation finished) := by
  by_cases hform : form = .pause
  · subst hform
    exact Orderly.pure _
  · rw [steady_of_ne hform]
    exact World.orderly_runSpecial form inputs continuation finished

/-- The forms do what the steady ones do, but some may stop the machine instead of ending without
a result. -/
def Stopping (forms : Forms) : Prop :=
  ∀ form inputs continuation finished,
    forms form inputs continuation finished = steady form inputs continuation finished ∨
      forms form inputs continuation finished = pure .pause ∧
        steady form inputs continuation finished = pure (.done .none)

theorem stopping_steady : steady.Stopping :=
  fun _ _ _ _ => .inl rfl

theorem stopping_standard : standard.Stopping := by
  intro form inputs continuation finished
  by_cases hform : form = .pause
  · subst hform
    exact .inr ⟨rfl, rfl⟩
  · exact .inl (by rw [steady_of_ne hform])

end Forms

/-! ## Bare machines -/

namespace Machine

abbrev bare (machine : Machine) : Machine :=
  machine.muted fun _ => false

theorem bare_of_running {machine : Machine} (hrunning : machine.paused = false) :
    machine.bare = machine.silence := by
  rw [bare, muted, ← hrunning]
  rfl

theorem bare_pause (machine : Machine) : machine.pause.bare = machine.bare := by
  rw [pause]
  split
  · rfl
  · rw [note_eq]
    rfl

theorem hasWork_pause (machine : Machine) : machine.pause.hasWork = machine.hasWork := by
  have hbare := congrArg hasWork machine.bare_pause
  exact hbare

theorem hasWork_withTop {machine : Machine} {frame : Frame}
    (htop : machine.frames.top? = some frame) (other : Frame) (world : World) :
    (machine.withTop other world).hasWork = true := by
  rw [hasWork, withTop, Stack.eq_push_of_top? htop, Stack.replaceTop_push]
  rfl

end Machine

namespace Forms

variable [Segmentation]

/-- Without the form that pauses, no step changes whether the machine is paused. -/
theorem keeps_paused (paused : Bool) :
    Keeps (fun machine => machine.paused = paused) steady.step := by
  intro machine hpaused
  subst hpaused
  have hquiet : steady.step machine.silence = (steady.step machine).mapState Machine.silence :=
    commutes_step orderly_steady (.inl rfl) machine
  have hcommutes : Commutes (Machine.muted fun _ => machine.paused) steady.step :=
    commutes_step orderly_steady (.inr unpausing_steady)
  have hmarked : steady.step machine.silence =
      (steady.step machine).mapState (Machine.muted fun _ => machine.paused) :=
    hcommutes machine
  rw [hquiet] at hmarked
  have hstate := congrArg (fun result => result.state.paused) hmarked
  cases hstep : steady.step machine with
  | ok value after =>
    rw [hstep] at hstate
    exact hstate
  | error cause after =>
    rw [hstep] at hstate
    exact hstate

section Stopping

variable {forms : Forms} (hforms : forms.Stopping) {machine after : Machine}

include hforms

/-- A step is one of the steady machine, or it pauses the machine after one and leaves work. -/
theorem step_cases (machine : Machine) :
    forms.step machine = steady.step machine ∨
      ∃ after, forms.step machine = .ok () after.pause ∧ steady.step machine = .ok () after ∧
        after.hasWork = true := by
  rw [step, step]
  cases htop : machine.frames.top? with
  | none => exact .inl rfl
  | some frame =>
    dsimp only
    split
    · exact .inl rfl
    · split
      · exact .inl rfl
      · rw [invoke_apply, invoke_apply]
        split
        · exact .inl rfl
        · dsimp only
          cases frame.definition.kind with
          | native action => exact .inl rfl
          | userDefined => exact .inl rfl
          | special form =>
            dsimp only
            rw [stepSpecial_apply, stepSpecial_apply]
            cases hforms form frame.arguments frame.continuation frame.result with
            | inl hsame => exact .inl (by rw [hsame])
            | inr hstop =>
              dsimp only
              rw [hstop.1, hstop.2]
              exact .inr ⟨_, rfl, rfl,
                Machine.hasWork_withTop (Stack.top?_replaceTop htop _) _ _⟩

variable (hrunning : machine.paused = false)

include hrunning

theorem tick_bare : steady.tick machine.bare = (forms.tick machine).mapState Machine.bare := by
  have hquiet : steady.step machine.bare = (steady.step machine).mapState Machine.bare :=
    commutes_step orderly_steady (.inr unpausing_steady) machine
  rw [forms.tick_of_running hrunning, steady.tick_of_running rfl, hquiet]
  obtain hsame | ⟨after, hstop, hgoes, _⟩ := step_cases hforms machine
  · rw [hsame]
    cases steady.step machine <;> rfl
  · rw [hstop, hgoes]
    exact congrArg (fun final : Machine => EStateM.Result.ok final.hasWork final)
      after.bare_pause.symm

/-- A steady machine is not paused when its work is done. -/
theorem running_of_tick_done (htick : forms.tick machine = .ok false after) :
    after.paused = false := by
  have hkept := keeps_paused false machine hrunning
  have hidle := forms.hasWork_of_tick htick
  rw [forms.tick_of_running hrunning] at htick
  obtain hsame | ⟨next, hstop, _, hwork⟩ := step_cases hforms machine
  · rw [← hsame] at hkept
    cases hstep : forms.step machine with
    | ok value next =>
      rw [hstep] at htick hkept
      injection htick with _ hafter
      exact hafter ▸ hkept
    | error cause next =>
      rw [hstep] at htick
      cases htick
  · rw [hstop] at htick
    injection htick with _ hafter
    rw [← hafter, next.hasWork_pause, hwork] at hidle
    cases hidle

theorem running_of_tick_error {cause : RuntimeError}
    (htick : forms.tick machine = .error cause after) : after.paused = false := by
  have hkept := keeps_paused false machine hrunning
  rw [forms.tick_of_running hrunning] at htick
  obtain hsame | ⟨next, hstop, _, _⟩ := step_cases hforms machine
  · rw [← hsame] at hkept
    cases hstep : forms.step machine with
    | ok value next =>
      rw [hstep] at htick
      cases htick
    | error cause next =>
      rw [hstep] at htick hkept
      cases htick
      exact hkept
  · rw [hstop] at htick
    cases htick

end Stopping

end Forms

end Logo
