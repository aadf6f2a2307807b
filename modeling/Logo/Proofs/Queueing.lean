import Logo.Proofs.Outside
import Logo.Text.Cluster

/-!
# Programs that are put in later

A program that is put in while there is work left waits behind the lines of the run that the machine
is in. Outside of bounded runs that is behind all work. Inside of one it is not: the program becomes
a part of the bounded run, before whatever waits for its value.
-/

namespace Logo

namespace Machine

variable {lines : List Value} {base : List Segment} {machine : Machine}

theorem silence_beyond (machine : Machine) :
    (machine.beyond lines base).silence = machine.silence.beyond lines base := rfl

section

variable [Segmentation]

/-- A run with `lines` behind its own work and `base` outside of it, given what the run of that work
alone comes to with the same fuel: it comes to the same as long as the work lasts, and then goes on
with the lines. -/
def FollowedBy (lines : List Value) (base : List Segment)
    (longer : Nat → EStateM.Result RuntimeError Machine (Option Value)) (fuel : Nat) :
    EStateM.Result RuntimeError Machine (Option Value) → Prop
  | .error cause after =>
    (longer fuel).mapState silence = .error cause (after.beyond lines base).silence
  | .ok none after => longer fuel = .ok none (after.beyond lines base)
  | .ok (some value) after =>
    if after.paused then longer fuel = .ok (some value) (after.beyond lines base)
    else ∃ steps ≤ fuel, ∀ left,
      longer (steps + (left + 1)) =
        { after with program := lines, bounded := base }.drive (left + 1)

variable {longer later : Nat → EStateM.Result RuntimeError Machine (Option Value)} {fuel : Nat}
  {result : EStateM.Result RuntimeError Machine (Option Value)}

theorem FollowedBy.succ (hlonger : ∀ left, longer (left + 1) = later left)
    (hfollowed : FollowedBy lines base later fuel result) :
    FollowedBy lines base longer (fuel + 1) result := by
  cases result with
  | error cause after => exact (congrArg _ (hlonger fuel)).trans hfollowed
  | ok value after =>
    cases value with
    | none => exact (hlonger fuel).trans hfollowed
    | some value =>
      rw [FollowedBy] at hfollowed ⊢
      split
      · rw [if_pos ‹_›] at hfollowed
        exact (hlonger fuel).trans hfollowed
      · rw [if_neg ‹_›] at hfollowed
        obtain ⟨steps, hsteps, hlater⟩ := hfollowed
        refine ⟨steps + 1, by omega, fun left => ?_⟩
        rw [Nat.add_right_comm, hlonger, hlater]

/-- No output leaves the machine while it runs. -/
def Confined (machine : Machine) : Prop :=
  ∀ steps between, machine.drive steps = .ok none between → ¬between.Escapes

theorem Confined.not_escapes (hconfined : machine.Confined) : ¬machine.Escapes :=
  hconfined 0 machine rfl

theorem Confined.of_tick {next : Machine} (hconfined : machine.Confined)
    (hrunning : machine.paused = false) (htick : tick machine = .ok true next) :
    next.Confined := by
  intro steps between hdrive
  apply hconfined (steps + 1)
  rw [← Forms.drive_standard] at hdrive ⊢
  rw [Forms.drive_of_more hrunning htick, hdrive]

/-- Steps until the run stops, and checks that no innermost call is of a form that ends the
procedure around it. -/
def staysConfined (machine : Machine) : Nat → Bool
  | 0 => false
  | fuel + 1 =>
    !machine.frames.top?.any (·.isOutput) && (machine.paused ||
      match tick machine with
      | .ok true next => next.staysConfined fuel
      | _ => true)

/-- Whether a run stays confined can be computed. -/
theorem confined_of_staysConfined {machine : Machine} {fuel : Nat}
    (hstays : machine.staysConfined fuel = true) : machine.Confined := by
  induction fuel generalizing machine with
  | zero => cases hstays
  | succ fuel ih =>
    rw [staysConfined, Bool.and_eq_true, Bool.not_eq_true'] at hstays
    obtain ⟨htop, hstays⟩ := hstays
    intro steps between hdrive
    cases steps with
    | zero =>
      cases hdrive
      exact not_escapes_of_top? htop
    | succ steps =>
      rw [drive] at hdrive
      split at hdrive
      · cases hdrive
      · rename_i hrunning
        rw [Bool.eq_false_iff.mpr hrunning, Bool.false_or] at hstays
        split at hdrive
        · rename_i next htick
          rw [htick] at hstays
          exact ih hstays steps between hdrive
        · cases hdrive
        · cases hdrive

/-- Lines that wait do not change a run that they wait for. -/
theorem followedBy_drive (lines : List Value) (machine : Machine)
    (hinside : base = [] ∨ machine.Confined) (fuel : Nat) :
    FollowedBy lines base (machine.beyond lines base).drive fuel (machine.drive fuel) := by
  rw [← Forms.drive_standard]
  fun_induction Forms.drive Forms.standard machine fuel with
  | case1 machine => rfl
  | case2 machine fuel hpaused =>
    rw [FollowedBy, if_pos hpaused]
    exact Forms.drive_of_paused hpaused
  | case3 machine fuel hrunning next htick ih =>
    have hrunning := Bool.eq_false_iff.mpr hrunning
    have hwork : machine.hasWork = true := by
      apply hasWork_of_tick_ne
      rw [← Forms.tick_standard, htick]
      simp
    have hnext := tick_beyond lines hwork hrunning (hinside.imp_right Confined.not_escapes)
    rw [← Forms.tick_standard, htick] at hnext
    dsimp only at hnext
    rw [hasWork_beyond lines (Forms.hasWork_of_tick _ htick).symm] at hnext
    exact FollowedBy.succ (fun left => Forms.drive_of_more hrunning hnext)
      (ih (hinside.imp_right fun hconfined => hconfined.of_tick hrunning htick))
  | case4 machine fuel hrunning next htick =>
    have hrunning := Bool.eq_false_iff.mpr hrunning
    have hidle := (Forms.hasWork_of_tick _ htick).symm
    have hstopped := Forms.running_of_tick_done Forms.stopping_standard hrunning htick
    rw [FollowedBy, if_neg (by simp [hstopped]), ← beyond_of_idle lines hidle,
      ← Forms.drive_standard]
    cases hwork : machine.hasWork with
    | false =>
      rw [Forms.tick_standard, tick_of_idle hwork] at htick
      cases htick
      exact ⟨0, Nat.zero_le _, fun left => by rw [Nat.zero_add]⟩
    | true =>
      have hnext := tick_beyond lines hwork hrunning (hinside.imp_right Confined.not_escapes)
      rw [← Forms.tick_standard, htick] at hnext
      dsimp only at hnext
      cases hmore : (next.beyond lines base).hasWork with
      | true =>
        rw [hmore] at hnext
        refine ⟨1, by omega, fun left => ?_⟩
        rw [Nat.add_comm]
        exact Forms.drive_of_more hrunning hnext
      | false =>
        -- Nothing lies outside, so the run with nothing behind it ends here as well.
        rw [hmore] at hnext
        refine ⟨0, Nat.zero_le _, fun left => ?_⟩
        rw [Nat.zero_add]
        have hended : (next.beyond lines base).paused = false := hstopped
        rw [Forms.drive_of_done hended (tick_of_idle hmore)]
        exact Forms.drive_of_done hrunning hnext
  | case5 machine fuel hrunning cause next htick =>
    have hrunning := Bool.eq_false_iff.mpr hrunning
    have hwork : machine.hasWork = true := by
      apply hasWork_of_tick_ne
      rw [← Forms.tick_standard, htick]
      simp
    have hnext := tick_beyond lines hwork hrunning (hinside.imp_right Confined.not_escapes)
    rw [← Forms.tick_standard, htick] at hnext
    have hended : Forms.standard.drive (machine.beyond lines base) (fuel + 1) =
        .error cause ((next.beyond lines base).noteError cause) :=
      Forms.drive_of_error hrunning hnext
    rw [FollowedBy, Nat.succ_eq_add_one, hended, EStateM.Result.mapState_error, noteError,
      silence_note, silence_beyond, silence_beyond, silence_note]

/-! ## Programs put in during a pause -/

def innermost (machine : Machine) : Machine :=
  { machine with bounded := [] }

omit [Segmentation] in
theorem load_eq_beyond (machine : Machine) (program : Value) :
    machine.load program =
      machine.innermost.beyond (machine.linesOf program) machine.bounded := load_eq machine program

/-- A program that is put in during a pause only waits. Where the machine is in no bounded run, it
first does all that it would do without the program when it goes on, also if it pauses again or
fails, and then runs the lines of the program. Inside a bounded run the lines come when that run has
done its own work, before it gives its value to what lies outside. The lines are run in order. -/
theorem program_waits_behind_innermost_run (machine : Machine) (program : Value)
    (hpaused : machine.paused = true) :
    let waiting := if machine.hasWork then machine else { machine with lastResult := .none }
    let queued := waiting.load program
    (∀ fuel, run (fuel + 1) program machine = .ok (some waiting.lastResult) queued) ∧
    (machine.bounded = [] → ∀ fuel,
      FollowedBy (machine.linesOf program) [] (resume · queued) fuel (resume fuel waiting)) ∧
    (waiting.innermost.lifted.Confined → ∀ fuel,
      FollowedBy (machine.linesOf program) machine.bounded (resume · queued) fuel
        (resume fuel waiting.innermost)) ∧
    ∀ (idle : Machine) (first second : List Value), idle.hasWork = false → ∀ fuel,
      FollowedBy second [] { idle with program := first ++ second }.drive fuel
        ({ idle with program := first }.drive fuel) := by
  intro waiting queued
  have hbounded : waiting.bounded = machine.bounded := by
    dsimp only [waiting]
    split <;> rfl
  have hlines : waiting.linesOf program = machine.linesOf program := by
    dsimp only [waiting]
    split <;> cases program <;> rfl
  have hstill : queued.paused = true := by
    dsimp only [queued, waiting, load]
    split <;> exact hpaused
  have hfollowed : machine.bounded = [] ∨ waiting.innermost.lifted.Confined → ∀ fuel,
      FollowedBy (machine.linesOf program) machine.bounded (resume · queued) fuel
        (resume fuel waiting.innermost) := by
    intro hinside fuel
    have hdrive := followedBy_drive (machine.linesOf program) waiting.innermost.lifted hinside fuel
    rw [← lifted_beyond, ← hlines, ← hbounded, ← load_eq_beyond] at hdrive
    rw [← hlines, ← hbounded]
    exact hdrive
  refine ⟨fun fuel => ?_, fun hnone fuel => ?_, fun hconfined => hfollowed (.inr hconfined), ?_⟩
  · rw [run, ← Forms.drive_standard]
    exact Forms.drive_of_paused hstill
  · have halone := hfollowed (.inl hnone) fuel
    rw [hnone, show waiting.innermost = waiting by rw [innermost, ← hnone, ← hbounded]] at halone
    exact halone
  · intro idle first second hidle fuel
    have hsame : { idle with program := first }.beyond second [] =
        { idle with program := first ++ second } := by
      simp [beyond, queueBehind, Segment.extendLast, (hasWork_eq_false_iff.mp hidle).2.2]
    rw [← hsame]
    exact followedBy_drive second { idle with program := first } (.inl rfl) fuel

end

open scoped Graphemes

theorem seven_waits_behind_five :
    let console := Console.new []
    let program := Value.atom (.number (.integer 7))
    let outside := (runScript 20 "pause 5" (.new 9 console (.new none))).state
    let inside := (runScript 20 "print run [pause 5]" (.new 9 console (.new none))).state
    (outside.paused = true ∧ outside.bounded = [] ∧
      ∀ fuel, FollowedBy [program] [] (resume · (outside.load program)) fuel
        (resume fuel outside)) ∧
    (inside.paused = true ∧ inside.bounded.length = 1 ∧ inside.innermost.lifted.Confined ∧
      ∀ fuel, FollowedBy [program] inside.bounded (resume · (inside.load program)) fuel
        (resume fuel inside.innermost)) ∧
    ∀ fuel, FollowedBy [program] []
      { Machine.new 9 console (.new none) with program := [program, program] }.drive fuel
      ({ Machine.new 9 console (.new none) with program := [program] }.drive fuel) := by
  intro console program outside inside
  have houtside : outside.paused = true ∧ outside.hasWork = true ∧ outside.bounded.length = 0 := by
    decide +kernel
  have hinside : inside.paused = true ∧ inside.hasWork = true ∧ inside.bounded.length = 1 ∧
      inside.innermost.lifted.staysConfined 3 = true := by
    decide +kernel
  obtain ⟨hpaused, hwork, hnone⟩ := houtside
  obtain ⟨-, hbehind, -, horder⟩ := program_waits_behind_innermost_run outside program hpaused
  rw [hwork] at hbehind
  have hnone := List.length_eq_zero_iff.mp hnone
  refine ⟨⟨hpaused, hnone, hbehind hnone⟩, ?_, horder (.new 9 console (.new none)) [_] [_] rfl⟩
  obtain ⟨hpaused, hwork, hlength, hstays⟩ := hinside
  obtain ⟨-, -, hbehind, -⟩ := program_waits_behind_innermost_run inside program hpaused
  rw [hwork] at hbehind
  have hconfined := confined_of_staysConfined hstays
  exact ⟨hpaused, hlength, hconfined, hbehind hconfined⟩

/-- A program put in while a bounded run is open is not behind all work. It is run before the call
that waits for the value of the bounded run, and changes that value. -/
theorem program_in_bounded_run_changes_value :
    let machine := Machine.new 9 (.new []) (.new none)
    let paused := (runScript 20 "print run [pause 5]" machine).state
    let alone := (resumeScript 20 paused).state
    let both := (resumeScript 20 (runScript 20 "7" paused).state).state
    paused.paused = true ∧ alone.world.console.output = "5\n" ∧
      both.world.console.output = "7\n" := by
  decide +kernel

end Machine

end Logo
