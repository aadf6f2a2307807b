import Logo.Proofs.BlockLines
import Logo.Proofs.Reports

/-!
# Blocks run to their end

Two machines that run the same block, the one on a stack of its own, the other on the stack that it
finds, go side by side from call to call. Between the calls the one takes more steps than the other,
but never without end. So whatever is reported of the one is reported of the other.
-/

namespace Logo

variable [Segmentation] {left right machine : Machine} {maxDepth : Nat}

/-- Two machines run the same block above frames of which there are `base`. The first one has to
make some more steps until it has caught up with the second; `rank` bounds their number. -/
inductive Tandem (base : Nat) : Nat → Machine → Machine → Prop where
  | above {seam : Seam} {left right : Machine} (hbase : seam.base.height = base)
      (habove : seam.Above left right) : Tandem base 0 left right
  | crossing {seam : Seam} {pairs : Matching} {value : Value} {world : World}
      {left right : Machine} (hbase : seam.base.height = base)
      (hcrossing : Crossing seam pairs value world left right) :
      Tandem base (seam.block.lines.length + 1) left right
  | settling {seam : Seam} {pairs : Matching} {value : Value} {world : World}
      {left right : Machine} (hbase : seam.base.height = base)
      (hsettling : Settling seam pairs value world left right) : Tandem base 0 left right

/-- What two steps lead to: the machines go on with the block, or it is over in both. -/
def Sequel (base : Nat) (left right : Machine) : Prop :=
  (∃ rank, Tandem base rank left right) ∨
    ∃ reserve pairs, Closing (.alike reserve) (base + 1) pairs left right

theorem Seam.sequel {seam : Seam} (honward : seam.Onward left right) :
    Sequel seam.base.height left right := by
  cases honward with
  | above habove => exact .inl ⟨0, .above rfl habove⟩
  | back hback => exact .inl ⟨_, .crossing rfl (Seam.crossing hback)⟩
  | closing hclosing =>
    exact .inr ⟨_, _, hclosing.tops, ⟨hclosing.height.1, Nat.le_succ_of_le hclosing.height.2⟩,
      hclosing.world⟩

namespace Tandem

variable {base rank : Nat} {left right : Machine}

variable (htandem : Tandem base rank left right)

include htandem

theorem height_eq : left.ground.height = right.ground.height := by
  cases htandem with
  | above _ habove => exact habove.height_eq
  | @crossing seam _ _ _ _ _ _ hcrossing =>
    obtain ⟨frame, hground, -⟩ := hcrossing.groundRight
    rw [hcrossing.groundLeft, hground, Ground.height_push]
    exact seam.junction.height_eq.trans (Ground.height_push _ _)
  | settling _ hsettling =>
    obtain ⟨last, hgroundLeft, -⟩ := hsettling.groundLeft
    obtain ⟨frame, hground, -⟩ := hsettling.groundRight
    rw [hgroundLeft, hground, Ground.height_push, Ground.height_push]
    rfl

theorem paused_eq : left.paused = right.paused := by
  cases htandem with
  | above _ habove => exact habove.paused_eq
  | crossing _ hcrossing => exact hcrossing.running.1.trans hcrossing.running.2.symm
  | settling _ hsettling => exact hsettling.running.1.trans hsettling.running.2.symm

/-- Pauses fall in the calls of the block. -/
theorem above_of_paused (hpaused : left.paused = true) :
    ∃ seam : Seam, seam.base.height = base ∧ seam.Above left right := by
  cases htandem with
  | above hbase habove => exact ⟨_, hbase, habove⟩
  | crossing _ hcrossing =>
    rw [hcrossing.running.1] at hpaused
    cases hpaused
  | settling _ hsettling =>
    rw [hsettling.running.1] at hpaused
    cases hpaused

theorem sight_eq (hpaused : left.paused = true) : left.world.sight = right.world.sight := by
  obtain ⟨_, -, habove⟩ := htandem.above_of_paused hpaused
  exact habove.sight_eq (Likeness.hosts_alike _)

theorem lifted (hpaused : left.paused = true) : Tandem base 0 left.lifted right.lifted := by
  obtain ⟨_, hbase, habove⟩ := htandem.above_of_paused hpaused
  exact .above hbase (habove.lifted (Likeness.hosts_alike _))

/-- While the block runs, no call is over at which the evaluation would end. -/
theorem not_over {maxDepth : Nat} (hleft : Books maxDepth left [])
    (hright : Books maxDepth right []) : ¬left.Over (base + 1) ∧ ¬right.Over (base + 1) := by
  cases htandem with
  | above hbase habove =>
    rw [← hbase]
    exact habove.not_over hleft.length_allFrames hright.length_allFrames
  | crossing hbase hcrossing =>
    obtain ⟨frame, hground, hopen⟩ := hcrossing.groundRight
    constructor
    · rintro ⟨frame, htop, -⟩
      rw [Stack.top?, show left.frames.toList = _ from
        congrArg Ground.frames hcrossing.groundLeft] at htop
      cases htop
    · exact Machine.not_over_of_top? (Machine.top?_of_ground hground) hopen
  | @settling seam _ _ _ _ _ hbase hsettling =>
    obtain ⟨last, hgroundLeft, -⟩ := hsettling.groundLeft
    obtain ⟨frame, hground, hopen⟩ := hsettling.groundRight
    exact ⟨Machine.not_over_of_top? (Machine.top?_of_ground hgroundLeft)
      seam.run_awaits.unevaluated, Machine.not_over_of_top? (Machine.top?_of_ground hground)
        hopen⟩

/-- The first machine takes a step towards the second, or both make the same step. -/
theorem step (hdepth : left.depth = right.depth) (hrunning : left.paused = false)
    (hescapes : ¬left.Escapes) :
    (∃ less after, less < rank ∧ Machine.step left = .ok () after ∧
      Tandem base less after right) ∨
    ∃ reserve, StepsAlike (.alike reserve) (Sequel base) (Machine.step left)
      (Machine.step right) := by
  cases htandem with
  | @above seam _ _ hbase habove =>
    subst hbase
    exact .inr ⟨_, (habove.step (Likeness.hosts_alike _) hdepth hrunning (.inl hescapes)).imp
      fun _ _ => Seam.sequel⟩
  | settling hbase hsettling =>
    subst hbase
    exact .inr ⟨_, hsettling.steps.imp fun _ _ hclosing => .inr ⟨_, _, hclosing⟩⟩
  | crossing hbase hcrossing =>
    obtain ⟨next, hstep, hnext⟩ | ⟨later, hlater, hsteps⟩ := hcrossing.advance hdepth
    · obtain ⟨later, final, last, found, hlater, hless, hcrossing⟩ | hsettling := hnext
      · exact .inl ⟨_, next, Nat.succ_lt_succ hless, hstep,
          .crossing ((congrArg Ground.height hlater).trans hbase) hcrossing⟩
      · exact .inl ⟨0, next, Nat.succ_pos _, hstep, .settling hbase hsettling⟩
    · rw [← hbase, ← hlater]
      exact .inr ⟨_, hsteps.imp fun _ _ => Seam.sequel⟩

end Tandem

/-- At the end of the block, or outside of it, the same is reported. -/
theorem Closing.settles_iff {reserve : Reserve} {bound : Nat} {pairs : Matching}
    (hclosing : Closing (.alike reserve) bound pairs left right)
    (hleft : left.ground.height = left.depth) (hright : right.ground.height = right.depth)
    {report : Report} : left.Settles bound report ↔ right.Settles bound report := by
  obtain ⟨frame, other, htop, hother, hover, hotherOver, hvalue⟩ := hclosing.tops
  have hdepth : left.depth = right.depth := by
    rw [← hleft, ← hright, hclosing.height.1]
  have hbound : left.depth ≤ bound := hleft ▸ hclosing.height.2
  rw [Machine.settles_of_over htop hover hbound,
    Machine.settles_of_over hother hotherOver (hdepth ▸ hbound), hdepth,
    World.Alike.sight_eq hclosing.world, Machine.view, World.Alike.view_eq hclosing.world hvalue]
  rfl

theorem Books.lifted (hbooks : Books maxDepth machine []) : Books maxDepth machine.lifted [] :=
  (Books.lasting maxDepth).resume hbooks 0

theorem Books.of_step {after : Machine} (hbooks : Books maxDepth machine [])
    (hstep : Machine.step machine = .ok () after) : Books maxDepth after [] := by
  have hafter := hbooks.step
  rw [hstep] at hafter
  exact hafter

/-- The accounts stay right along an evaluation. -/
theorem Books.passes {depth : Nat} {later : Machine} (hbooks : Books maxDepth machine [])
    (hpasses : Machine.Passes depth machine later) : Books maxDepth later [] := by
  obtain ⟨-, hturns⟩ := hpasses
  induction hturns with
  | refl => exact hbooks
  | tail _ hturns hmiddle =>
    cases hturns with
    | steps _ _ htick =>
      have hafter := (Books.lasting maxDepth).tick _ hmiddle
      rw [htick] at hafter
      exact hafter
    | resumes _ _ => exact hmiddle.lifted

namespace Tandem

variable {base rank maxDepth : Nat} {left right : Machine} {report : Report}

variable (htandem : Tandem base rank left right)

include htandem

theorem depth_eq (hleft : Books maxDepth left []) (hright : Books maxDepth right []) :
    left.depth = right.depth := by
  rw [← hleft.length_allFrames, ← hright.length_allFrames]
  exact htandem.height_eq

/-- The first machine comes to where both make the same step. -/
theorem catch_up (hleft : Books maxDepth left []) (hright : Books maxDepth right [])
    (hinside : left.StaysInside (base + 1)) (hrunning : left.paused = false) :
    ∃ met : Machine, Machine.Passes (base + 1) left met ∧ met.paused = false ∧
      ¬met.Over (base + 1) ∧ ∃ reserve, StepsAlike (.alike reserve) (Sequel base)
        (Machine.step met) (Machine.step right) := by
  -- The rank falls with every step that the first machine takes alone.
  induction rank using Nat.strongRecOn generalizing left with
  | ind rank ih =>
    have hopen := (htandem.not_over hleft hright).1
    obtain ⟨less, after, hless, hstep, hafter⟩ | hsteps :=
      htandem.step (htandem.depth_eq hleft hright) hrunning (hinside left .refl)
    · have hpasses := Machine.Passes.step hopen hrunning hstep
      have hgoes : after.paused = false :=
        hafter.paused_eq.trans (htandem.paused_eq.symm.trans hrunning)
      obtain ⟨met, hmet, hrest⟩ :=
        ih less hless hafter (hleft.passes hpasses) (hinside.passes hpasses) hgoes
      exact ⟨met, hpasses.trans hmet, hrest⟩
    · exact ⟨left, .refl _ left, hrunning, hopen, hsteps⟩

/-- Pauses are seen at the same depth in worlds that look the same. -/
theorem behind_eq (hleft : Books maxDepth left []) (hright : Books maxDepth right [])
    (hpaused : left.paused = true) (report : Report) :
    report.behind left = report.behind right := by
  rw [Report.behind, Report.behind, htandem.depth_eq hleft hright, htandem.sight_eq hpaused]

/-- What is reported of the first machine is reported of the second. -/
theorem settles_right (hleft : Books maxDepth left []) (hright : Books maxDepth right [])
    (hinside : left.StaysInside (base + 1)) (hsettles : left.Settles (base + 1) report) :
    right.Settles (base + 1) report := by
  -- The evaluation of the first machine is the longer one, and so the second has no need of a rank:
  -- it stands still while the first one catches up.
  induction hsettles generalizing rank right with
  | @ends left frame htop hevaluated hdepth =>
    have hopen := (htandem.not_over hleft hright).1
    exact absurd ⟨frame, htop, hevaluated, hdepth⟩ hopen
  | @resumes left report hopen hpaused _ ih =>
    have hopenRight := (htandem.not_over hleft hright).2
    have hpausedRight : right.paused = true := htandem.paused_eq ▸ hpaused
    have hrest := ih (htandem.lifted hpaused) hleft.lifted hright.lifted
      (hinside.turns (.resumes hopen hpaused))
    rw [htandem.behind_eq hleft hright hpaused]
    exact .resumes hopenRight hpausedRight hrest
  | @fails left after cause hopen hrunning htick =>
    have hopenRight := (htandem.not_over hleft hright).2
    have hrunningRight : right.paused = false := htandem.paused_eq ▸ hrunning
    obtain ⟨_, next, -, hstep, -⟩ | ⟨_, hsteps⟩ :=
      htandem.step (htandem.depth_eq hleft hright) hrunning (hinside left .refl)
    · rw [Machine.tick_of_step_ok hrunning hstep] at htick
      cases htick
    · obtain ⟨next, _, hstep, -⟩ | ⟨reason, next, other, hstep, hother, hsight⟩ :=
        hsteps.cases (Likeness.hosts_alike _)
      · rw [Machine.tick_of_step_ok hrunning hstep] at htick
        cases htick
      · rw [Machine.tick_of_step_error hrunning hstep] at htick
        cases htick
        rw [hsight]
        exact .fails hopenRight hrunningRight (Machine.tick_of_step_error hrunningRight hother)
  | @steps left after more report hopen hrunning htick hrest ih =>
    have hopenRight := (htandem.not_over hleft hright).2
    have hrunningRight : right.paused = false := htandem.paused_eq ▸ hrunning
    have hnext := hinside.turns (.steps hopen hrunning htick)
    obtain ⟨_, next, -, hstep, hafter⟩ | ⟨_, hsteps⟩ :=
      htandem.step (htandem.depth_eq hleft hright) hrunning (hinside left .refl)
    · rw [Machine.tick_of_step_ok hrunning hstep] at htick
      cases htick
      exact ih hafter (hleft.of_step hstep) hright hnext
    · obtain ⟨next, other, hstep, hother, honward⟩ | ⟨_, _, _, hstep, -⟩ :=
        hsteps.cases (Likeness.hosts_alike _)
      · rw [Machine.tick_of_step_ok hrunning hstep] at htick
        cases htick
        have hbooks := hleft.of_step hstep
        have hbooksRight := hright.of_step hother
        refine .steps hopenRight hrunningRight (Machine.tick_of_step_ok hrunningRight hother) ?_
        obtain ⟨rank, hrank⟩ | ⟨_, _, hclosing⟩ := honward
        · exact ih hrank hbooks hbooksRight hnext
        · exact (hclosing.settles_iff hbooks.length_allFrames
            hbooksRight.length_allFrames).mp hrest
      · rw [Machine.tick_of_step_error hrunning hstep] at htick
        cases htick

/-- What is reported of the second machine is reported of the first. -/
theorem settles_left (hleft : Books maxDepth left []) (hright : Books maxDepth right [])
    (hinside : left.StaysInside (base + 1)) (hsettles : right.Settles (base + 1) report) :
    left.Settles (base + 1) report := by
  -- Before each step of the second machine, the first one catches up.
  induction hsettles generalizing rank left with
  | @ends right frame htop hevaluated hdepth =>
    have hopen := (htandem.not_over hleft hright).2
    exact absurd ⟨frame, htop, hevaluated, hdepth⟩ hopen
  | @resumes right report hopen hpaused _ ih =>
    have hopenLeft := (htandem.not_over hleft hright).1
    have hpausedLeft : left.paused = true := htandem.paused_eq ▸ hpaused
    have hrest := ih (htandem.lifted hpausedLeft) hleft.lifted hright.lifted
      (hinside.turns (.resumes hopenLeft hpausedLeft))
    rw [← htandem.behind_eq hleft hright hpausedLeft]
    exact .resumes hopenLeft hpausedLeft hrest
  | @fails right after cause hopen hrunning htick =>
    have hrunningLeft : left.paused = false := htandem.paused_eq.trans hrunning
    obtain ⟨met, hpasses, hmetRunning, hmetOpen, _, hsteps⟩ :=
      htandem.catch_up hleft hright hinside hrunningLeft
    rw [hpasses.settles]
    obtain ⟨_, other, -, hother, -⟩ | ⟨reason, next, other, hstep, hother, hsight⟩ :=
        hsteps.cases (Likeness.hosts_alike _)
    · rw [Machine.tick_of_step_ok hrunning hother] at htick
      cases htick
    · rw [Machine.tick_of_step_error hrunning hother] at htick
      cases htick
      rw [← hsight]
      exact .fails hmetOpen hmetRunning (Machine.tick_of_step_error hmetRunning hstep)
  | @steps right after more report hopen hrunning htick hrest ih =>
    have hrunningLeft : left.paused = false := htandem.paused_eq.trans hrunning
    obtain ⟨met, hpasses, hmetRunning, hmetOpen, _, hsteps⟩ :=
      htandem.catch_up hleft hright hinside hrunningLeft
    obtain ⟨next, other, hstep, hother, honward⟩ | ⟨_, _, _, -, hother, -⟩ :=
        hsteps.cases (Likeness.hosts_alike _)
    · rw [Machine.tick_of_step_ok hrunning hother] at htick
      cases htick
      have hnext := hpasses.trans (.step hmetOpen hmetRunning hstep)
      have hbooks := hleft.passes hnext
      have hbooksRight := hright.of_step hother
      rw [hnext.settles]
      obtain ⟨rank, hrank⟩ | ⟨_, _, hclosing⟩ := honward
      · exact ih hrank hbooks hbooksRight (hinside.passes hnext)
      · exact (hclosing.settles_iff hbooks.length_allFrames
          hbooksRight.length_allFrames).mpr hrest
    · rw [Machine.tick_of_step_error hrunning hother] at htick
      cases htick

end Tandem

end Logo
