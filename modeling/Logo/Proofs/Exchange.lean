import Logo.Proofs.Abreast

/-!
# Exchanging a frame that waits

A frame that waits for a call takes no part in what the call does. So two machines that have
different frames at one place, and are the same in all other respects but their logs, do the same
until the call above that place is over, or until an output has given up that place together with
the call.
-/

namespace Logo

/-! ## Worlds and machines that differ in their logs -/

/-- Worlds are alike that differ in no more than their logs. -/
def Likeness.unlogged : Likeness :=
  .silent Environment.stable_true False

theorem Likeness.hosts_unlogged : Likeness.unlogged.Hosts where
  builds := silent_builds Environment.stable_true False
  code _ := trivial
  setLog := by
    rintro _ left _ log other ⟨_, rfl, -⟩
    exact ⟨other, rfl, trivial, False.elim⟩
  push := by
    rintro _ left _ name ⟨log, rfl, hholds⟩
    exact ⟨log, rfl, hholds⟩
  pop := by
    rintro _ left _ ⟨log, rfl, hholds⟩
    exact ⟨log, rfl, hholds⟩
  sight_eq := by
    rintro _ left _ ⟨log, rfl, -⟩
    rfl

namespace World

abbrev Unlogged (left right : World) : Prop :=
  Likeness.unlogged.worlds () left right

namespace Unlogged

variable {left right other : World}

theorem intro (world : World) (log : Log) : world.Unlogged { world with log } :=
  ⟨log, rfl, trivial, False.elim⟩

theorem symm (hsame : left.Unlogged right) : right.Unlogged left := by
  obtain ⟨log, rfl, -⟩ := hsame
  exact intro { left with log } left.log

theorem trans (hfirst : left.Unlogged right) (hsecond : right.Unlogged other) :
    left.Unlogged other := by
  obtain ⟨_, rfl, -⟩ := hfirst
  obtain ⟨log, rfl, -⟩ := hsecond
  exact intro left log

end Unlogged

end World

namespace Machine

/-- The machines differ in no more than what waits in them, their logs, their counts and the results
that came last. -/
abbrev Kin (left right : Machine) : Prop :=
  left.Akin .unlogged () right

theorem Kin.symm {left right : Machine} (hkin : left.Kin right) : right.Kin left :=
  ⟨World.Unlogged.symm hkin.world, hkin.paused.symm, hkin.maxDepth.symm⟩

theorem Kin.trans {left right other : Machine} (hfirst : left.Kin right)
    (hsecond : right.Kin other) : left.Kin other :=
  ⟨World.Unlogged.trans hfirst.world hsecond.world, hfirst.paused.trans hsecond.paused,
    hfirst.maxDepth.trans hsecond.maxDepth⟩

/-- Where a call is over, the same is reported of machines whose worlds differ in their logs. -/
theorem over_eq {left right : Machine} {depth : Nat} (hdepth : left.depth = depth)
    (hworld : left.world.Unlogged right.world) (value : Value) :
    Report.mk [] (.over left.depth (left.view value)) left.world.sight =
      ⟨[], .over depth (right.view value), right.world.sight⟩ := by
  have hview : left.view value = right.view value :=
    (Likeness.unlogged.view hworld (Eq.refl value)).1
  rw [hdepth, hview, Likeness.hosts_unlogged.sight_eq hworld]

end Machine

/-! ## Where the machines differ -/

/-- Two frames that wait, each for a form of its own, above the same ground. -/
structure Fork where
  base : Ground
  left : Frame
  right : Frame
  leftForm : Special
  rightForm : Special
  left_awaits : left.Awaits leftForm
  right_awaits : right.Awaits rightForm
  saved : ∀ segment ∈ base.bounded, segment.Waits

namespace Fork

variable (fork : Fork)

theorem closeAlike (passed : List Frame) :
    List.Forall₂ Frame.CloseAlike ([fork.left] ++ passed) ([fork.right] ++ passed) :=
  .cons (fork.left_awaits.isSpecial.trans fork.right_awaits.isSpecial.symm)
    (Frame.closeAlike_self passed)

theorem primitive_left : ∀ active ∈ [fork.left], active.definition.isUserDefined = false :=
  Ground.primitive_singleton fork.left_awaits.isUserDefined

theorem primitive_right : ∀ active ∈ [fork.right], active.definition.isUserDefined = false :=
  Ground.primitive_singleton fork.right_awaits.isUserDefined

def junction : Junction where
  base := fork.base
  left := fork.base.push [fork.left]
  right := fork.base.push [fork.right]
  height_eq := by rw [Ground.height_push, Ground.height_push]; rfl
  height_lt := by
    rw [Ground.height_push, List.length_singleton]
    omega
  unwinds huser := by
    obtain ⟨passed, target, rest, hbase⟩ :=
      Ground.exists_unwinds (Ground.exists_userDefined_below huser fork.primitive_left)
    exact ⟨_, _, target, rest, hbase.push fork.primitive_left, hbase.push fork.primitive_right,
      fork.closeAlike passed, hbase.height_lt⟩

/-- The frames of the fork are both of primitives, in the same run. -/
theorem even : fork.junction.Even where
  roles := by
    change (fork.base.push [fork.left]).allFrames.map _ = (fork.base.push [fork.right]).allFrames.map _
    rw [Ground.allFrames_push, Ground.allFrames_push, List.map_append, List.map_append,
      List.map_singleton, List.map_singleton, fork.left_awaits.isUserDefined,
      fork.right_awaits.isUserDefined]
  outermost := .rfl
  surfaces hnone hinside := by
    have hinside : fork.base.bounded ≠ [] := hinside
    have hbase : ∀ active ∈ fork.base.allFrames, active.definition.isUserDefined = false :=
      (List.forall_mem_cons.mp hnone).2
    obtain ⟨passed, target, rest, hsurfaces⟩ :=
      Ground.exists_surfaces (.inr hinside) fork.saved hbase
    exact ⟨_, _, target, rest, hsurfaces.push hinside fork.primitive_left,
      hsurfaces.push hinside fork.primitive_right, fork.closeAlike passed, hsurfaces.height_lt⟩

abbrev Above (left right : Machine) : Prop :=
  fork.junction.Above .unlogged left right

abbrev Onward (left right : Machine) : Prop :=
  fork.junction.Onward .unlogged left right

abbrev Steps (first second : EStateM.Result RuntimeError Machine Unit) : Prop :=
  StepsAlike .unlogged fork.Onward first second

end Fork

end Logo
