import Logo.Proofs.Outside

/-!
# Neither the log nor the counts have influence

A machine counts the active calls of each procedure, but only to say in its log that a call is
recursive. So two machines that differ in no more than their logs and their counts take the same
steps.
-/

namespace Logo

namespace Machine

def plain (machine : Machine) : Machine :=
  { machine.silence with active := [] }

def Alike (first second : Machine) : Prop :=
  first.plain = second.plain

def AlikeResults (first second : EStateM.Result RuntimeError Machine Unit) : Prop :=
  first.mapState plain = second.mapState plain

variable [Segmentation] {first second : Machine}

theorem alike_iff_wears : first.Alike second ↔ Disguise.uncounted.plain.Wears first second := by
  constructor
  · intro halike
    obtain ⟨⟨_, _, _, _, _, _⟩, _, _, _, _, _, _, _, _⟩ := first
    obtain ⟨⟨_, _, _, _, _, _⟩, _, _, _, _, _, _, _, _⟩ := second
    simp only [Alike, plain, silence, World.silence, mk.injEq, World.mk.injEq, and_true] at halike
    obtain ⟨⟨rfl, rfl, rfl, rfl, rfl⟩, rfl, rfl, rfl, rfl, rfl, rfl, rfl⟩ := halike
    exact .intro rfl trivial
  · rintro ⟨_, _⟩
    rfl

namespace Alike

variable (halike : first.Alike second)

include halike

omit [Segmentation] in
/-- What can be seen without the log and the counts is the same. -/
theorem same {α : Type} (view : Machine → α) : view first.plain = view second.plain :=
  congrArg view halike

theorem pause : first.pause.Alike second.pause :=
  alike_iff_wears.mpr ((alike_iff_wears.mp halike).pause rfl)

theorem lifted : first.lifted.Alike second.lifted :=
  alike_iff_wears.mpr ((alike_iff_wears.mp halike).lifted rfl)

/-- Machines that are alike take alike steps. -/
theorem step : AlikeResults (Machine.step first) (Machine.step second) := by
  have hagree : Disguise.uncounted.plain.Agree (Machine.step first) (Machine.step second) :=
    (alike_iff_wears.mp halike).step World.orderly_runSpecial rfl (fun _ _ => rfl)
      (fun _ _ _ _ _ => .inl rfl) (.inr ⟨rfl, rfl⟩)
  generalize Machine.step first = result at hagree ⊢
  generalize Machine.step second = other at hagree ⊢
  cases hagree with
  | ok hwears => exact congrArg (EStateM.Result.ok ()) (alike_iff_wears.mpr hwears)
  | error cause hwears => exact congrArg (EStateM.Result.error cause) (alike_iff_wears.mpr hwears)

end Alike

end Machine

end Logo
