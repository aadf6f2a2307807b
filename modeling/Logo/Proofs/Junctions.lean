import Logo.Proofs.AlikeTurns
import Logo.Proofs.Leaving

/-!
# Where two stacks come together

Two machines can do the same although different things wait in them. Their stacks are the same then,
up to a place where different frames or runs lie above the same ground. As long as the calls above
that place have work to do, the difference plays no role. An output ends the same call on both
sides: one above that place, or one far below it.
-/

namespace Logo

namespace Ground

def under (ground : Ground) (lines : List Value) : Ground :=
  ⟨[], lines, ⟨.ofList ground.frames, ground.program⟩ :: ground.bounded⟩

theorem allFrames_under (ground : Ground) (lines : List Value) :
    (ground.under lines).allFrames = ground.allFrames := rfl

theorem height_under (ground : Ground) (lines : List Value) :
    (ground.under lines).height = ground.height := rfl

/-! ## Outputs that find no procedure -/

/-- There is no procedure to end. An output passes the frames `passed` and ends `target`, the
innermost frame of the outermost run, below which `rest` stays. -/
inductive Surfaces : Ground → List Frame → Frame → Ground → Prop where
  | here {target : Frame} {rest : Ground} (houtermost : rest.bounded = [])
      (hframes : ∀ frame ∈ target :: rest.frames, frame.definition.isUserDefined = false) :
      Surfaces (rest.push [target]) [] target rest
  | outward {frames passed : List Frame} {program : List Value} {saved : Segment}
      {bounded : List Segment} {target : Frame} {rest : Ground}
      (hframes : ∀ frame ∈ frames, frame.definition.isUserDefined = false)
      (hbelow : Surfaces ⟨saved.frames.toList, saved.program, bounded⟩ passed target rest) :
      Surfaces ⟨frames, program, saved :: bounded⟩ (frames ++ passed) target rest

/-- An output passes the frames `passed` and ends `target`, below which `rest` stays. -/
def Ends (ground : Ground) (passed : List Frame) (target : Frame) (rest : Ground) : Prop :=
  ground.Unwinds passed target rest ∨ ground.Surfaces passed target rest

namespace Surfaces

variable {ground rest : Ground} {passed : List Frame} {target : Frame}

/-- Inside a bounded run, frames on top are passed as well. -/
theorem push (hsurfaces : ground.Surfaces passed target rest) (hinside : ground.bounded ≠ [])
    {front : List Frame} (hfront : ∀ frame ∈ front, frame.definition.isUserDefined = false) :
    (ground.push front).Surfaces (front ++ passed) target rest := by
  cases hsurfaces with
  | here houtermost _ => exact absurd houtermost hinside
  | outward hframes hbelow =>
    rw [← List.append_assoc]
    exact outward (List.forall_mem_append.mpr ⟨hfront, hframes⟩) hbelow

theorem height_lt (hsurfaces : ground.Surfaces passed target rest) :
    rest.height < ground.height := by
  induction hsurfaces with
  | @here target rest _ _ =>
    rw [height_push, List.length_singleton]
    omega
  | outward _ _ ih => exact Nat.lt_of_lt_of_le ih (height_saved_le ..)

end Surfaces

/-- Where no call has a body, an output comes up in the outermost run. -/
theorem exists_surfaces {ground : Ground} (hopen : ground.frames ≠ [] ∨ ground.bounded ≠ [])
    (hwaits : ∀ segment ∈ ground.bounded, segment.Waits)
    (hnone : ∀ frame ∈ ground.allFrames, frame.definition.isUserDefined = false) :
    ∃ passed target rest, ground.Surfaces passed target rest := by
  obtain ⟨frames, program, bounded⟩ := ground
  induction bounded generalizing frames program with
  | nil =>
    cases frames with
    | nil => simp at hopen
    | cons target frames =>
      rw [allFrames, List.flatMap_nil, List.append_nil] at hnone
      exact ⟨[], target, _, @Surfaces.here target ⟨frames, program, []⟩ rfl hnone⟩
  | cons saved bounded ih =>
    obtain ⟨hsaved, hrest⟩ := List.forall_mem_cons.mp hwaits
    obtain ⟨hframes, hbelow⟩ := List.forall_mem_append.mp hnone
    have hfilled : saved.frames.toList ≠ [] := by
      obtain ⟨frame, htop, -⟩ := hsaved
      intro hempty
      rw [Stack.top?, hempty] at htop
      cases htop
    rw [List.flatMap_cons] at hbelow
    obtain ⟨passed, target, rest, hsurfaces⟩ :=
      ih saved.frames.toList saved.program (.inl hfilled) hrest hbelow
    exact ⟨_, target, rest, .outward hframes hsurfaces⟩

end Ground

namespace Machine

/-- What an output leaves of the machine, whether or not it finds a procedure. -/
theorem output_of_ends {machine : Machine} {passed : List Frame} {target : Frame} {rest : Ground}
    (hends : machine.ground.Ends passed target rest) (value : Value) :
    machine.Unwound value passed target rest (machine.output value) := by
  obtain hunwinds | hsurfaces := hends
  · exact output_of_unwinds hunwinds value
  · generalize hground : machine.ground = ground at hsurfaces
    induction hsurfaces generalizing machine with
    | @here target rest houtermost hframes =>
      obtain ⟨htoList, hprogram, hbounded⟩ := Ground.mk.inj hground
      have hdrop : machine.frames.toList.dropWhile (!·.definition.isUserDefined) = [] := by
        rw [htoList, List.dropWhile_eq_nil_iff]
        intro frame hmem
        rw [hframes frame hmem]
        rfl
      have htop : machine.frames.top? = some target := congrArg List.head? htoList
      have hfinished : machine.frames.replaceTop (target.finish value) =
          .ofList (target.finish value :: rest.frames) := by
        ext1
        rw [Stack.toList_replaceTop, htoList]
        rfl
      refine ⟨machine.world.log, machine.active, machine.suspended, ?_⟩
      rw [output, hbounded, houtermost, outputThrough, hdrop]
      dsimp only
      rw [htop]
      dsimp only
      rw [hfinished, ← hprogram, ← houtermost, ← hbounded]
      rfl
    | @outward frames passed program saved bounded target rest hframes hbelow ih =>
      exact unwound_outward hground hframes ih

end Machine

/-! ## Grounds that are linked -/

def Frame.CloseAlike (frame other : Frame) : Prop :=
  frame.definition.isSpecial = other.definition.isSpecial

theorem Frame.closeAlike_self (frames : List Frame) : List.Forall₂ Frame.CloseAlike frames frames :=
  List.forall₂_same.mpr fun _ _ => rfl

/-- Outputs that come from the two grounds end the same frame, of those that are below `bound`, and
close as many scopes. -/
def Ground.EndBelow (ends : Ground → List Frame → Frame → Ground → Prop) (bound : Nat)
    (left right : Ground) : Prop :=
  ∃ passed dropped target rest, ends left passed target rest ∧ ends right dropped target rest ∧
    List.Forall₂ Frame.CloseAlike passed dropped ∧ rest.height < bound

/-- Two grounds of the same height, of which `base` is common to both. -/
structure Junction where
  base : Ground
  left : Ground
  right : Ground
  height_eq : left.height = right.height
  height_lt : base.height < left.height
  unwinds : (∃ active ∈ left.allFrames, active.definition.isUserDefined = true) →
    Ground.EndBelow Ground.Unwinds base.height left right

/-- Outputs do the same on both grounds even where they find no procedure. -/
structure Junction.Even (junction : Junction) : Prop where
  roles : junction.left.allFrames.map (·.definition.isUserDefined) =
    junction.right.allFrames.map (·.definition.isUserDefined)
  outermost : junction.left.bounded = [] ↔ junction.right.bounded = []
  surfaces : (∀ active ∈ junction.left.allFrames, active.definition.isUserDefined = false) →
    junction.left.bounded ≠ [] →
    Ground.EndBelow Ground.Surfaces junction.base.height junction.left junction.right

/-- The grounds are those of the junction, or frames and bounded runs that are alike stand on
them. -/
inductive Ground.Linked (same : Likeness) (junction : Junction) (stage : same.Stage) :
    Ground → Ground → Prop where
  | junction : Linked same junction stage junction.left junction.right
  | push {ground other : Ground} {frame next : Frame} (hframe : same.frames stage frame next)
      (hbelow : Linked same junction stage ground other) :
      Linked same junction stage (ground.push [frame]) (other.push [next])
  | under {ground other : Ground} {frame next : Frame} {lines copies : List Value}
      (hframe : same.frames stage frame next)
      (hlines : List.Forall₂ (same.values stage) lines copies)
      (hbelow : Linked same junction stage ground other) :
      Linked same junction stage ((ground.push [frame]).under lines)
        ((other.push [next]).under copies)

/-- What outputs on both sides end, and what they leave below: frames that are alike on grounds that
are linked, or the same frame on the same ground below the junction. -/
inductive Ground.Lands (same : Likeness) (junction : Junction) (stage : same.Stage) :
    Frame → Ground → Frame → Ground → Prop where
  | inside {target counterpart : Frame} {rest below : Ground}
      (hframe : same.frames stage target counterpart)
      (hlinked : rest.Linked same junction stage below) :
      Lands same junction stage target rest counterpart below
  | outside {target : Frame} {rest : Ground} (hheight : rest.height < junction.base.height) :
      Lands same junction stage target rest target rest

/-- Outputs on both sides, which go as `ends` says, land together and close as many scopes. -/
def Ground.EndTogether (ends : Ground → List Frame → Frame → Ground → Prop) (same : Likeness)
    (junction : Junction) (stage : same.Stage) (ground other : Ground) : Prop :=
  ∃ passed dropped target rest counterpart below,
    ends ground passed target rest ∧ ends other dropped counterpart below ∧
      List.Forall₂ Frame.CloseAlike passed dropped ∧
      Lands same junction stage target rest counterpart below

namespace Ground

theorem primitive_singleton {frame : Frame} (hframe : frame.definition.isUserDefined = false) :
    ∀ active ∈ [frame], active.definition.isUserDefined = false := by
  intro active hmem
  rw [List.mem_singleton.mp hmem, hframe]

/-- If no procedure is at work in the front, there is one below. -/
theorem exists_userDefined_below {ground : Ground} {front : List Frame}
    (huser : ∃ frame ∈ (ground.push front).allFrames, frame.definition.isUserDefined = true)
    (hfront : ∀ frame ∈ front, frame.definition.isUserDefined = false) :
    ∃ frame ∈ ground.allFrames, frame.definition.isUserDefined = true := by
  obtain ⟨frame, hmem, huser⟩ := huser
  rw [allFrames_push] at hmem
  obtain hmem | hmem := List.mem_append.mp hmem
  · rw [hfront frame hmem] at huser
    cases huser
  · exact ⟨frame, hmem, huser⟩

theorem EndBelow.together {ends : Ground → List Frame → Frame → Ground → Prop} {same : Likeness}
    {junction : Junction} {stage : same.Stage} {left right : Ground}
    (hends : EndBelow ends junction.base.height left right) :
    EndTogether ends same junction stage left right := by
  obtain ⟨passed, dropped, target, rest, hleft, hright, hcloses, hheight⟩ := hends
  exact ⟨passed, dropped, target, rest, target, rest, hleft, hright, hcloses, .outside hheight⟩

namespace Linked

variable {same : Likeness} {junction : Junction} {stage later : same.Stage} {ground other : Ground}
  {frame next : Frame}

theorem mono (hgrows : same.grows stage later) (hlinked : ground.Linked same junction stage other) :
    ground.Linked same junction later other := by
  induction hlinked with
  | junction => exact .junction
  | push hframe _ ih => exact .push (hframe.mono (same.mono hgrows)) ih
  | under hframe hlines _ ih =>
    exact .under (hframe.mono (same.mono hgrows)) (same.all_mono hgrows hlines) ih

section

variable (hlinked : ground.Linked same junction stage other)

include hlinked

theorem height_eq : ground.height = other.height := by
  induction hlinked with
  | junction => exact junction.height_eq
  | push _ _ ih => rw [height_push, height_push, ih]; rfl
  | under _ _ _ ih =>
    rw [height_under, height_under, height_push, height_push, ih]
    rfl

theorem height_lt : junction.base.height < ground.height := by
  induction hlinked with
  | junction => exact junction.height_lt
  | push _ _ ih =>
    rw [height_push]
    omega
  | under _ _ _ ih =>
    rw [height_under, height_push]
    omega

theorem unwinds_push (hframe : same.frames stage frame next)
    (hbelow : (∃ active ∈ ground.allFrames, active.definition.isUserDefined = true) →
      EndTogether Unwinds same junction stage ground other)
    (huser : ∃ active ∈ (ground.push [frame]).allFrames,
      active.definition.isUserDefined = true) :
    EndTogether Unwinds same junction stage (ground.push [frame]) (other.push [next]) := by
  cases hprimitive : frame.definition.isUserDefined with
  | true =>
    exact ⟨[], [], frame, ground, next, other,
      .within ground (List.forall_mem_nil _) hprimitive,
      .within other (List.forall_mem_nil _) (hframe.definition ▸ hprimitive), .nil,
      .inside hframe hlinked⟩
  | false =>
    have hfront := primitive_singleton hprimitive
    obtain ⟨passed, dropped, target, rest, counterpart, below, hleft, hright, hcloses, hlands⟩ :=
      hbelow (exists_userDefined_below huser hfront)
    exact ⟨_, _, target, rest, counterpart, below, hleft.push hfront,
      hright.push (primitive_singleton (hframe.definition ▸ hprimitive)),
      .cons (congrArg Procedure.isSpecial hframe.definition) hcloses, hlands⟩

/-- Outputs that find a procedure end the same one. -/
theorem unwinds (huser : ∃ active ∈ ground.allFrames, active.definition.isUserDefined = true) :
    EndTogether Unwinds same junction stage ground other := by
  induction hlinked with
  | junction => exact (junction.unwinds huser).together
  | push hframe hbelow ih => exact hbelow.unwinds_push hframe ih huser
  | under hframe hlines hbelow ih =>
    obtain ⟨passed, dropped, target, rest, counterpart, below, hleft, hright, hcloses, hlands⟩ :=
      hbelow.unwinds_push hframe ih huser
    exact ⟨_, _, target, rest, counterpart, below, .outward (List.forall_mem_nil _) hleft,
      .outward (List.forall_mem_nil _) hright, hcloses, hlands⟩

end

section Even

variable (heven : junction.Even) (hlinked : ground.Linked same junction stage other)

include heven hlinked

/-- The same frames are of procedures. -/
theorem roles_eq :
    ground.allFrames.map (·.definition.isUserDefined) =
      other.allFrames.map (·.definition.isUserDefined) := by
  induction hlinked with
  | junction => exact heven.roles
  | push hframe _ ih =>
    rw [allFrames_push, allFrames_push, List.map_append, List.map_append, ih, List.map_singleton,
      List.map_singleton, hframe.definition]
  | under hframe _ _ ih =>
    rw [allFrames_under, allFrames_under, allFrames_push, allFrames_push, List.map_append,
      List.map_append, ih, List.map_singleton, List.map_singleton, hframe.definition]

theorem outermost_iff : ground.bounded = [] ↔ other.bounded = [] := by
  induction hlinked with
  | junction => exact heven.outermost
  | push _ _ ih => exact ih
  | under _ _ _ _ => exact iff_of_false (List.cons_ne_nil _ _) (List.cons_ne_nil _ _)

theorem primitive
    (hground : ∀ active ∈ ground.allFrames, active.definition.isUserDefined = false) :
    ∀ active ∈ other.allFrames, active.definition.isUserDefined = false := by
  intro active hmem
  have hrole : active.definition.isUserDefined ∈
      other.allFrames.map (·.definition.isUserDefined) := List.mem_map_of_mem hmem
  rw [← roles_eq heven hlinked] at hrole
  obtain ⟨counterpart, hcounterpart, hsame⟩ := List.mem_map.mp hrole
  exact hsame.symm.trans (hground counterpart hcounterpart)

/-- On the outermost run the innermost frame is ended; inside of bounded runs it is passed. -/
theorem surfaces_push (hframe : same.frames stage frame next)
    (hbelow : ground.bounded ≠ [] → EndTogether Surfaces same junction stage ground other)
    (hnone : ∀ active ∈ (ground.push [frame]).allFrames,
      active.definition.isUserDefined = false) :
    EndTogether Surfaces same junction stage (ground.push [frame]) (other.push [next]) := by
  have hnoneRight := primitive heven (hlinked.push hframe) hnone
  by_cases houtermost : ground.bounded = []
  · refine ⟨[], [], frame, ground, next, other, .here houtermost ?_,
      .here ((outermost_iff heven hlinked).mp houtermost) ?_, .nil, .inside hframe hlinked⟩
    · exact (List.forall_mem_append.mp hnone).1
    · exact (List.forall_mem_append.mp hnoneRight).1
  · obtain ⟨passed, dropped, target, rest, counterpart, below, hleft, hright, hcloses, hlands⟩ :=
      hbelow houtermost
    have hfirst := primitive_singleton (hnone frame List.mem_cons_self)
    have hsecond := primitive_singleton (hnoneRight next List.mem_cons_self)
    exact ⟨_, _, target, rest, counterpart, below, hleft.push houtermost hfirst,
      hright.push (mt (outermost_iff heven hlinked).mpr houtermost) hsecond,
      .cons (congrArg Procedure.isSpecial hframe.definition) hcloses, hlands⟩

/-- Inside of bounded runs, outputs that find no procedure end the same frame too. -/
theorem surfaces (hnone : ∀ active ∈ ground.allFrames, active.definition.isUserDefined = false)
    (hinside : ground.bounded ≠ []) : EndTogether Surfaces same junction stage ground other := by
  induction hlinked with
  | junction => exact (heven.surfaces hnone hinside).together
  | push hframe hbelow ih =>
    exact surfaces_push heven hbelow hframe (ih (List.forall_mem_cons.mp hnone).2) hnone
  | under hframe hlines hbelow ih =>
    obtain ⟨passed, dropped, target, rest, counterpart, below, hleft, hright, hcloses, hlands⟩ :=
      surfaces_push heven hbelow hframe (ih (List.forall_mem_cons.mp hnone).2) hnone
    exact ⟨_, _, target, rest, counterpart, below, .outward (List.forall_mem_nil _) hleft,
      .outward (List.forall_mem_nil _) hright, hcloses, hlands⟩

end Even

/-- Outputs from above the junction land together, if they find a procedure or if the junction is
even. -/
theorem endTogether (hlinked : ground.Linked same junction stage other)
    (hframe : same.frames stage frame next)
    (hends : (∃ active ∈ (ground.push [frame]).allFrames,
      active.definition.isUserDefined = true) ∨ junction.Even) :
    EndTogether Ends same junction stage (ground.push [frame]) (other.push [next]) := by
  by_cases huser : ∃ active ∈ (ground.push [frame]).allFrames,
      active.definition.isUserDefined = true
  · obtain ⟨passed, dropped, target, rest, counterpart, below, hleft, hright, htogether⟩ :=
      (hlinked.push hframe).unwinds huser
    exact ⟨passed, dropped, target, rest, counterpart, below, .inl hleft, .inl hright, htogether⟩
  · have heven := hends.resolve_left huser
    have hnone : ∀ active ∈ (ground.push [frame]).allFrames,
        active.definition.isUserDefined = false := by simpa using huser
    obtain ⟨passed, dropped, target, rest, counterpart, below, hleft, hright, htogether⟩ :=
      surfaces_push heven hlinked hframe
        (surfaces heven hlinked (List.forall_mem_cons.mp hnone).2) hnone
    exact ⟨passed, dropped, target, rest, counterpart, below, .inr hleft, .inr hright, htogether⟩

end Linked

end Ground

end Logo
