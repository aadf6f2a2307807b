import Logo.Proofs.Abreast

/-!
# Machines that do the same

Two machines are twins if their worlds are alike, the same calls are at work in them and have come
equally far, and the same lines are still to be run. Twins make the same steps, and are twins
afterwards.
-/

namespace Logo

theorem forall₂_modifyHead {α β : Type} {same : α → β → Prop} {left : List α} {right : List β}
    (hsame : List.Forall₂ same left right) {change : α → α} {alter : β → β}
    (hchange : ∀ first second, same first second → same (change first) (alter second)) :
    List.Forall₂ same (left.modifyHead change) (right.modifyHead alter) := by
  cases hsame with
  | nil => exact .nil
  | cons hfirst hrest => exact .cons (hchange _ _ hfirst) hrest

theorem isEmpty_eq_of_forall₂ {α β : Type} {same : α → β → Prop} {left : List α} {right : List β}
    (hsame : List.Forall₂ same left right) : left.isEmpty = right.isEmpty := by
  cases hsame <;> rfl

/-! ## Changes of the innermost frame -/

theorem Stack.toList_replaceTop_eq {α : Type} (stack : Stack α) (element : α) :
    (stack.replaceTop element).toList = stack.toList.modifyHead fun _ => element := by
  rw [toList_replaceTop]
  cases stack.toList <;> rfl

theorem Machine.toList_received (frames : Stack Frame) (value : Value) :
    (received frames value).toList = frames.toList.modifyHead (·.receive value) := by
  obtain ⟨list, _, _⟩ := frames
  cases list <;> rfl

theorem Machine.toList_answered (saved : Segment) (result : Value) :
    (answered saved result).toList =
      saved.frames.toList.modifyHead fun frame => { frame with result := some result } := by
  obtain ⟨⟨list, _, _⟩, _⟩ := saved
  cases list <;> rfl

/-! ## Twins -/

structure Segment.Alike (same : Likeness) (stage : same.Stage) (left right : Segment) : Prop where
  frames : List.Forall₂ (same.frames stage) left.frames.toList right.frames.toList
  program : List.Forall₂ (same.values stage) left.program right.program

/-- The worlds are alike, and so is everything that the machines have at work. -/
structure Machine.Twins (same : Likeness) (stage : same.Stage) (left right : Machine) : Prop
    extends Akin same stage left right where
  current : Segment.Alike same stage ⟨left.frames, left.program⟩ ⟨right.frames, right.program⟩
  bounded : List.Forall₂ (Segment.Alike same stage) left.bounded right.bounded
  suspended : left.suspended = right.suspended
  lastResult : same.values stage left.lastResult right.lastResult

/-- Both machines have done the same, or have failed for the same reason, and they are twins. -/
inductive Machine.Joint {ε α : Type} (same : Likeness) (stage : same.Stage) :
    EStateM.Result ε Machine α → EStateM.Result ε Machine α → Prop where
  | ok {later : same.Stage} {left right : Machine} (value : α) (hgrows : same.grows stage later)
      (htwins : left.Twins same later right) : Joint same stage (.ok value left) (.ok value right)
  | error {later : same.Stage} {left right : Machine} (cause : ε) (hgrows : same.grows stage later)
      (htwins : left.Twins same later right) :
      Joint same stage (.error cause left) (.error cause right)

namespace Machine

variable {same : Likeness} {stage later : same.Stage} {left right : Machine}

theorem Joint.mono {ε α : Type} {first second : EStateM.Result ε Machine α}
    (hjoint : Joint same later first second) (hgrows : same.grows stage later) :
    Joint same stage first second := by
  cases hjoint with
  | ok value hlater htwins => exact .ok value (same.trans hgrows hlater) htwins
  | error cause hlater htwins => exact .error cause (same.trans hgrows hlater) htwins

theorem Twins.joint (htwins : left.Twins same stage right) :
    Joint same stage (.ok () left : EStateM.Result RuntimeError Machine Unit) (.ok () right) :=
  .ok () (same.refl stage) htwins

end Machine

theorem Segment.Alike.mono {same : Likeness} {stage later : same.Stage} {left right : Segment}
    (halike : left.Alike same stage right) (hgrows : same.grows stage later) :
    left.Alike same later right :=
  ⟨halike.frames.imp fun _ _ hframe => hframe.mono (same.mono hgrows),
    same.all_mono hgrows halike.program⟩

/-- Both sides have the same frames above their innermost procedure. -/
theorem Likeness.split_frames {same : Likeness} {stage : same.Stage} {left right : List Frame}
    (hframes : List.Forall₂ (same.frames stage) left right) :
    List.Forall₂ (same.frames stage) (left.takeWhile (!·.definition.isUserDefined))
        (right.takeWhile (!·.definition.isUserDefined)) ∧
      List.Forall₂ (same.frames stage) (left.dropWhile (!·.definition.isUserDefined))
        (right.dropWhile (!·.definition.isUserDefined)) := by
  induction hframes with
  | nil => exact ⟨.nil, .nil⟩
  | @cons frame other _ _ hframe hrest ih =>
    simp only [List.takeWhile_cons, List.dropWhile_cons, hframe.definition]
    split
    · exact ⟨.cons hframe ih.1, ih.2⟩
    · exact ⟨.nil, .cons hframe hrest⟩

namespace Machine.Twins

variable {same : Likeness} {stage later : same.Stage} {left right : Machine}

variable {frame next : Frame} {value copy : Value}

section

variable (htwins : left.Twins same stage right)

include htwins

theorem depth_eq : left.depth = right.depth := by
  rw [depth, depth, left.frames.size_eq, right.frames.size_eq, htwins.suspended,
    htwins.current.frames.length_eq]

theorem hasWork_eq : left.hasWork = right.hasWork := by
  rw [hasWork, hasWork, Stack.isEmpty, Stack.isEmpty, isEmpty_eq_of_forall₂ htwins.current.frames,
    isEmpty_eq_of_forall₂ htwins.current.program, isEmpty_eq_of_forall₂ htwins.bounded]

theorem frames_set {frames others : Stack Frame}
    (hframes : List.Forall₂ (same.frames stage) frames.toList others.toList) :
    Twins same stage { left with frames } { right with frames := others } :=
  ⟨⟨htwins.world, htwins.paused, htwins.maxDepth⟩, ⟨hframes, htwins.current.program⟩,
    htwins.bounded, htwins.suspended, htwins.lastResult⟩

theorem world_set (hgrows : same.grows stage later) {first second : World}
    (hworlds : same.worlds later first second) :
    Twins same later { left with world := first } { right with world := second } :=
  ⟨⟨hworlds, htwins.paused, htwins.maxDepth⟩, htwins.current.mono hgrows,
    htwins.bounded.imp fun _ _ => (·.mono hgrows), htwins.suspended,
    same.mono hgrows htwins.lastResult⟩

theorem withTop (hgrows : same.grows stage later) (hframe : same.frames later frame next)
    {first second : World} (hworlds : same.worlds later first second) :
    (left.withTop frame first).Twins same later (right.withTop next second) := by
  have hset := htwins.world_set hgrows hworlds
  refine hset.frames_set ?_
  rw [Stack.toList_replaceTop_eq, Stack.toList_replaceTop_eq]
  exact forall₂_modifyHead hset.current.frames fun _ _ _ => hframe

end

variable (hhosts : same.Hosts) (htwins : left.Twins same stage right)

include hhosts htwins

/-- A call is started. -/
theorem schedule (call : Call) :
    Joint same stage (Machine.schedule call left) (Machine.schedule call right) := by
  rw [schedule_apply, schedule_apply, same.procedures htwins.world, htwins.maxDepth,
    htwins.depth_eq]
  cases right.world.environment.procedures.find? call.name with
  | none => exact .error _ (same.refl stage) htwins
  | some definition =>
    dsimp only
    split
    · exact .error _ (same.refl stage) htwins
    · have hakin := htwins.toAkin.enter hhosts call definition
      have hframe : same.frames stage (.new call definition) (.new call definition) :=
        .new (fun input _ => hhosts.code input) fun line _ => hhosts.code line
      rw [enter_eq, enter_eq] at hakin ⊢
      exact .ok () (same.refl stage) ⟨hakin, ⟨.cons hframe htwins.current.frames,
        htwins.current.program⟩, htwins.bounded, htwins.suspended, htwins.lastResult⟩

/-- A call that is over hands its value on. -/
theorem unschedule (hleft : left.frames.top? = some frame) (hright : right.frames.top? = some next)
    (hframe : same.frames stage frame next) :
    left.unschedule.2.Twins same stage right.unschedule.2 := by
  have hakin := htwins.toAkin.unschedule hhosts hframe hleft hright
  have hvalue := rel_getD hframe.result (same.atom .nil)
  have hframes := htwins.current.frames
  dsimp only at hframes
  rw [Stack.eq_push_of_top? hleft, Stack.eq_push_of_top? hright] at hframes
  have hbelow := forall₂_modifyHead (List.forall₂_cons.mp hframes).2
    fun _ _ hparent => Frame.Alike.receive hparent hvalue
  rw [← toList_received, ← toList_received] at hbelow
  obtain ⟨_, _, hleftEnds⟩ := exists_unschedule_eq hleft
  obtain ⟨_, _, hrightEnds⟩ := exists_unschedule_eq hright
  rw [hleftEnds, hrightEnds] at hakin ⊢
  exact ⟨hakin, ⟨hbelow, htwins.current.program⟩, htwins.bounded, htwins.suspended, hvalue⟩

/-- Calls are given up, and their scopes are closed. -/
theorem abandon {passed dropped : List Frame} {rest below : Stack Frame}
    (hpassed : List.Forall₂ (same.frames stage) passed dropped)
    (hrest : List.Forall₂ (same.frames stage) rest.toList below.toList) :
    (left.abandon passed rest).Twins same stage (right.abandon dropped below) := by
  have hcloses : List.Forall₂ Frame.CloseAlike passed dropped :=
    hpassed.imp fun _ _ hframe => congrArg Procedure.isSpecial hframe.definition
  obtain ⟨log, _, hleft⟩ := left.abandon_eq passed rest
  obtain ⟨other, _, hright⟩ := right.abandon_eq dropped below
  rw [hleft, hright]
  exact ⟨⟨hhosts.forsake htwins.world hcloses log other, htwins.paused, htwins.maxDepth⟩,
    ⟨hrest, htwins.current.program⟩, htwins.bounded, htwins.suspended, htwins.lastResult⟩

/-! ## Outputs -/

/-- An output ends the innermost call of a procedure that has a body. -/
theorem endTarget (hvalue : same.values stage value copy) {target : Frame} {rest : List Frame}
    (htarget : left.frames.toList.dropWhile (!·.definition.isUserDefined) = target :: rest)
    (segments others : List Segment) :
    (left.outputThrough value segments).Twins same stage (right.outputThrough copy others) := by
  obtain ⟨habove, hbelow⟩ := Likeness.split_frames htwins.current.frames
  dsimp only at habove hbelow
  rw [htarget] at hbelow
  obtain ⟨counterpart, below, hframe, hrest, hcounterpart⟩ := List.forall₂_cons_left_iff.mp hbelow
  have hdrop : ∀ {machine : Machine} {target : Frame} {rest : List Frame},
      machine.frames.toList.dropWhile (!·.definition.isUserDefined) = target :: rest →
        (machine.frames.drop
          (machine.frames.toList.takeWhile (!·.definition.isUserDefined)).length).toList =
            target :: rest := by
    intro machine target rest htarget
    apply Stack.toList_drop_of_append
    rw [← htarget, List.takeWhile_append_dropWhile]
  rw [outputThrough_of_target htarget, outputThrough_of_target hcounterpart]
  refine htwins.abandon hhosts habove ?_
  rw [Stack.toList_replaceTop_eq, Stack.toList_replaceTop_eq, hdrop htarget, hdrop hcounterpart]
  exact .cons (hframe.finish hvalue) hrest

omit hhosts in
theorem targetless (hnone : left.frames.toList.dropWhile (!·.definition.isUserDefined) = []) :
    right.frames.toList.dropWhile (!·.definition.isUserDefined) = [] := by
  have hbelow := (Likeness.split_frames htwins.current.frames).2
  dsimp only at hbelow
  rw [hnone] at hbelow
  exact List.forall₂_nil_left_iff.mp hbelow

omit hhosts in
theorem restore {saved other : Segment} {outer remaining : List Segment}
    (hleft : left.bounded = saved :: outer) (hright : right.bounded = other :: remaining) :
    (left.restore saved outer).Twins same stage (right.restore other remaining) := by
  have hbounded := htwins.bounded
  rw [hleft, hright] at hbounded
  obtain ⟨hsaved, houter⟩ := List.forall₂_cons.mp hbounded
  refine ⟨⟨htwins.world, htwins.paused, htwins.maxDepth⟩, hsaved, houter, ?_, htwins.lastResult⟩
  rw [Machine.restore, Machine.restore, htwins.suspended, saved.frames.size_eq,
    other.frames.size_eq, hsaved.frames.length_eq]

theorem note (level : LogLevel) (message other : Machine → String) :
    (left.note level message).Twins same stage (right.note level other) := by
  rw [note_apply, note_apply]
  exact ⟨⟨hhosts.setLog _ _ htwins.world, htwins.paused, htwins.maxDepth⟩, htwins.current,
    htwins.bounded, htwins.suspended, htwins.lastResult⟩

/-- Outputs end calls that are alike. -/
theorem output (hvalue : same.values stage value copy) :
    (left.output value).Twins same stage (right.output copy) := by
  rw [Machine.output, Machine.output]
  generalize hsegments : left.bounded = segments
  induction segments generalizing left right with
  | nil =>
    have hbounded := hsegments ▸ htwins.bounded
    cases hframes : left.frames.toList.dropWhile (!·.definition.isUserDefined) with
    | cons target rest => exact htwins.endTarget hhosts hvalue hframes _ _
    | nil =>
      have hends : ∀ {machine : Machine} {value : Value},
          machine.frames.toList.dropWhile (!·.definition.isUserDefined) = [] →
            ∃ frames : Stack Frame, machine.outputThrough value [] = { machine with frames } ∧
              frames.toList = machine.frames.toList.modifyHead (·.finish value) := by
        intro machine value hnone
        rw [outputThrough, hnone]
        dsimp only
        cases htop : machine.frames.top? with
        | none =>
          refine ⟨machine.frames, rfl, ?_⟩
          rw [Stack.eq_empty_of_top? htop]
          rfl
        | some frame =>
          refine ⟨_, rfl, ?_⟩
          rw [Stack.eq_push_of_top? htop]
          rfl
      obtain ⟨frames, hleft, htop⟩ := @hends left value hframes
      obtain ⟨others, hright, hother⟩ := @hends right copy (htwins.targetless hframes)
      rw [List.forall₂_nil_left_iff.mp hbounded, hleft, hright]
      refine htwins.frames_set ?_
      rw [htop, hother]
      exact forall₂_modifyHead htwins.current.frames fun _ _ hframe => hframe.finish hvalue
  | cons saved outer ih =>
    have hbounded := hsegments ▸ htwins.bounded
    cases hframes : left.frames.toList.dropWhile (!·.definition.isUserDefined) with
    | cons target rest => exact htwins.endTarget hhosts hvalue hframes _ _
    | nil =>
      obtain ⟨other, remaining, -, -, hothers⟩ := List.forall₂_cons_left_iff.mp hbounded
      have hnoted := htwins.note hhosts .debug
        (fun _ => "output leaves a bounded run, restoring " ++ toString saved.frames.size ++ " frames")
        (fun _ => "output leaves a bounded run, restoring " ++ toString other.frames.size ++ " frames")
      have hempty : List.Forall₂ (same.frames stage) (Stack.empty : Stack Frame).toList
          (Stack.empty : Stack Frame).toList := .nil
      have hkept : ∀ {machine : Machine} message (frames : List Frame),
          ((machine.note .debug message).abandon frames .empty).bounded = machine.bounded := by
        intro machine message frames
        obtain ⟨_, _, habandon⟩ := (machine.note .debug message).abandon_eq frames .empty
        rw [habandon, note_apply]
      have hleave := hnoted.abandon hhosts htwins.current.frames hempty
      have hrestored := hleave.restore ((hkept _ _).trans hsegments) ((hkept _ _).trans hothers)
      rw [hothers, outputThrough_of_nil hframes, outputThrough_of_nil (htwins.targetless hframes)]
      exact ih hrestored rfl

/-! ## Steps -/

theorem pause : left.pause.Twins same stage right.pause := by
  have hakin := htwins.toAkin.pause hhosts
  obtain ⟨_, hleft⟩ := left.exists_pause_eq
  obtain ⟨_, hright⟩ := right.exists_pause_eq
  rw [hleft, hright] at hakin ⊢
  exact ⟨hakin, htwins.current, htwins.bounded, htwins.suspended, htwins.lastResult⟩

theorem lifted : left.lifted.Twins same stage right.lifted := by
  have hakin := htwins.toAkin.lifted hhosts
  obtain ⟨_, hleft⟩ := left.exists_lifted_eq
  obtain ⟨_, hright⟩ := right.exists_lifted_eq
  rw [hleft, hright] at hakin ⊢
  exact ⟨hakin, htwins.current, htwins.bounded, htwins.suspended, htwins.lastResult⟩

theorem beginBounded {program lines : List Value}
    (hprogram : List.Forall₂ (same.values stage) program lines) :
    (left.beginBounded program).Twins same stage (right.beginBounded lines) := by
  have hakin := htwins.toAkin.beginBounded hhosts program lines
  have hdepth := htwins.depth_eq
  rw [Machine.beginBounded, Machine.beginBounded, note_apply, note_apply] at hakin ⊢
  rw [depth, depth, Nat.add_comm, Nat.add_comm right.frames.size] at hdepth
  exact ⟨hakin, ⟨.nil, hprogram⟩, .cons htwins.current htwins.bounded, hdepth, same.atom .nil⟩

theorem endBounded {saved other : Segment} {outer remaining : List Segment}
    (hleft : left.bounded = saved :: outer) (hright : right.bounded = other :: remaining) :
    (left.endBounded saved outer).Twins same stage (right.endBounded other remaining) := by
  have hrestored := htwins.restore hleft hright
  rw [endBounded_eq, endBounded_eq, note_apply, note_apply]
  refine ⟨⟨hhosts.setLog _ _ htwins.world, htwins.paused, htwins.maxDepth⟩,
    ⟨?_, hrestored.current.program⟩, hrestored.bounded, hrestored.suspended, htwins.lastResult⟩
  dsimp only
  rw [toList_answered, toList_answered]
  exact forall₂_modifyHead hrestored.current.frames
    fun _ _ hframe => hframe.withResult htwins.lastResult

/-- A line has been taken. -/
theorem withProgram {program lines : List Value}
    (hprogram : List.Forall₂ (same.values stage) program lines)
    (hvalue : same.values stage value copy) (log other : Log) :
    Twins same stage { left with world := { left.world with log }, program, lastResult := value }
      { right with
        world := { right.world with log := other }
        program := lines
        lastResult := copy } :=
  ⟨⟨hhosts.setLog log other htwins.world, htwins.paused, htwins.maxDepth⟩,
    ⟨htwins.current.frames, hprogram⟩, htwins.bounded, htwins.suspended, hvalue⟩

/-- Both machines take the next line of their programs. -/
theorem advanceProgram :
    Joint same stage (Machine.advanceProgram left) (Machine.advanceProgram right) := by
  have hprogram := htwins.current.program
  dsimp only at hprogram
  rw [advanceProgram_apply, advanceProgram_apply]
  generalize left.program = lines at hprogram ⊢
  generalize right.program = others at hprogram ⊢
  cases hprogram with
  | nil =>
    cases hsegments : left.bounded with
    | nil =>
      have hbounded := hsegments ▸ htwins.bounded
      rw [List.forall₂_nil_left_iff.mp hbounded]
      exact htwins.joint
    | cons saved outer =>
      have hbounded := hsegments ▸ htwins.bounded
      obtain ⟨other, remaining, -, -, hothers⟩ := List.forall₂_cons_left_iff.mp hbounded
      rw [hothers]
      exact (htwins.endBounded hhosts hsegments hothers).joint
  | @cons line copy program rest hline hrest =>
    have hliteral := fun (value copy : Value) (hvalue : same.values stage value copy) =>
      htwins.withProgram hhosts hrest hvalue left.world.log right.world.log
    have hnext := hliteral _ _ htwins.lastResult
    cases same.shape hline with
    | call site => exact hnext.schedule hhosts site
    | list _ _ => exact (hliteral _ _ hline).joint
    | procedure definition =>
      dsimp only
      rw [note_apply, note_apply]
      exact (htwins.withProgram hhosts hrest (same.atom .none) _ _).joint
    | atom value =>
      cases value with
      | symbol name => exact .error _ (same.refl stage) hnext
      | number _ | boolean _ | quote _ | nil | none => exact (hliteral _ _ hline).joint

/-- Both machines do what the call asks for. -/
theorem make {turn counterpart : Turn} (hturns : same.Turns stage turn counterpart) :
    Joint same stage (left.make turn) (right.make counterpart) := by
  obtain ⟨later, hgrows, hframe, hworlds, hmove⟩ := hturns
  have hnext := htwins.withTop hgrows hframe hworlds
  refine Joint.mono ?_ hgrows
  rw [Machine.make, Machine.make]
  generalize turn.move = move at hmove ⊢
  generalize counterpart.move = asked at hmove ⊢
  cases hmove with
  | stay => exact hnext.joint
  | fail cause => exact .error cause (same.refl later) hnext
  | call _ => exact hnext.schedule hhosts _
  | output hvalue => exact (hnext.output hhosts hvalue).joint
  | pause => exact (hnext.pause hhosts).joint
  | bounded hprogram => exact (hnext.beginBounded hhosts hprogram).joint

variable [Segmentation]

/-- Twins make the same step. -/
theorem step : Joint same stage (Machine.step left) (Machine.step right) := by
  have hframes := htwins.current.frames
  dsimp only at hframes
  obtain ⟨htop, hstep⟩ | ⟨frame, htop, hcases⟩ := left.step_cases
  · rw [List.head?_eq_none_iff.mp htop] at hframes
    have hright : right.frames.top? = none := by
      rw [Stack.top?, List.forall₂_nil_left_iff.mp hframes]
      rfl
    rw [hstep, Machine.step, hright]
    exact htwins.advanceProgram hhosts
  · rw [Stack.eq_push_of_top? htop] at hframes
    obtain ⟨next, _, hframe, -, hothers⟩ := List.forall₂_cons_left_iff.mp hframes
    have hright : right.frames.top? = some next := congrArg List.head? hothers
    obtain ⟨hevaluated, hstep⟩ | ⟨hopen, hstep⟩ := hcases
    · rw [hstep, Machine.step, hright]
      dsimp only
      rw [← hframe.evaluated, hevaluated]
      exact (htwins.unschedule hhosts htop hright hframe).joint
    · rw [hstep, step_of_open hright (hframe.evaluated.symm.trans hopen)]
      exact htwins.make hhosts (same.turn hframe htwins.world fun form _ _ _ =>
        same.runSpecial form (fun _ _ => hhosts.builds) hframe.arguments hframe.continuation
          hframe.result stage (same.refl stage) _ _ htwins.world)

/-- Twins tick alike. -/
theorem tick : Joint same stage (Machine.tick left) (Machine.tick right) := by
  cases hpaused : left.paused with
  | true =>
    rw [tick_of_paused hpaused, tick_of_paused (htwins.paused ▸ hpaused), htwins.hasWork_eq]
    exact .ok _ (same.refl stage) htwins
  | false =>
    have hstep := htwins.step hhosts
    rw [tick_of_running hpaused, tick_of_running (htwins.paused ▸ hpaused)]
    generalize Machine.step left = first at hstep ⊢
    generalize Machine.step right = second at hstep ⊢
    cases hstep with
    | ok _ hgrows hnext =>
      dsimp only
      rw [hnext.hasWork_eq]
      exact .ok _ hgrows hnext
    | error cause hgrows hnext => exact .error cause hgrows hnext

end Machine.Twins

end Logo
