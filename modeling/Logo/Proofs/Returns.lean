import Logo.Proofs.Evolution
import Logo.Proofs.Outside
import Logo.Text.Cluster

/-!
# Which procedure an output ends

`output` and `stop` end the innermost call of a user-defined procedure, wherever it stands on the
stacks. A call has a frame from the moment its first input is evaluated. So an `output` among the
inputs of a call ends that call, whose body has not begun, and not the procedure that makes it.
-/

namespace Logo

namespace Frame

def isUnderWay (frame : Frame) : Bool :=
  frame.definition.isUserDefined && !frame.needsArguments

def given (frame : Frame) : Value :=
  match frame.definition.kind with
  | .special .output => frame.arguments.getD 0 .nil
  | _ => .nil

/-- Nothing has been done with the inputs if there are not all of them. -/
def Unbegun (frame : Frame) : Prop :=
  frame.needsArguments = true → frame.bound = false ∧ frame.cursor = 0

theorem Unbegun.continues {frame later : Frame} (hcontinues : frame.Continues later)
    (hframe : frame.Unbegun) : later.Unbegun := by
  intro hneeds
  have hfewer : frame.needsArguments = true := by
    have hlength := hcontinues.arguments.length_le
    simp only [needsArguments, decide_eq_true_eq, hcontinues.call] at hneeds ⊢
    omega
  obtain ⟨hbound, hcursor⟩ := hcontinues.waits hfewer
  rw [hbound, hcursor]
  exact hframe hfewer

end Frame

namespace Machine

variable {machine : Machine} {frame target : Frame} {below : List Frame}

/-- The innermost call of a user-defined procedure is over, and the calls outside it are left. -/
theorem allFrames_outputThrough (machine : Machine) (value : Value) {segments : List Segment}
    (hbounded : machine.bounded = segments)
    (hsplit : machine.allFrames.dropWhile (!·.definition.isUserDefined) = target :: below) :
    (machine.outputThrough value segments).frames.top? = some (target.finish value) ∧
      (machine.outputThrough value segments).allFrames = target.finish value :: below := by
  rw [allFrames, hbounded, List.dropWhile_append] at hsplit
  fun_induction outputThrough machine value segments with
  | case1 segments machine frames above other rest hrest =>
    have hbelow : (machine.frames.drop above.length).toList = other :: rest :=
      toList_drop_takeWhile hrest
    have hother : (machine.frames.drop above.length).top? = some other := by
      rw [Stack.top?, hbelow]
      rfl
    obtain ⟨world, active, habandon⟩ := machine.exists_abandon_eq above
      ((machine.frames.drop above.length).replaceTop (other.finish value))
    rw [hrest] at hsplit
    obtain ⟨rfl, rfl⟩ : other = target ∧ rest ++ segments.flatMap (·.frames.toList) = below :=
      List.cons.inj hsplit
    have hafter : ((machine.frames.drop above.length).replaceTop (other.finish value)).toList =
        other.finish value :: rest := by
      simp only [Stack.replaceTop, hbelow]
    rw [habandon]
    refine ⟨Stack.top?_replaceTop hother _, ?_⟩
    simp only [allFrames, hafter, hbounded, List.cons_append]
  | case2 machine frames hnone frame htop =>
    rw [hnone] at hsplit
    cases hsplit
  | case3 machine frames hnone htop =>
    rw [hnone] at hsplit
    cases hsplit
  | case4 machine frames hnone saved outer noted restored ih =>
    rw [hnone] at hsplit
    apply ih rfl
    rw [← List.dropWhile_append]
    exact hsplit

section

theorem Outputs.exists_special (houtputs : machine.Outputs frame) :
    ∃ form, frame.definition.kind = .special form := by
  have houtput := houtputs.output
  rw [Frame.isOutput] at houtput
  split at houtput
  · exact ⟨.output, ‹_›⟩
  · exact ⟨.stop, ‹_›⟩
  · cases houtput

/-- The work of the innermost call of a primitive does not change which procedure is innermost. -/
theorem dropWhile_allFrames_withTop {next : Frame} (htop : machine.frames.top? = some frame)
    (hprimitive : frame.definition.isUserDefined = false)
    (hdefinition : next.definition = frame.definition) (world : World) :
    (machine.withTop next world).allFrames.dropWhile (!·.definition.isUserDefined) =
      machine.allFrames.dropWhile (!·.definition.isUserDefined) := by
  simp only [allFrames, withTop]
  rw [Stack.eq_push_of_top? htop, Stack.replaceTop_push, Stack.toList_push, Stack.toList_push,
    List.cons_append, List.cons_append, List.dropWhile_cons_of_pos, List.dropWhile_cons_of_pos]
  · rw [hprimitive]
    rfl
  · rw [hdefinition, hprimitive]
    rfl

/-- The procedure that is under way is looked for from the innermost user-defined call on. -/
theorem find?_isUnderWay {frames : List Frame}
    (hsplit : frames.dropWhile (!·.definition.isUserDefined) = target :: below) :
    frames.find? Frame.isUnderWay = (target :: below).find? Frame.isUnderWay := by
  have hprimitives :
      (frames.takeWhile (!·.definition.isUserDefined)).find? Frame.isUnderWay = none := by
    rw [List.find?_eq_none]
    intro other hmem
    have hother := List.mem_takeWhile_imp hmem
    rw [Bool.not_eq_true'] at hother
    rw [Frame.isUnderWay, hother]
    exact Bool.false_ne_true
  rw [← hsplit]
  calc frames.find? Frame.isUnderWay
      = (frames.takeWhile (!·.definition.isUserDefined) ++
          frames.dropWhile (!·.definition.isUserDefined)).find? Frame.isUnderWay := by
        rw [List.takeWhile_append_dropWhile]
    _ = (frames.dropWhile (!·.definition.isUserDefined)).find? Frame.isUnderWay := by
        rw [List.find?_append, hprimitives, Option.none_or]

variable [Segmentation]

/-- The form gives its value to the procedure that it ends. -/
theorem runSpecial_of_output {form : Special} (hkind : frame.definition.kind = .special form)
    (houtput : frame.isOutput = true) (world : World) :
    World.runSpecial form frame.arguments frame.continuation frame.result world =
      .ok (.output frame.given) world := by
  rw [Frame.isOutput, hkind] at houtput
  rw [Frame.given, hkind]
  split at houtput
  · rename_i hform
    cases hform
    rfl
  · rename_i hform
    cases hform
    rfl
  · cases houtput

theorem Outputs.exists_step_eq (houtputs : machine.Outputs frame) :
    ∃ next : Frame, next.definition = frame.definition ∧
      step machine = .ok () ((machine.withTop next machine.world).output frame.given) := by
  obtain ⟨form, hkind⟩ := houtputs.exists_special
  refine ⟨{ frame with bound := true, continuation := none, result := none }, rfl, ?_⟩
  rw [step_of_special houtputs.top houtputs.unevaluated houtputs.complete houtputs.enough hkind,
    runSpecial_of_output hkind houtputs.output, proceed]

theorem Outputs.exists_tick_eq (houtputs : machine.Outputs frame)
    (hsplit : machine.allFrames.dropWhile (!·.definition.isUserDefined) = target :: below) :
    ∃ after, tick machine = .ok true after ∧
      after.frames.top? = some (target.finish frame.given) ∧
      after.allFrames = target.finish frame.given :: below := by
  obtain ⟨form, hkind⟩ := houtputs.exists_special
  have hprimitive : frame.definition.isUserDefined = false := by
    rw [Procedure.isUserDefined, hkind]
  obtain ⟨next, hdefinition, hstep⟩ := houtputs.exists_step_eq
  have hends := allFrames_outputThrough (machine.withTop next machine.world) frame.given rfl
    ((dropWhile_allFrames_withTop houtputs.top hprimitive hdefinition _).trans hsplit)
  rw [← Machine.output] at hends
  exact ⟨_, tick_of_step houtputs.running hstep hends.1, hends⟩

/-- On every machine that can be met, an `output` or a `stop` ends the innermost call of a
user-defined procedure, and the calls outside it are left as they are. If that call has all its
inputs, it is the procedure that is under way. If it still waits for an input, its body has not
begun, and the procedure that is under way goes on. -/
theorem output_ends_innermost_call_even_waiting (maxDepth : Nat) (console : Console) (log : Log)
    (operations : List Operation) :
    let machine := (Machine.new maxDepth console log).performAll operations
    ∀ frame target below, machine.Outputs frame →
      machine.allFrames.dropWhile (!·.definition.isUserDefined) = target :: below →
      ∃ after, tick machine = .ok true after ∧
        after.frames.top? = some (target.finish frame.given) ∧
        after.allFrames = target.finish frame.given :: below ∧
        (target.needsArguments = false →
          machine.allFrames.find? Frame.isUnderWay = some target) ∧
        (target.needsArguments = true → target.bound = false ∧ target.cursor = 0 ∧
          after.allFrames.find? Frame.isUnderWay =
            machine.allFrames.find? Frame.isUnderWay) := by
  intro machine frame target below houtputs hsplit
  have hunbegun : ∀ frame ∈ machine.allFrames, frame.Unbegun :=
    frames_performAll (fun _ _ _ => ⟨rfl, rfl⟩) Frame.Unbegun.continues maxDepth console log
      operations
  have huser : target.definition.isUserDefined = true := by
    have hfirst := List.head?_dropWhile_not (fun other : Frame => !other.definition.isUserDefined)
      machine.allFrames
    rw [hsplit] at hfirst
    simpa using hfirst
  have hmem : target ∈ machine.allFrames := by
    apply (List.dropWhile_sublist _).subset
    rw [hsplit]
    exact List.mem_cons_self
  obtain ⟨after, htick, htop, hframes⟩ := houtputs.exists_tick_eq hsplit
  refine ⟨after, htick, htop, hframes, ?_, ?_⟩
  · intro hcomplete
    rw [find?_isUnderWay hsplit, List.find?_cons_of_pos]
    rw [Frame.isUnderWay, huser, hcomplete]
    rfl
  · intro hwaits
    obtain ⟨hbound, hcursor⟩ := hunbegun target hmem hwaits
    have hidle : ∀ other : Frame, other.needsArguments = true → ¬other.isUnderWay = true := by
      intro other hneeds
      rw [Frame.isUnderWay, hneeds, Bool.not_true, Bool.and_false]
      exact Bool.false_ne_true
    refine ⟨hbound, hcursor, ?_⟩
    rw [find?_isUnderWay hsplit, hframes, List.find?_cons_of_neg (hidle target hwaits),
      List.find?_cons_of_neg (hidle (target.finish frame.given) hwaits)]

end

open scoped Graphemes

/-- In the body of `g`, the `output` among the inputs of `f` gives its value to the call of `f`. -/
theorem output_among_inputs_ends_waiting_call :
    let machine := (Machine.new 10 (.new []) (.new none)).performAll
      [.read "to f :x\noutput 1\nend\nto g\nmake \"y f output 5\noutput 7\nend\nprint g",
        .run 9 (.list ⟨0, none⟩)]
    ∃ frame target below, machine.Outputs frame ∧ (machine.view frame.given).source = "5" ∧
      machine.allFrames.dropWhile (!·.definition.isUserDefined) = target :: below ∧
      target.definition.name = "f" ∧ target.bound = false ∧ target.cursor = 0 ∧
      ∃ after, tick machine = .ok true after ∧
        after.allFrames = target.finish frame.given :: below ∧
        (after.allFrames.find? Frame.isUnderWay).map (·.definition.name) = some "g" := by
  intro machine
  have hmachine : (machine.paused = false ∧ (machine.frames.top?.any fun frame =>
      !frame.evaluated && !frame.needsArguments && frame.isOutput &&
        decide (frame.definition.arity ≤ frame.arguments.length) &&
        (machine.view frame.given).source == "5") = true) ∧
      ((machine.allFrames.dropWhile (!·.definition.isUserDefined)).head?.any fun target =>
        target.needsArguments && target.definition.name == "f") = true ∧
      (machine.allFrames.find? Frame.isUnderWay).map (·.definition.name) = some "g" := by
    decide +kernel
  obtain ⟨⟨hrunning, hframe⟩, htarget, hunderWay⟩ := hmachine
  obtain ⟨frame, htop, hframe⟩ := (Option.any_eq_true ..).mp hframe
  obtain ⟨target, hhead, htarget⟩ := (Option.any_eq_true ..).mp htarget
  obtain ⟨below, hsplit⟩ := List.head?_eq_some_iff.mp hhead
  simp only [Bool.and_eq_true, Bool.not_eq_true', decide_eq_true_eq, beq_iff_eq] at hframe htarget
  obtain ⟨⟨⟨⟨hopen, hcomplete⟩, houtput⟩, henough⟩, hgiven⟩ := hframe
  have houtputs : machine.Outputs frame := ⟨hrunning, htop, hopen, hcomplete, henough, houtput⟩
  obtain ⟨after, htick, -, hafter, -, hwaits⟩ :=
    output_ends_innermost_call_even_waiting 10 (.new []) (.new none) _ frame target below houtputs
      hsplit
  obtain ⟨hbound, hcursor, hstill⟩ := hwaits htarget.1
  refine ⟨frame, target, below, houtputs, hgiven, hsplit, htarget.2, hbound, hcursor, after, htick,
    hafter, ?_⟩
  rw [hstill]
  exact hunderWay

/-- So the procedure in whose body the `output` stands goes on, and `g` does not give 5. -/
theorem output_among_inputs_leaves_procedure_running :
    (runScript 200
      "to f :x\noutput 1\nend\nto g\nmake \"y f output 5\noutput 7\nend\nprint g"
      (.new 10 (.new []) (.new none))).state.world.console.output = "7\n" := by
  decide +kernel

end Machine

end Logo
