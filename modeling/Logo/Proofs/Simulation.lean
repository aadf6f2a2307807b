import Logo.Proofs.Agreement

/-!
# The machine evaluates calls

Step by step, the machine computes what the recursive evaluator says at once. Each way in which a
frame makes progress is followed by a recursion of the evaluator: inputs by that on the inputs of a
call, bodies and blocks by that on lines, repetitions by that on rounds, and calls by the room for
them.
-/

namespace Logo

variable {evaluate : Call → Evaluation Value} {definition : Procedure} {inputs : List Value}

theorem Evaluation.applyTo_of_few [Segmentation] (hfew : inputs.length < definition.arity) :
    applyTo evaluate definition inputs =
      throw (.failed (.notEnoughInputs definition.name definition.arity inputs.length)) := by
  rw [applyTo, if_pos hfew]
  rfl

/-- The evaluator gives the inputs to variables as the machine does it for a frame. -/
theorem Evaluation.applyTo_of_enough [Segmentation] (henough : ¬inputs.length < definition.arity)
    (call : Call) (world : World) :
    applyTo evaluate definition inputs world =
      runProcedure evaluate definition inputs
        (world.prepared (.gathered call definition inputs)) := by
  have hprepared : world.prepared (.gathered call definition inputs) =
      if definition.isSpecial then world else world.bindAll definition.params inputs := rfl
  rw [applyTo, if_neg henough, hprepared]
  cases definition.isSpecial with
  | true => rfl
  | false =>
    have hbind : perform (Machine.bindInputs definition.params inputs) world =
        .ok () (world.bindAll definition.params inputs) := by
      rw [perform, Machine.bindInputs_apply]
    exact bind_of_ok hbind

namespace World

variable {value : Value} {world reached : World}

def BlockStep.progress (wrap : Block → Continuation) (ends : Value → Action Progress) :
    BlockStep → Action Progress
  | .calls site block => return .call site (wrap block)
  | .ends value => ends value

theorem runBlock_some (handle : ListHandle) (block : Block) (finished : Option Value) :
    runBlock handle (some (.block block)) finished =
      stepBlock block finished >>= BlockStep.progress .block fun value => return .done value := rfl

theorem runBlock_none (handle : ListHandle) :
    runBlock handle none none =
      readBlock handle >>= fun lines =>
        stepLines .nil lines >>= BlockStep.progress .block fun value => return .done value := by
  simp only [runBlock, startBlock, bind_assoc, pure_bind]
  rfl

theorem eq_boolean_of_expectBoolean {truth : Bool}
    (hexpect : expectBoolean value world = .ok truth reached) : value = .atom (.boolean truth) := by
  revert hexpect
  fun_cases expectBoolean value with
  | case1 truth =>
    intro hexpect
    cases hexpect
    rfl
  | case2 =>
    intro hexpect
    cases hexpect

theorem eq_list_of_expectList {handle : ListHandle}
    (hexpect : expectList value world = .ok handle reached) : value = .list handle := by
  revert hexpect
  fun_cases expectList value with
  | case1 handle =>
    intro hexpect
    cases hexpect
    rfl
  | case2 =>
    intro hexpect
    cases hexpect

theorem runRounds_zero (handle : ListHandle) (block : Block) (finished : Option Value) :
    runRounds handle block finished 0 =
      stepBlock block finished >>=
        BlockStep.progress (.repeating 0) fun value => return .done value := rfl

theorem runRounds_succ (handle : ListHandle) (block : Block) (finished : Option Value)
    (rounds : Nat) :
    runRounds handle block finished (rounds + 1) =
      stepBlock block finished >>= BlockStep.progress (.repeating (rounds + 1)) fun _ =>
        readBlock handle >>= fun lines => runRounds handle ⟨lines, .nil⟩ none rounds := by
  have hstart : ∀ next : Block → Action Progress, startBlock handle >>= next =
      readBlock handle >>= fun lines => next ⟨lines, .nil⟩ := by
    intro next
    simp only [startBlock, bind_assoc, pure_bind]
  rw [runRounds]
  simp only [hstart]
  rfl

end World

variable [Segmentation]

/-- The calls inside a call are evaluated as the machine does it, where it has room for so many. -/
def Simulated (room : Nat) (evaluate : Call → Evaluation Value) : Prop :=
  ∀ (call : Call) (base : Machine), base.world.Silent → base.paused = false →
    base.maxDepth - base.depth = room →
    base.Agrees (Machine.schedule call base) (evaluate call base.world)

namespace Simulated

section Calls

variable {room : Nat} {evaluate : Call → Evaluation Value} (hevaluate : Simulated room evaluate)
  {base : Machine} (hpaused : base.paused = false) (hroom : base.maxDepth - base.depth = room + 1)

variable {call : Call} {definition : Procedure} {arguments : List Value} {form : Special}
  {handle : ListHandle}

include hevaluate hpaused hroom

variable {world : World} {frame : Frame}

/-- A frame that waits for a call goes on with its value. -/
theorem agrees_call {active : NameTable Nat} {last : Value} (hsilent : world.Silent) (site : Call)
    {next : Value → Evaluation Value}
    (hnext : ∀ value world active, world.Silent →
      base.Agrees (.ok () (base.holding (frame.receive value) world active value))
        (next value world)) :
    base.Agrees (Machine.schedule site (base.holding frame world active last))
      ((evaluate site >>= next) world) := by
  have hdepth : (base.holding frame world active last).maxDepth -
      (base.holding frame world active last).depth = room := by
    simp only [Machine.holding, Machine.depth, Stack.size_push] at hroom ⊢
    omega
  have hsite := hevaluate site (base.holding frame world active last) hsilent hpaused hdepth
  have hkeeps := Machine.keeps_silent (Machine.commutes_schedule id site)
    (base.holding frame world active last) hsilent
  change Machine.Agrees _ _ (evaluate site world) at hsite
  rw [bind_apply]
  cases hrun : evaluate site world with
  | ok value after =>
    rw [hrun] at hsite
    obtain ⟨active, hreached⟩ := hsite
    exact (hnext value after active (hreached.silent hkeeps)).of_leads hreached
  | error interruption after =>
    rw [hrun] at hsite
    exact hsite.failed

/-- Inputs are evaluated from left to right. -/
theorem agrees_inputs {call : Call} {definition : Procedure} {next : List Value → Evaluation Value}
    (hnext : ∀ values world active last, world.Silent → values.length = call.inputs.length →
      base.Agrees (.ok () (base.holding (.gathered call definition values) world active last))
        (next values world))
    {inputs : List Datum} {arguments : List Value}
    (hinputs : call.inputs.drop arguments.length = inputs)
    (hlength : arguments.length ≤ call.inputs.length) (hsilent : world.Silent)
    (active : NameTable Nat) (last : Value) :
    base.Agrees (.ok () (base.holding (.gathered call definition arguments) world active last))
      ((inputs.mapM (Evaluation.evaluateInput evaluate) >>= fun values =>
        next (arguments ++ values)) world) := by
  induction inputs generalizing arguments world active last with
  | nil =>
    rw [List.mapM_nil, pure_bind, List.append_nil]
    have hall := List.drop_eq_nil_iff.mp hinputs
    exact hnext arguments world active last hsilent (Nat.le_antisymm hlength hall)
  | cons input inputs ih =>
    have hmore : arguments.length < call.inputs.length := by
      apply Nat.lt_of_not_le
      intro hall
      rw [List.drop_eq_nil_of_le hall] at hinputs
      cases hinputs
    have hinput : call.inputs[arguments.length]? = some input := by
      rw [← List.head?_drop, hinputs, List.head?_cons]
    have hrest : ∀ value : Value,
        call.inputs.drop (arguments ++ [value]).length = inputs := by
      intro value
      rw [List.length_append, List.length_singleton, ← List.drop_drop, hinputs, List.drop_one,
        List.tail_cons]
    have hneeds : (Frame.gathered call definition arguments).needsArguments = true :=
      decide_eq_true hmore
    have hgoes : ∀ (value : Value) (world : World) (active : NameTable Nat) (last : Value),
        world.Silent →
        base.Agrees (.ok () (base.holding (.gathered call definition (arguments ++ [value]))
          world active last))
          ((inputs.mapM (Evaluation.evaluateInput evaluate) >>= fun values =>
            next (arguments ++ value :: values)) world) := by
      intro value world active last hsilent
      have hroomy : (arguments ++ [value]).length ≤ call.inputs.length := by
        rw [List.length_append]
        exact hmore
      have hlater := ih (hrest value) hroomy hsilent active last
      simpa only [List.append_assoc, List.singleton_append] using hlater
    rw [List.mapM_cons]
    simp only [bind_assoc, pure_bind]
    apply Machine.Agrees.of_open hpaused rfl
    rw [if_pos hneeds, Machine.evaluateInput_apply,
      show (Frame.gathered call definition arguments).nextInput? = some input from hinput]
    have hliteral : base.Agrees
        (.ok () ((base.holding (.gathered call definition arguments) world active last).withTop
          (.gathered call definition (arguments ++ [(world.store.place input).1]))
          (world.placed input)))
        ((Evaluation.perform (World.place input) >>= fun value =>
          inputs.mapM (Evaluation.evaluateInput evaluate) >>= fun values =>
            next (arguments ++ value :: values)) world) := by
      rw [Machine.holding_withTop]
      exact hgoes _ _ active last hsilent
    cases input with
    | call site =>
      apply agrees_call hevaluate hpaused hroom hsilent
      intro value after active hafter
      rw [Frame.receive, if_pos hneeds]
      exact hgoes value after active value hafter
    | procedure definition => exact hliteral
    | list items source span => exact hliteral
    | atom value => exact hliteral

/-! ## Bodies -/

/-- A body is run line by line. The cursor and the result of the frame say which lines are left and
what the value is so far. -/
theorem agrees_body {lines : List Datum} (hready : frame.Ready)
    (hkind : frame.definition.kind = .userDefined) (hbound : frame.bound = true)
    (hlines : frame.definition.body.drop frame.cursor = lines) (other : Frame)
    (hsilent : world.Silent) (active : NameTable Nat) (last : Value) :
    base.Agrees (Machine.stepBody frame (base.holding other world active last))
      ((Evaluation.runLines evaluate (frame.result.getD .nil) lines >>=
        Evaluation.leave frame.definition) world) := by
  induction lines generalizing frame other world active last with
  | nil =>
    have hline : frame.definition.body[frame.cursor]? = none :=
      List.getElem?_eq_none (List.drop_eq_nil_iff.mp hlines)
    rw [Machine.stepBody_apply, hline]
    dsimp only
    rw [Machine.holding_withTop]
    exact .leave hpaused hsilent active (frame.result.getD .nil) last
  | cons line lines ih =>
    have hline : frame.definition.body[frame.cursor]? = some line := by
      rw [← List.head?_drop, hlines, List.head?_cons]
    have hrest : frame.definition.body.drop (frame.cursor + 1) = lines := by
      rw [← List.drop_drop, hlines, List.drop_one, List.tail_cons]
    have hgoes : ∀ (result : Option Value) (world : World) (active : NameTable Nat)
        (last : Value), world.Silent →
        base.Agrees (.ok () (base.holding { frame with cursor := frame.cursor + 1, result } world
          active last))
          ((Evaluation.runLines evaluate (result.getD .nil) lines >>=
            Evaluation.leave frame.definition) world) := by
      intro result world active last hsilent
      have hnext : { frame with cursor := frame.cursor + 1, result }.Ready :=
        ⟨hready.isOpen, hready.gathered, hready.enough⟩
      apply Machine.Agrees.of_body hpaused hnext hkind hbound
      exact ih hnext hkind hbound hrest _ hsilent active last
    have hliteral : base.Agrees (.ok () ((base.holding other world active last).withTop
        { frame with cursor := frame.cursor + 1, result := some (world.store.place line).1 }
        (world.placed line)))
        ((Evaluation.perform (World.place line) >>= fun value =>
          Evaluation.runLines evaluate value lines >>= Evaluation.leave frame.definition)
          world) := by
      rw [Machine.holding_withTop]
      exact hgoes _ _ active last hsilent
    rw [Machine.stepBody_apply, hline]
    dsimp only
    cases line with
    | call site =>
      have hnext : { frame with cursor := frame.cursor + 1 }.Ready :=
        ⟨hready.isOpen, hready.gathered, hready.enough⟩
      rw [Evaluation.runLines, bind_assoc, Machine.holding_withTop]
      apply agrees_call hevaluate hpaused hroom hsilent
      intro value after active hafter
      rw [hnext.receive]
      exact hgoes (some value) after active value hafter
    | procedure definition =>
      rw [Evaluation.runLines, Machine.holding_withTop]
      exact hgoes frame.result world active last hsilent
    | list items source span =>
      rw [Evaluation.runLines, bind_assoc]
      · exact hliteral
      all_goals simp
    | atom value =>
      cases value with
      | symbol name =>
        rw [Machine.holding_withTop]
        exact .error _ world active last _
      | number _ | boolean _ | quote _ | nil | none =>
        rw [Evaluation.runLines, bind_assoc]
        · exact hliteral
        all_goals simp

/-! ## Blocks -/

/-- The lines of a block are run up to the next call, and from there when the call is over. What
comes after the last line is up to the form. -/
theorem agrees_block {form : Special} (hframe : frame.Fresh form) {wrap : Block → Continuation}
    {ends : Value → Action Progress} {after : Value → Evaluation Value}
    (hkept : ∀ block value,
      World.runSpecial form frame.arguments (some (wrap block)) (some value) =
        World.stepBlock block (some value) >>= World.BlockStep.progress wrap ends)
    (hends : ∀ value world active last, world.Silent →
      base.Agrees ((base.holding frame world active last).proceed frame (ends value world))
        (after value world))
    (lines : List Datum) (value : Value) (other : Frame) (before : World) (hsilent : world.Silent)
    (active : NameTable Nat) (last : Value) :
    base.Agrees ((base.holding other before active last).proceed frame
      ((World.stepLines value lines >>= World.BlockStep.progress wrap ends) world))
      ((Evaluation.runLines evaluate value lines >>= after) world) := by
  induction lines generalizing value other before world active last with
  | nil =>
    rw [base.proceed_holding other frame before world]
    exact hends value world active last hsilent
  | cons line lines ih =>
    have hliteral : base.Agrees ((base.holding other before active last).proceed frame
        ((World.place line >>= fun value =>
          World.stepLines value lines >>= World.BlockStep.progress wrap ends) world))
        ((Evaluation.perform (World.place line) >>= fun value =>
          Evaluation.runLines evaluate value lines >>= after) world) := by
      have hplaced : (world.placed line).Silent := hsilent
      exact ih (world.store.place line).1 other before hplaced active last
    cases line with
    | call site =>
      rw [World.stepLines, pure_bind, Evaluation.runLines, bind_assoc]
      change base.Agrees (Machine.schedule site ((base.holding other before active last).withTop
        { frame with continuation := some (wrap ⟨lines, value⟩) } world)) _
      rw [Machine.holding_withTop]
      apply agrees_call hevaluate hpaused hroom hsilent
      intro result reached active hreached
      have hwaits : { frame with continuation := some (wrap ⟨lines, value⟩) }.Ready :=
        ⟨hframe.ready.isOpen, hframe.ready.gathered, hframe.ready.enough⟩
      rw [hwaits.receive]
      apply Machine.Agrees.of_kept hframe hpaused
      rw [hkept]
      exact ih result frame reached hreached active result
    | procedure definition =>
      rw [World.stepLines, Evaluation.runLines]
      exact ih value other before hsilent active last
    | list items source span =>
      rw [World.stepLines, Evaluation.runLines, bind_assoc, bind_assoc]
      · exact hliteral
      all_goals simp
    | atom content =>
      cases content with
      | symbol name =>
        rw [base.proceed_holding other frame before world]
        change base.Agrees (.error _ ((base.holding frame world active last).withTop frame
          world)) _
        rw [Machine.holding_withTop]
        exact .error frame world active last _
      | number _ | boolean _ | quote _ | nil | none =>
        rw [World.stepLines, Evaluation.runLines, bind_assoc, bind_assoc]
        · exact hliteral
        all_goals simp

/-- What a form does that has one block to run. -/
theorem agrees_runBlock {form : Special} (hframe : frame.Fresh form) {handle : ListHandle}
    (hrun : ∀ continuation finished,
      World.runSpecial form frame.arguments continuation finished =
        World.runBlock handle continuation finished)
    (other : Frame) (before : World) (hsilent : world.Silent) (active : NameTable Nat)
    (last : Value) :
    base.Agrees ((base.holding other before active last).proceed frame
      (World.runBlock handle none none world))
      ((Evaluation.runBlock evaluate handle >>= Evaluation.leave frame.definition) world) := by
  rw [World.runBlock_none, Evaluation.runBlock, bind_assoc]
  apply Machine.Agrees.perform (World.orderly_readBlock handle) hsilent
  intro lines reached _ hreached
  apply agrees_block hevaluate hpaused hroom hframe
  · intro block value
    rw [hrun, World.runBlock_some]
  · intro value world active last hsilent
    exact .done hpaused hsilent active last value
  · exact hreached

/-- What the repeating form does with the block of one round and the rounds after it. -/
theorem agrees_runRounds (hframe : frame.Fresh .repeatBlock)
    (hlist : frame.arguments.getD 1 .nil = .list handle) (rounds : Nat) (lines : List Datum)
    (other : Frame) (before : World) (hsilent : world.Silent) (active : NameTable Nat)
    (last : Value) :
    base.Agrees ((base.holding other before active last).proceed frame
      (World.runRounds handle ⟨lines, .nil⟩ none rounds world))
      ((Evaluation.runLines evaluate .nil lines >>= fun value =>
        Evaluation.runRounds evaluate handle value rounds >>=
          Evaluation.leave frame.definition) world) := by
  have hkept : ∀ rounds block value,
      World.runSpecial .repeatBlock frame.arguments (some (.repeating rounds block)) (some value) =
        World.runRounds handle block (some value) rounds := by
    intro rounds block value
    simp only [World.runSpecial, World.repeatBlock, hlist]
    rfl
  induction rounds generalizing lines other before world active last with
  | zero =>
    rw [World.runRounds_zero]
    apply agrees_block hevaluate hpaused hroom hframe
    · intro block value
      rw [hkept, World.runRounds_zero]
    · intro value world active last hsilent
      exact .done hpaused hsilent active last value
    · exact hsilent
  | succ rounds ih =>
    rw [World.runRounds_succ]
    apply agrees_block hevaluate hpaused hroom hframe
    · intro block value
      rw [hkept, World.runRounds_succ]
    · intro value world active last hsilent
      rw [Evaluation.runRounds, Evaluation.runBlock]
      simp only [bind_assoc]
      apply Machine.Agrees.perform (World.orderly_readBlock handle) hsilent
      intro lines reached _ hreached
      exact ih lines frame world hreached active last
    · exact hsilent

/-! ## Special forms -/

/-- Special forms do what the evaluator says. -/
theorem agrees_form (hframe : frame.Fresh form) (other : Frame) (before : World)
    (hsilent : world.Silent) (active : NameTable Nat) (last : Value) :
    base.Agrees ((base.holding other before active last).proceed frame
      (World.runSpecial form frame.arguments none none world))
      ((Evaluation.runForm evaluate form frame.arguments >>= Evaluation.leave frame.definition)
        world) := by
  have hdone : ∀ (value : Value) (world : World), world.Silent →
      base.Agrees ((base.holding other before active last).proceed frame (.ok (.done value) world))
        (Evaluation.leave frame.definition value world) := by
    intro value world hsilent
    exact .done hpaused hsilent active last value
  have hname (value : Value) := World.orderly_expectName value
  have hlist (value : Value) := World.orderly_expectList value
  have htruth (value : Value) := World.orderly_expectBoolean value
  have hcount (value : Value) := World.orderly_expectInteger value
  cases form with
  | output => trivial
  | stop => trivial
  | run => trivial
  | pause => trivial
  | iterate mode => trivial
  | thing =>
    simp only [World.runSpecial, Evaluation.runForm, bind_assoc]
    apply Machine.Agrees.perform (hname _) hsilent
    intro name reached _ hreached
    rw [get_bind_apply, get_bind_apply]
    cases reached.environment.thing? name with
    | some value => exact hdone value reached hreached
    | none => exact .fails reached active last _
  | declare =>
    simp only [World.runSpecial, Evaluation.runForm, bind_assoc, pure_bind]
    apply Machine.Agrees.perform (hname _) hsilent
    intro name reached _ hreached
    apply Machine.Agrees.perform (World.orderly_declare name) hreached
    intro _ reached _ hreached
    exact hdone .none reached hreached
  | make =>
    simp only [World.runSpecial, Evaluation.runForm, bind_assoc, pure_bind]
    apply Machine.Agrees.perform (hname _) hsilent
    intro name reached _ hreached
    apply Machine.Agrees.perform (World.orderly_make name _) hreached
    intro _ reached _ hreached
    exact hdone _ reached hreached
  | declareMake =>
    simp only [World.runSpecial, Evaluation.runForm, bind_assoc, pure_bind]
    apply Machine.Agrees.perform (hname _) hsilent
    intro name reached _ hreached
    apply Machine.Agrees.perform (World.orderly_declare name) hreached
    intro _ reached _ hreached
    apply Machine.Agrees.perform (World.orderly_make name _) hreached
    intro _ reached _ hreached
    exact hdone _ reached hreached
  | ifThen =>
    simp only [World.runSpecial, Evaluation.runForm, bind_assoc]
    apply Machine.Agrees.perform (htruth _) hsilent
    intro truth reached hfirst hreached
    cases truth with
    | false => exact hdone .nil reached hreached
    | true =>
      simp only [if_true, bind_assoc]
      apply Machine.Agrees.perform (hlist _) hreached
      intro handle start hsecond hstart
      apply agrees_runBlock hevaluate hpaused hroom hframe
      · intro continuation finished
        simp only [World.runSpecial, World.eq_boolean_of_expectBoolean hfirst,
          World.eq_list_of_expectList hsecond]
        rfl
      · exact hstart
  | ifElse =>
    simp only [World.runSpecial, Evaluation.runForm, bind_assoc]
    apply Machine.Agrees.perform (htruth _) hsilent
    intro truth reached hfirst hreached
    apply Machine.Agrees.perform (hlist _) hreached
    intro handle start hbranch hstart
    apply agrees_runBlock hevaluate hpaused hroom hframe
    · intro continuation finished
      have hsame := World.eq_list_of_expectList hbranch
      simp only [World.runSpecial, World.eq_boolean_of_expectBoolean hfirst]
      change (World.expectList (if truth then _ else _) >>= _) = _
      rw [hsame]
      rfl
    · exact hstart
  | repeatBlock =>
    simp only [World.runSpecial, World.repeatBlock, Evaluation.runForm, bind_assoc]
    apply Machine.Agrees.perform (hlist _) hsilent
    intro handle reached hsecond hreached
    apply Machine.Agrees.perform (hcount _) hreached
    intro count start _ hstart
    by_cases hnone : count.toInt ≤ 0
    · rw [if_pos hnone, Int.toNat_of_nonpos hnone]
      exact hdone .nil start hstart
    · have hrounds : count.toInt.toNat = count.toInt.toNat - 1 + 1 := by omega
      rw [if_neg hnone, hrounds, Evaluation.runRounds, Evaluation.runBlock]
      simp only [World.startBlock, bind_assoc, pure_bind, Nat.add_sub_cancel]
      apply Machine.Agrees.perform (World.orderly_readBlock handle) hstart
      intro lines begun _ hbegun
      exact agrees_runRounds hevaluate hpaused hroom hframe (World.eq_list_of_expectList hsecond)
        _ lines other before hbegun active last

/-! ## Whole calls -/

/-- A procedure with all its inputs does what the evaluator says. -/
theorem agrees_applyTo (hall : arguments.length = call.inputs.length) (hsilent : world.Silent)
    (active : NameTable Nat) (last : Value) :
    base.Agrees (.ok () (base.holding (.gathered call definition arguments) world active last))
      ((Evaluation.applyTo evaluate definition arguments >>= Evaluation.leave definition)
        world) := by
  have hgathered : (Frame.gathered call definition arguments).needsArguments = false :=
    decide_eq_false (Nat.not_lt.mpr (Nat.le_of_eq hall.symm))
  apply Machine.Agrees.of_open hpaused rfl
  rw [hgathered, if_neg Bool.false_ne_true]
  by_cases hfew : arguments.length < definition.arity
  · have hshort : (Frame.gathered call definition arguments).arguments.length <
        (Frame.gathered call definition arguments).definition.arity := hfew
    rw [Evaluation.applyTo_of_few hfew, Machine.invoke_eq, Forms.invoke_apply, if_pos hshort]
    exact .error _ world active last _
  · have hready : (Frame.gathered call definition arguments).Ready := ⟨rfl, hgathered, hfew⟩
    have hbound : { Frame.gathered call definition arguments with bound := true }.Ready :=
      ⟨rfl, hgathered, hfew⟩
    have hprepared := World.silent_prepared hsilent (.gathered call definition arguments)
    rw [bind_apply, Evaluation.applyTo_of_enough hfew call, ← bind_apply, Evaluation.runProcedure]
    cases hkind : definition.kind with
    | native action =>
      rw [base.invoke_native hready hkind _ hprepared]
      exact .conclude hpaused (World.orderly_runNative action arguments) hprepared active last
    | special form =>
      have hspecial : definition.isSpecial = true := by
        rw [Procedure.isSpecial, hkind]
      rw [base.invoke_special hready hkind]
      rw [World.prepared_of_special hspecial]
      exact agrees_form hevaluate hpaused hroom ⟨hbound, hkind, rfl, rfl, rfl⟩ _ world hsilent
        active last
    | userDefined =>
      rw [base.invoke_userDefined hready hkind]
      exact agrees_body hevaluate hpaused hroom hbound hkind rfl rfl _ hprepared active last

end Calls

end Simulated

/-- Where the machine has so much room, it evaluates every call as the evaluator does. -/
theorem simulated_evaluate (room : Nat) : Simulated room (Evaluation.evaluate room) := by
  induction room with
  | zero =>
    intro call base hsilent hpaused hroom
    rw [Machine.schedule_apply, Evaluation.evaluate, Evaluation.lookup]
    simp only [bind_assoc]
    rw [get_bind_apply]
    cases base.world.environment.procedures.find? call.name with
    | none => exact .unknown base call.name
    | some definition => trivial
  | succ room ih =>
    intro call base hsilent hpaused hroom
    have hdepth : ¬base.maxDepth ≤ base.depth := by omega
    rw [Machine.schedule_apply, Evaluation.evaluate, Evaluation.lookup]
    simp only [bind_assoc]
    rw [get_bind_apply]
    cases base.world.environment.procedures.find? call.name with
    | none => exact .unknown base call.name
    | some definition =>
      obtain ⟨active, henter⟩ := Machine.exists_enter_eq_holding hsilent call definition
      dsimp only
      rw [if_neg hdepth, henter, pure_bind, modify_bind_apply]
      have happly : ∀ values world active last, world.Silent →
          values.length = call.inputs.length →
          base.Agrees
            (.ok () (base.holding (.gathered call definition values) world active last))
            ((Evaluation.applyTo (Evaluation.evaluate room) definition values >>=
              Evaluation.leave definition) world) := by
        intro values world active last hsilent hall
        exact Simulated.agrees_applyTo ih hpaused hroom hall hsilent active last
      have hinputs : call.inputs.drop ([] : List Value).length = call.inputs := rfl
      have hopened : (base.world.opened definition).Silent := hsilent
      exact Simulated.agrees_inputs ih hpaused hroom happly hinputs (Nat.zero_le _) hopened
        active base.lastResult

end Logo
