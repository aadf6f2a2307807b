import Logo.Proofs.Orderly
import Logo.Proofs.Turns

/-!
# Calls make the same moves

The frames of two calls are alike if the calls have come equally far with values that are alike. In
worlds that are alike, such calls make the same move, and are alike afterwards. What is known of
primitives, whatever it is, is known of turns by this.
-/

namespace Logo

/-! ## Frames -/

theorem rel_eq {α : Type} {same : α → α → Prop}
    (heq : ∀ {left right}, same left right → left = right) {left right : Option α}
    (hrel : Option.Rel same left right) : left = right := by
  cases hrel with
  | none => rfl
  | some hsame => rw [heq hsame]

/-- The calls are the same and have come equally far. Their inputs and lines may stand in
programs. -/
structure Frame.Alike (values : Value → Value → Prop) (code : Datum → Prop) (left right : Frame) :
    Prop where
  call : left.call = right.call
  definition : left.definition = right.definition
  inputs : ∀ input ∈ left.call.inputs, code input
  body : ∀ line ∈ left.definition.body, code line
  arguments : List.Forall₂ values left.arguments right.arguments
  bound : left.bound = right.bound
  cursor : left.cursor = right.cursor
  result : Option.Rel values left.result right.result
  evaluated : left.evaluated = right.evaluated
  continuation : Option.Rel (Continuation.Alike values code) left.continuation right.continuation

namespace Frame.Alike

variable {values others : Value → Value → Prop} {code : Datum → Prop} {left right : Frame}
  {value other : Value}

theorem new {call : Call} {definition : Procedure} (hinputs : ∀ input ∈ call.inputs, code input)
    (hbody : ∀ line ∈ definition.body, code line) :
    (Frame.new call definition).Alike values code (.new call definition) :=
  ⟨rfl, rfl, hinputs, hbody, .nil, rfl, rfl, .none, rfl, .none⟩

theorem self (frame : Frame) : frame.Alike Eq (fun _ => True) frame :=
  ⟨rfl, rfl, fun _ _ => trivial, fun _ _ => trivial, forall₂_self _, rfl, rfl,
    rel_self (fun _ => rfl) _, rfl, rel_self Continuation.alike_self _⟩

theorem eq (halike : left.Alike Eq code right) : left = right := by
  obtain ⟨hcall, hdefinition, -, -, harguments, hbound, hcursor, hresult, hevaluated, hkept⟩ :=
    halike
  rw [List.forall₂_eq_eq_eq] at harguments
  have hresult := rel_eq id hresult
  have hkept := rel_eq Continuation.Alike.eq hkept
  cases left
  cases right
  rw [Frame.mk.injEq]
  exact ⟨hcall, hdefinition, harguments, hbound, hcursor, hresult, hevaluated, hkept⟩

variable (halike : left.Alike values code right)

include halike

theorem mono (hmono : ∀ {first second}, values first second → others first second) :
    left.Alike others code right :=
  ⟨halike.call, halike.definition, halike.inputs, halike.body,
    halike.arguments.imp fun _ _ => hmono, halike.bound, halike.cursor,
    rel_mono hmono halike.result, halike.evaluated, rel_mono (·.mono hmono) halike.continuation⟩

theorem needsArguments_eq : left.needsArguments = right.needsArguments := by
  rw [needsArguments, needsArguments, halike.arguments.length_eq, halike.call]

theorem nextInput?_eq : left.nextInput? = right.nextInput? := by
  rw [nextInput?, nextInput?, halike.arguments.length_eq, halike.call]

theorem withResult (hvalue : values value other) :
    Frame.Alike values code { left with result := some value }
      { right with result := some other } :=
  ⟨halike.call, halike.definition, halike.inputs, halike.body, halike.arguments, halike.bound,
    halike.cursor, .some hvalue, halike.evaluated, halike.continuation⟩

theorem withArgument (hvalue : values value other) :
    Frame.Alike values code { left with arguments := left.arguments ++ [value] }
      { right with arguments := right.arguments ++ [other] } :=
  ⟨halike.call, halike.definition, halike.inputs, halike.body,
    List.rel_append halike.arguments (.cons hvalue .nil), halike.bound, halike.cursor,
    halike.result, halike.evaluated, halike.continuation⟩

theorem withBound :
    Frame.Alike values code { left with bound := true } { right with bound := true } :=
  ⟨halike.call, halike.definition, halike.inputs, halike.body, halike.arguments, rfl,
    halike.cursor, halike.result, halike.evaluated, halike.continuation⟩

theorem withCursor :
    Frame.Alike values code { left with cursor := left.cursor + 1 }
      { right with cursor := right.cursor + 1 } :=
  ⟨halike.call, halike.definition, halike.inputs, halike.body, halike.arguments, halike.bound,
    congrArg (· + 1) halike.cursor, halike.result, halike.evaluated, halike.continuation⟩

theorem withContinuation {kept copy : Option Continuation}
    (hkept : Option.Rel (Continuation.Alike values code) kept copy) :
    Frame.Alike values code { left with continuation := kept }
      { right with continuation := copy } :=
  ⟨halike.call, halike.definition, halike.inputs, halike.body, halike.arguments, halike.bound,
    halike.cursor, halike.result, halike.evaluated, hkept⟩

/-- The form is run: what the frame has kept for it is taken away. -/
theorem cleared :
    Frame.Alike values code { left with continuation := none, result := none }
      { right with continuation := none, result := none } :=
  ⟨halike.call, halike.definition, halike.inputs, halike.body, halike.arguments, halike.bound,
    halike.cursor, .none, halike.evaluated, .none⟩

theorem finish (hvalue : values value other) :
    (left.finish value).Alike values code (right.finish other) :=
  ⟨halike.call, halike.definition, halike.inputs, halike.body, halike.arguments, halike.bound,
    halike.cursor, .some hvalue, rfl, halike.continuation⟩

theorem receive (hvalue : values value other) :
    (left.receive value).Alike values code (right.receive other) := by
  rw [Frame.receive, Frame.receive, halike.needsArguments_eq]
  split
  · exact halike.withArgument hvalue
  · exact halike.withResult hvalue

end Frame.Alike

/-! ## Turns -/

inductive Move.Alike (values : Value → Value → Prop) (code : Datum → Prop) : Move → Move → Prop where
  | stay : Alike values code .stay .stay
  | fail (cause : RuntimeError) : Alike values code (.fail cause) (.fail cause)
  | call {site : Call} (hsite : code (.call site)) : Alike values code (.call site) (.call site)
  | output {left right : Value} (hvalue : values left right) :
      Alike values code (.output left) (.output right)
  | pause : Alike values code .pause .pause
  | bounded {program lines : List Value} (hprogram : List.Forall₂ values program lines) :
      Alike values code (.bounded program) (.bounded lines)

theorem Move.Alike.eq {code : Datum → Prop} {left right : Move} (halike : left.Alike Eq code right) :
    left = right := by
  cases halike with
  | output hvalue => rw [hvalue]
  | bounded hprogram =>
    rw [List.forall₂_eq_eq_eq] at hprogram
    rw [hprogram]
  | stay | fail _ | call _ | pause => rfl

theorem World.traced_eq (world : World) (definition : Procedure) :
    world.traced definition = world.note .trace fun _ => "call primitive " ++ definition.name := by
  rw [traced, note, Log.noted]
  split <;> rfl

namespace Likeness

variable (same : Likeness)

abbrev frames (stage : same.Stage) : Frame → Frame → Prop :=
  Frame.Alike (same.values stage) same.code

def Turns (stage : same.Stage) (left right : Turn) : Prop :=
  ∃ later, same.grows stage later ∧ same.frames later left.frame right.frame ∧
    same.worlds later left.world right.world ∧
    left.move.Alike (same.values later) same.code right.move

variable {same} {stage : same.Stage} {frame other : Frame} {left right : World}

theorem Turns.here (hframe : same.frames stage frame other) (hworlds : same.worlds stage left right)
    {move next : Move} (hmove : move.Alike (same.values stage) same.code next) :
    same.Turns stage ⟨frame, left, move⟩ ⟨other, right, next⟩ :=
  ⟨stage, same.refl stage, hframe, hworlds, hmove⟩

theorem Turns.mono {later : same.Stage} (hgrows : same.grows stage later) {turn next : Turn}
    (hturns : same.Turns later turn next) : same.Turns stage turn next := by
  obtain ⟨final, hfinal, hturns⟩ := hturns
  exact ⟨final, same.trans hgrows hfinal, hturns⟩

/-- A literal is placed, and the frames take its value in. -/
theorem turns_place {literal : Datum} (hliteral : same.code literal)
    (hworlds : same.worlds stage left right) (hold held : Value → Frame)
    (hhold : ∀ later, same.grows stage later → ∀ value copy, same.values later value copy →
      same.frames later (hold value) (held copy)) :
    same.Turns stage
      ⟨hold (left.store.place literal).1, left.placed literal, .stay⟩
      ⟨held (right.store.place literal).1, right.placed literal, .stay⟩ := by
  have hends := same.place (same.fineCode hliteral) stage (same.refl stage) left right hworlds
  cases hends with
  | ok hgrows hafter hvalue => exact ⟨_, hgrows, hhold _ hgrows _ _ hvalue, hafter, .stay⟩

section

variable (hframe : same.frames stage frame other) (hworlds : same.worlds stage left right)

include hframe hworlds

/-- The next input is taken on both sides. -/
theorem turns_takeInput : same.Turns stage (frame.takeInput left) (other.takeInput right) := by
  have hliteral : ∀ {literal}, same.code literal → same.Turns stage
      ⟨{ frame with arguments := frame.arguments ++ [(left.store.place literal).1] },
        left.placed literal, .stay⟩
      ⟨{ other with arguments := other.arguments ++ [(right.store.place literal).1] },
        right.placed literal, .stay⟩ := fun hcode =>
    turns_place hcode hworlds (fun value => { frame with arguments := frame.arguments ++ [value] })
      (fun value => { other with arguments := other.arguments ++ [value] })
      fun _ hgrows _ _ hvalue => (hframe.mono (same.mono hgrows)).withArgument hvalue
  rw [Frame.takeInput, Frame.takeInput, ← hframe.nextInput?_eq]
  cases hnext : frame.nextInput? with
  | none => exact .here hframe hworlds .stay
  | some input =>
    have hcode := hframe.inputs input (List.mem_of_getElem? hnext)
    cases input with
    | call site => exact .here hframe hworlds (.call hcode)
    | atom _ | list _ _ _ | procedure _ => exact hliteral hcode

/-- The next line of the body is taken on both sides. -/
theorem turns_takeLine : same.Turns stage (frame.takeLine left) (other.takeLine right) := by
  have hmoved := hframe.withCursor
  have hliteral : ∀ {literal}, same.code literal → same.Turns stage
      ⟨{ frame with
          cursor := frame.cursor + 1
          result := some (left.store.place literal).1 }, left.placed literal, .stay⟩
      ⟨{ other with
          cursor := other.cursor + 1
          result := some (right.store.place literal).1 }, right.placed literal, .stay⟩ :=
    fun hcode => turns_place hcode hworlds
      (fun value => { frame with cursor := frame.cursor + 1, result := some value })
      (fun value => { other with cursor := other.cursor + 1, result := some value })
      fun _ hgrows _ _ hvalue => (hmoved.mono (same.mono hgrows)).withResult hvalue
  have hsame : other.definition.body[other.cursor]? = frame.definition.body[frame.cursor]? := by
    rw [hframe.definition, hframe.cursor]
  rw [Frame.takeLine, Frame.takeLine]
  dsimp only
  rw [hsame]
  cases hline : frame.definition.body[frame.cursor]? with
  | none =>
    exact .here (hframe.finish (rel_getD hframe.result (same.atom .nil))) hworlds .stay
  | some line =>
    have hcode := hframe.body line (List.mem_of_getElem? hline)
    cases line with
    | call site => exact .here hmoved hworlds (.call hcode)
    | procedure _ => exact .here hmoved hworlds .stay
    | list _ _ _ => exact hliteral hcode
    | atom value =>
      cases value with
      | symbol name => exact .here hmoved hworlds (.fail _)
      | number _ | boolean _ | quote _ | nil | none => exact hliteral hcode

omit hworlds in
theorem turns_conclude {first second : EStateM.Result RuntimeError World Value}
    (hends : same.Ends stage same.values first second) :
    same.Turns stage (frame.conclude first) (other.conclude second) := by
  cases hends with
  | ok hgrows hafter hvalue =>
    exact ⟨_, hgrows, (hframe.mono (same.mono hgrows)).finish hvalue, hafter, .stay⟩
  | error _ hgrows hafter => exact ⟨_, hgrows, hframe.mono (same.mono hgrows), hafter, .fail _⟩

omit hworlds in
theorem turns_proceed {first second : EStateM.Result RuntimeError World Progress}
    (hends : same.Ends stage same.progress first second) :
    same.Turns stage (frame.proceed first) (other.proceed second) := by
  cases hends with
  | error _ hgrows hafter => exact ⟨_, hgrows, hframe.mono (same.mono hgrows), hafter, .fail _⟩
  | ok hgrows hafter hprogress =>
    have hkept := hframe.mono (same.mono hgrows)
    cases hprogress with
    | done hvalue => exact ⟨_, hgrows, hkept.finish hvalue, hafter, .stay⟩
    | output hvalue => exact ⟨_, hgrows, hkept, hafter, .output hvalue⟩
    | pause => exact ⟨_, hgrows, hkept.finish (same.atom .none), hafter, .pause⟩
    | call hsite hnext =>
      exact ⟨_, hgrows, hkept.withContinuation (.some hnext), hafter, .call hsite⟩
    | bounded hprogram hnext =>
      exact ⟨_, hgrows, hkept.withContinuation (.some hnext), hafter, .bounded hprogram⟩

/-- The inputs are given to variables on both sides, unless that was done before. -/
theorem exists_prepared : ∃ later, same.grows stage later ∧
    same.worlds later (left.prepared frame) (right.prepared other) := by
  rw [World.prepared, World.prepared, hframe.bound, hframe.definition]
  split
  · exact ⟨stage, same.refl stage, hworlds⟩
  · have hends := same.bindInputs other.definition.params hframe.arguments stage (same.refl stage)
      left right hworlds
    rw [Machine.bindInputs_apply, Machine.bindInputs_apply] at hends
    cases hends with
    | ok hgrows hafter _ => exact ⟨_, hgrows, hafter⟩

variable [Segmentation]

/-- Calls that are alike make the same move, if the form of the call, should it be one, has come
equally far. -/
theorem turn {forms : Forms}
    (hforms : ∀ form, frame.definition.kind = .special form → frame.needsArguments = false →
      frame.definition.arity ≤ frame.arguments.length →
      same.Ends stage same.progress (forms form frame.arguments frame.continuation frame.result left)
        (forms form other.arguments other.continuation other.result right)) :
    same.Turns stage (forms.turn frame left) (forms.turn other right) := by
  have hsame := congrArg Procedure.arity hframe.definition
  rw [Forms.turn, Forms.turn, ← hframe.needsArguments_eq, ← hframe.arguments.length_eq, ← hsame]
  split
  · exact turns_takeInput hframe hworlds
  · rename_i hneeds
    split
    · rw [hframe.definition]
      exact .here hframe hworlds (.fail _)
    · rename_i henough
      obtain ⟨later, hgrows, hready⟩ := exists_prepared hframe hworlds
      have hbound := (hframe.mono (same.mono hgrows)).withBound
      dsimp only
      cases hkind : frame.definition.kind with
      | native action =>
        rw [show other.definition.kind = .native action from hframe.definition ▸ hkind]
        have hruns := same.runNative action (same.all_mono hgrows hframe.arguments)
        refine (turns_conclude hbound (hruns later (same.refl later) _ _ ?_)).mono hgrows
        rw [World.traced_eq, World.traced_eq, hframe.definition]
        exact same.note _ _ hready
      | userDefined =>
        rw [show other.definition.kind = .userDefined from hframe.definition ▸ hkind]
        exact (turns_takeLine hbound hready).mono hgrows
      | special form =>
        have hspecial : frame.definition.isSpecial = true := by rw [Procedure.isSpecial, hkind]
        rw [show other.definition.kind = .special form from hframe.definition ▸ hkind,
          World.prepared_of_special hspecial,
          World.prepared_of_special (hframe.definition ▸ hspecial)]
        exact turns_proceed hframe.withBound.cleared
          (hforms form hkind (eq_false_of_ne_true hneeds) (Nat.le_of_not_lt henough))

end

end Likeness

/-! ## Turns in silence -/

namespace Forms

variable {forms : Forms} (horderly : ∀ form inputs continuation finished,
  Orderly (forms form inputs continuation finished))

include horderly

variable [Segmentation]

/-- What a call does next does not hang on the log, and keeps what no primitive can break. -/
theorem exists_turn_eq {holds : Environment → Prop} (hstable : Environment.Stable holds)
    {quiet : Prop} {left right : World} (hworlds : (Comparison.silent holds quiet).worlds () left right)
    (frame : Frame) :
    ∃ after, forms.turn frame right = { forms.turn frame left with world := after } ∧
      (Comparison.silent holds quiet).worlds () (forms.turn frame left).world after := by
  obtain ⟨_, -, hframe, hafter, hmove⟩ :=
    (Likeness.silent hstable quiet).turn (Frame.Alike.self frame) hworlds fun form _ _ _ =>
      ((horderly form _ _ _).acts hstable quiet () trivial left right hworlds).imp
        fun _ progress _ hsame => hsame ▸ progress.alike_self
  refine ⟨(forms.turn frame right).world, ?_, hafter⟩
  dsimp only
  rw [hframe.eq, hmove.eq]

/-- What no primitive can break of the variables and procedures is kept by a turn. -/
theorem keeps_turn {holds : Environment → Prop} (hstable : Environment.Stable holds) {world : World}
    (hworld : holds world.environment) (frame : Frame) :
    holds (forms.turn frame world).world.environment := by
  have hworlds : (Comparison.silent holds False).worlds () world world :=
    ⟨world.log, rfl, hworld, False.elim⟩
  obtain ⟨-, -, -, -, hholds, -⟩ := exists_turn_eq horderly hstable hworlds frame
  exact hholds

end Forms

end Logo
