import Logo.Proofs.BlockLines

/-!
# Code that lies in the store

Here lists are shared storage wherever they stand, in code as well. Every list in the code of a
machine has cells among those of the lists that programs compute with, and what it stands for is
what the cells hold at the moment. Lists that are the same, also in their text and in their place,
share their cells. The machine makes the steps of the other one; only where an input or a line is a
list, it hands out a copy of what the cells hold. If it handed out the cells themselves, a program
could change the code.
-/

namespace Logo

/-! ## The lists of code -/

mutual

/-- The lists that stand in code as inputs or lines. -/
def Datum.literals : Datum → List Datum
  | .atom _ => []
  | .list items source span => [.list items source span]
  | .call ⟨_, inputs, _⟩ => literalsOf inputs
  | .procedure ⟨_, _, _, body, _⟩ => literalsOf body

def Datum.literalsOf : List Datum → List Datum
  | [] => []
  | datum :: data => datum.literals ++ literalsOf data

end

def Continuation.lines : Continuation → List Datum
  | .block waiting | .repeating _ waiting => waiting.lines
  | .running | .iterating _ => []

/-- The inputs of the call, the lines of its body and those of its block that are still to be run.
-/
def Frame.code (frame : Frame) : List Datum :=
  frame.call.inputs ++ frame.definition.body ++ frame.continuation.elim [] Continuation.lines

/-- The code of a line that is still to be run. A line that is a list has been handed out: it is a
value. -/
def Value.code : Value → List Datum
  | .call site => site.inputs
  | .procedure definition => definition.body
  | .atom _ | .list _ => []

namespace Machine

/-- All lines that are still to be run, those put aside included. -/
def queue (machine : Machine) : List Value :=
  machine.program ++ machine.bounded.flatMap (·.program)

/-- All code: that of the procedures, of the active calls and of the lines still to be run. -/
def code (machine : Machine) : List Datum :=
  machine.world.environment.procedures.entries.flatMap (·.2.body) ++
    machine.allFrames.flatMap Frame.code ++ machine.queue.flatMap Value.code

end Machine

/-! ## Steps -/

/-- The lists of code that have cells, and where these are. -/
abbrev Pool := List (Datum × ListHandle)

namespace Pool

-- How lists are told apart does not matter: floats among them have no equality that could be run.
variable [DecidableEq Datum] (pool : Pool)

def cells? (literal : Datum) : Option ListHandle :=
  (pool.find? (·.1 = literal)).map (·.2)

/-- Hands out a copy of what the cells of a list of code hold. What has no cells is no list, or was
read in this very step. -/
def hand (store : Store) (literal : Datum) : Value × Store :=
  match pool.cells? literal with
  | some handle => store.copy (.list handle)
  | none => store.place literal

/-- A line of a block as the store shows it. -/
def look (store : Store) (line : Datum) : Datum :=
  match pool.cells? line with
  | some handle => store.view (.list handle)
  | none => line

def refresh (store : Store) : Continuation → Continuation
  | .block block => .block { block with lines := block.lines.map (pool.look store) }
  | .repeating remaining block =>
    .repeating remaining { block with lines := block.lines.map (pool.look store) }
  | kept => kept

def takeInput (frame : Frame) (world : World) : Turn :=
  match frame.nextInput? with
  | some (.call site) => ⟨frame, world, .call site⟩
  | some literal =>
    let (value, store) := pool.hand world.store literal
    ⟨{ frame with arguments := frame.arguments ++ [value] }, { world with store }, .stay⟩
  | none => ⟨frame, world, .stay⟩

def takeLine (frame : Frame) (world : World) : Turn :=
  let next := { frame with cursor := frame.cursor + 1 }
  match frame.definition.body[frame.cursor]? with
  | some (.call site) => ⟨next, world, .call site⟩
  | some (.atom (.symbol name)) => ⟨next, world, .fail (.unknownProcedure name)⟩
  | some (.procedure _) => ⟨next, world, .stay⟩
  | some literal =>
    let (value, store) := pool.hand world.store literal
    ⟨{ next with result := some value }, { world with store }, .stay⟩
  | none => ⟨frame.finish (frame.result.getD .nil), world, .stay⟩

variable [Segmentation]

/-- The special forms. The lines of a block that waits are looked up before it goes on. -/
def forms : Forms := fun form inputs continuation finished world =>
  World.runSpecial form inputs (continuation.map (pool.refresh world.store)) finished world

def turn (frame : Frame) (world : World) : Turn :=
  if frame.needsArguments then pool.takeInput frame world
  else if frame.definition.isUserDefined ∧ frame.definition.arity ≤ frame.arguments.length then
    pool.takeLine { frame with bound := true } (world.prepared frame)
  else pool.forms.turn frame world

def step (machine : Machine) : EStateM.Result RuntimeError Machine Unit :=
  match machine.frames.top? with
  | none => Machine.advanceProgram machine
  | some frame =>
    if frame.evaluated then .ok () machine.unschedule.2
    else machine.make (pool.turn frame machine.world)

def tick : Engine Bool := fun machine =>
  if machine.paused then .ok machine.hasWork machine
  else
    match pool.step machine with
    | .ok _ machine => .ok machine.hasWork machine
    | .error cause machine => .error cause machine

end Pool

/-! ## What is done to a machine -/

/-- A script is put behind the lines that are left, a step is made, the machine is stopped or goes
on, or all work is given up. -/
inductive Deed where
  | load (source : String)
  | tick
  | pause
  | lift
  | reset

/-- Does it to a machine that makes its steps in the given way. -/
def Deed.perform (tick : Engine Bool) : Deed → EStateM Error Machine Unit
  | .load source => do
    let program ← Machine.readProgramList source
    modify (·.started program)
  | .tick => do
    let _ ← Machine.running tick
  | .pause => modify Machine.pause
  | .lift => modify Machine.lifted
  | .reset => modify Machine.reset

/-- Performs deeds one after the other. The answers say which of them have failed, and why. -/
def Deed.performAll {σ : Type} (act : Deed → EStateM Error σ Unit) (state : σ) :
    List Deed → List (Option Error) × σ
  | [] => ([], state)
  | deed :: deeds =>
    match act deed state with
    | .ok _ state =>
      let (answers, state) := performAll act state deeds
      (none :: answers, state)
    | .error cause state =>
      let (answers, state) := performAll act state deeds
      (some cause :: answers, state)

/-- A machine, and where the lists of its code have their cells. -/
structure Memory where
  machine : Machine
  pool : Pool

namespace Memory

def new (maxDepth : Nat) (console : Console) (log : Log) : Memory :=
  ⟨.new maxDepth console log, []⟩

def store (memory : Memory) : Store :=
  memory.machine.world.store

variable [DecidableEq Datum]

/-- A list of code gets cells if it has none. -/
def plant (memory : Memory) (literal : Datum) : Memory :=
  match memory.pool.cells? literal with
  | some _ => memory
  | none =>
    match memory.machine.place literal with
    | (.list handle, machine) => ⟨machine, (literal, handle) :: memory.pool⟩
    | _ => memory

/-- All lists of code get cells. -/
def settle (memory : Memory) : Memory :=
  (Datum.literalsOf memory.machine.code).foldl plant memory

variable [Segmentation]

/-- Something is done to the machine, and the code that is new is planted. -/
def perform (deed : Deed) : EStateM Error Memory Unit := fun memory =>
  match deed.perform memory.pool.tick memory.machine with
  | .ok _ machine => .ok () (settle ⟨machine, memory.pool⟩)
  | .error cause machine => .error cause (settle ⟨machine, memory.pool⟩)

end Memory

/-! ## Cells that show their lists -/

/-- Inputs are bound without the store. -/
theorem World.store_prepared (world : World) (frame : Frame) :
    (world.prepared frame).store = world.store := by
  have hnote : ∀ (world : World) (level : LogLevel) (message : World → String),
      (world.note level message).store = world.store := by
    intro world level message
    rw [World.note]
    split <;> rfl
  have hbind : ∀ (params : List String) (values : List Value) (world : World),
      (world.bindAll params values).store = world.store := by
    intro params
    induction params with
    | nil => exact fun _ _ => rfl
    | cons param params ih =>
      intro values world
      cases values with
      | nil => rfl
      | cons value values => exact (ih values _).trans ((hnote _ _ _).trans (hnote _ _ _))
  rw [prepared]
  split
  · rfl
  · exact hbind _ _ _

namespace Pool

variable {pool : Pool} {store : Store}

variable [DecidableEq Datum]

def Sound (pool : Pool) (store : Store) : Prop :=
  ∀ literal handle, pool.cells? literal = some handle → store.view (.list handle) = literal

theorem cells?_cons (pool : Pool) (literal other : Datum) (handle : ListHandle) :
    Pool.cells? ((other, handle) :: pool) literal =
      if other = literal then some handle else pool.cells? literal := by
  rw [cells?, List.find?_cons]
  by_cases hsame : other = literal
  · rw [if_pos hsame, decide_eq_true hsame]
    rfl
  · rw [if_neg hsame, decide_eq_false hsame]
    rfl

/-- A list of code stands for what its cells hold, also if they have been changed. -/
theorem view_hand {literal : Datum} {handle : ListHandle}
    (hcells : pool.cells? literal = some handle) (store : Store) :
    (pool.hand store literal).2.view (pool.hand store literal).1 = store.view (.list handle) := by
  rw [hand, hcells]
  exact store.view_place _

variable (hsound : pool.Sound store)

include hsound

theorem hand_eq (literal : Datum) : pool.hand store literal = store.place literal := by
  rw [hand]
  split
  · rename_i handle hcells
    rw [Store.copy, hsound literal handle hcells]
  · rfl

theorem look_eq (line : Datum) : pool.look store line = line := by
  rw [look]
  split
  · rename_i handle hcells
    exact hsound line handle hcells
  · rfl

theorem refresh_eq (kept : Continuation) : pool.refresh store kept = kept := by
  have hlook : pool.look store = id := funext (look_eq hsound)
  cases kept with
  | block _ | repeating _ _ => rw [refresh, hlook, List.map_id]
  | running | iterating _ => rfl

theorem takeInput_eq (frame : Frame) {world : World} (hstore : world.store = store) :
    pool.takeInput frame world = frame.takeInput world := by
  subst hstore
  rw [takeInput, Frame.takeInput]
  cases frame.nextInput? with
  | none => rfl
  | some input =>
    cases input with
    | call site => rfl
    | atom _ | list _ _ _ | procedure _ =>
      dsimp only
      rw [hand_eq hsound]
      rfl

theorem takeLine_eq (frame : Frame) {world : World} (hstore : world.store = store) :
    pool.takeLine frame world = frame.takeLine world := by
  subst hstore
  rw [takeLine, Frame.takeLine]
  dsimp only
  cases frame.definition.body[frame.cursor]? with
  | none => rfl
  | some line =>
    cases line with
    | call site => rfl
    | procedure definition => rfl
    | list items source span =>
      dsimp only
      rw [hand_eq hsound]
      rfl
    | atom value =>
      cases value with
      | symbol name => rfl
      | number _ | boolean _ | quote _ | nil | none =>
        dsimp only
        rw [hand_eq hsound]
        rfl

variable [Segmentation]

theorem forms_eq (form : Special) (inputs : List Value) (continuation : Option Continuation)
    (finished : Option Value) {world : World} (hstore : world.store = store) :
    pool.forms form inputs continuation finished world =
      World.runSpecial form inputs continuation finished world := by
  subst hstore
  have hrefresh : pool.refresh world.store = id := funext (refresh_eq hsound)
  rw [forms, hrefresh, Option.map_id, id]

/-- With a sound pool, a turn is that of the plain machine. -/
theorem turn_eq (frame : Frame) {world : World} (hstore : world.store = store) :
    pool.turn frame world = Forms.standard.turn frame world := by
  rw [turn, Forms.turn, Forms.turn]
  split
  · exact takeInput_eq hsound frame hstore
  · cases hkind : frame.definition.kind with
    | native action =>
      simp only [Procedure.isUserDefined, hkind, Bool.false_eq_true, false_and, if_false]
    | special form =>
      have hspecial : frame.definition.isSpecial = true := by rw [Procedure.isSpecial, hkind]
      simp only [Procedure.isUserDefined, hkind, Bool.false_eq_true, false_and, if_false,
        World.prepared_of_special hspecial, forms_eq hsound _ _ _ _ hstore]
    | userDefined =>
      have hline := takeLine_eq hsound { frame with bound := true }
        ((world.store_prepared frame).trans hstore)
      simp only [Procedure.isUserDefined, hkind, true_and, hline, ← Nat.not_lt, ite_not]
      split <;> rfl

/-- With a sound pool, a step is that of the plain machine. -/
theorem step_eq {machine : Machine} (hstore : machine.world.store = store) :
    pool.step machine = Machine.step machine := by
  rw [step]
  obtain ⟨htop, hstep⟩ | ⟨frame, htop, ⟨hevaluated, hstep⟩ | ⟨hopen, hstep⟩⟩ := machine.step_cases
  · rw [htop, hstep]
  · rw [htop, hstep]
    dsimp only
    rw [hevaluated]
    rfl
  · rw [htop, hstep]
    dsimp only
    rw [hopen, turn_eq hsound frame hstore]
    rfl

theorem tick_eq {machine : Machine} (hstore : machine.world.store = store) :
    pool.tick machine = Machine.tick machine := by
  rw [tick]
  split
  · rename_i hpaused
    exact (Machine.tick_of_paused hpaused).symm
  · rename_i hrunning
    rw [step_eq hsound hstore]
    exact (Machine.tick_of_running (eq_false_of_ne_true hrunning)).symm

/-- As long as the cells of code show what was read, the machine does what it would do without
them. -/
theorem perform_eq (deed : Deed) {machine : Machine} (hstore : machine.world.store = store) :
    deed.perform pool.tick machine = deed.perform Machine.tick machine := by
  cases deed with
  | tick =>
    rw [Deed.perform, Deed.perform, bind_apply, bind_apply, Machine.running, Machine.running,
      tick_eq hsound hstore]
  | load _ | pause | lift | reset => rfl

end Pool

end Logo
