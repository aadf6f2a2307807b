import Logo.Proofs.Guises

/-!
# The log has no influence

A machine writes to its log, but nothing that it does depends on what the log keeps. So every step
can be taken on a machine without a log, and gives there what it gives on the machine itself, apart
from the records. The mark of a pause has no influence on a step either, once the machine makes it;
only the form that pauses sets it.
-/

namespace Logo

def Forms.Unpausing (forms : Forms) : Prop :=
  ∀ form inputs continuation finished world after,
    forms form inputs continuation finished world ≠ .ok .pause after

namespace Machine

def silence (machine : Machine) : Machine :=
  { machine with world := machine.world.silence }

def muted (mark : Bool → Bool) (machine : Machine) : Machine :=
  { machine.silence with paused := mark machine.paused }

theorem note_of_silent {machine : Machine} (hsilent : machine.world.Silent)
    (level : LogLevel) (message : Machine → String) : machine.note level message = machine := by
  rw [note, show machine.world.log = .new none from hsilent]
  rfl

theorem silence_of_silent {machine : Machine} (hsilent : machine.world.Silent) :
    machine.silence = machine := by
  rw [silence, World.silence, ← show machine.world.log = .new none from hsilent]

@[simp]
theorem silence_note (machine : Machine) (level : LogLevel) (message : Machine → String) :
    (machine.note level message).silence = machine.silence := by
  rw [note_eq]
  rfl

/-- What gives the same without a log does not make one speak. -/
theorem keeps_silent {α : Type} {action : Engine α} (haction : Commutes silence action) :
    Keeps (fun machine => machine.world.Silent) action := by
  intro machine hsilent
  have hrun := haction machine
  rw [silence_of_silent hsilent] at hrun
  rw [hrun]
  cases action machine with
  | ok value after => exact after.world.silent_silence
  | error cause after => exact after.world.silent_silence

section Muted

variable (mark : Bool → Bool)

@[simp]
theorem note_muted (machine : Machine) (level : LogLevel) (message : Machine → String) :
    (machine.muted mark).note level message = machine.muted mark :=
  note_of_silent machine.world.silent_silence level message

@[simp]
theorem muted_note (machine : Machine) (level : LogLevel) (message : Machine → String) :
    (machine.note level message).muted mark = machine.muted mark := by
  rw [note_eq]
  rfl

theorem deliver_muted (machine : Machine) (value : Value) :
    (machine.muted mark).deliver value = (machine.deliver value).muted mark := by
  have hframes : (machine.muted mark).frames = machine.frames := rfl
  rw [deliver, deliver, hframes]
  cases machine.frames.top? <;> rfl

variable [Segmentation]

def muting : Guise :=
  { Disguise.silent.plain with paused := mark }

variable {mark}

theorem wears_muted (machine : Machine) : (muting mark).Wears machine (machine.muted mark) :=
  .intro rfl rfl

theorem eq_muted (first second : Machine) (hwears : (muting mark).Wears first second) :
    second = first.muted mark := by
  cases hwears with
  | intro hworld hactive =>
    cases congrArg World.log hworld
    cases hactive
    rfl

variable (mark)

theorem enter_muted (machine : Machine) (call : Call) (definition : Procedure) :
    (machine.muted mark).enter call definition = (machine.enter call definition).muted mark :=
  eq_muted _ _ ((wears_muted machine).enter call definition)

theorem commutes_schedule (call : Call) : Commutes (muted mark) (schedule call) :=
  fun machine => ((wears_muted machine).schedule rfl call).eq_mapState eq_muted

end Muted

end Machine

namespace Forms

variable [Segmentation] {forms : Forms}

theorem Unpausing.move_ne (hunpausing : forms.Unpausing) (frame : Frame) (world : World) :
    (forms.turn frame world).move ≠ .pause := by
  intro hmove
  obtain hplain | ⟨form, -, -, -, hturn⟩ := forms.turn_cases frame world
  · rw [hmove] at hplain
    exact hplain
  · rw [hturn] at hmove
    cases hrun : forms form frame.arguments frame.continuation frame.result
        (world.prepared frame) with
    | error cause after =>
      rw [hrun] at hmove
      cases hmove
    | ok progress after =>
      rw [hrun] at hmove
      cases progress with
      | pause => exact hunpausing _ _ _ _ _ _ hrun
      | _ => cases hmove

theorem commutes_step {mark : Bool → Bool}
    (horderly : ∀ form inputs continuation finished,
      Orderly (forms form inputs continuation finished))
    (hmark : mark = id ∨ forms.Unpausing) : Commutes (Machine.muted mark) forms.step := by
  intro machine
  have hpause : ∀ frame, (forms.turn frame machine.world).move = .pause → mark = id :=
    fun frame hmove => hmark.resolve_right fun hunpausing => hunpausing.move_ne frame _ hmove
  exact ((Machine.wears_muted machine).step horderly rfl hpause (fun _ _ _ _ _ => .inl rfl)
    (.inr ⟨rfl, rfl⟩)).eq_mapState Machine.eq_muted

end Forms

namespace Machine

variable [Segmentation]

theorem commutes_step : Commutes silence step :=
  Forms.commutes_step World.orderly_runSpecial (.inl rfl)

theorem commutes_tick : Commutes silence tick := by
  intro machine
  have hsame : machine.silence.paused = machine.paused := rfl
  cases hpaused : machine.paused with
  | true =>
    rw [tick_of_paused hpaused, tick_of_paused (hsame.trans hpaused)]
    rfl
  | false =>
    rw [tick_of_running hpaused, tick_of_running (hsame.trans hpaused), commutes_step]
    cases step machine <;> rfl

end Machine

end Logo
