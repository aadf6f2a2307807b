import Logo.World

/-!
# Computations that can fail

An action and a step of the machine are computations on a state that may fail and then leave the
state as it stands. Two things are asked about them again and again: what holds of the state that is
left, and whether a part of the state plays any role at all. The second question is put as an
equation: changing that part first and then running is the same as running first and then changing
it.
-/

namespace EStateM.Result

variable {ε σ τ α : Type}

def state : EStateM.Result ε σ α → σ
  | .ok _ state => state
  | .error _ state => state

def answer : EStateM.Result ε σ α → Except ε α
  | .ok value _ => .ok value
  | .error cause _ => .error cause

def mapState (change : σ → τ) : EStateM.Result ε σ α → EStateM.Result ε τ α
  | .ok value state => .ok value (change state)
  | .error cause state => .error cause (change state)

@[simp]
theorem state_ok (value : α) (state : σ) :
    (EStateM.Result.ok value state : EStateM.Result ε σ α).state = state := rfl

@[simp]
theorem state_error (cause : ε) (state : σ) :
    (EStateM.Result.error cause state : EStateM.Result ε σ α).state = state := rfl

@[simp]
theorem mapState_ok (change : σ → τ) (value : α) (state : σ) :
    (EStateM.Result.ok value state : EStateM.Result ε σ α).mapState change =
      .ok value (change state) := rfl

@[simp]
theorem mapState_error (change : σ → τ) (cause : ε) (state : σ) :
    (EStateM.Result.error cause state : EStateM.Result ε σ α).mapState change =
      .error cause (change state) := rfl

theorem exists_of_mapState_ok {change : σ → τ} {result : EStateM.Result ε σ α} {value : α}
    {final : τ} (hresult : result.mapState change = .ok value final) :
    ∃ state, result = .ok value state ∧ change state = final := by
  cases result with
  | ok value state =>
    cases hresult
    exact ⟨state, rfl, rfl⟩
  | error cause state => cases hresult

theorem exists_of_mapState_error {change : σ → τ} {result : EStateM.Result ε σ α} {cause : ε}
    {final : τ} (hresult : result.mapState change = .error cause final) :
    ∃ state, result = .error cause state ∧ change state = final := by
  cases result with
  | ok value state => cases hresult
  | error cause state =>
    cases hresult
    exact ⟨state, rfl, rfl⟩

end EStateM.Result

namespace Logo

variable {ε σ α β : Type}

theorem exists_ok_of_bind {result : Except ε α} {next : α → Except ε β} {final : β}
    (hbind : (result >>= next) = .ok final) :
    ∃ value, result = .ok value ∧ next value = .ok final := by
  cases result with
  | ok value => exact ⟨value, rfl, hbind⟩
  | error cause => cases hbind

theorem ok_of_mapError {change : ε → σ} {result : Except ε α} {value : α}
    (hresult : result.mapError change = .ok value) : result = .ok value := by
  cases result with
  | ok other =>
    cases hresult
    rfl
  | error cause => cases hresult

theorem bind_apply (action : EStateM ε σ α) (next : α → EStateM ε σ β) (state : σ) :
    (action >>= next) state =
      match action state with
      | .ok value state => next value state
      | .error cause state => .error cause state := rfl

theorem map_apply (change : α → β) (action : EStateM ε σ α) (state : σ) :
    (change <$> action) state =
      match action state with
      | .ok value state => .ok (change value) state
      | .error cause state => .error cause state := rfl

theorem tryCatch_apply (action : EStateM ε σ α) (handler : ε → EStateM ε σ α) (state : σ) :
    (tryCatch action handler) state =
      match action state with
      | .ok value state => .ok value state
      | .error cause state => handler cause state := by
  change EStateM.tryCatch action handler state = _
  delta EStateM.tryCatch
  cases action state <;> rfl

theorem bind_of_ok {action : EStateM ε σ α} {next : α → EStateM ε σ β} {before after : σ}
    {value : α} (haction : action before = .ok value after) :
    (action >>= next) before = next value after := by
  rw [bind_apply, haction]

theorem bind_of_error {action : EStateM ε σ α} {next : α → EStateM ε σ β} {before after : σ}
    {cause : ε} (haction : action before = .error cause after) :
    (action >>= next) before = .error cause after := by
  rw [bind_apply, haction]

theorem get_bind_apply (next : σ → EStateM ε σ α) (state : σ) :
    (get >>= next) state = next state state := rfl

theorem modify_bind_apply (change : σ → σ) (next : PUnit → EStateM ε σ α) (state : σ) :
    (modify change >>= next) state = next ⟨⟩ (change state) := rfl

/-- What holds before a computation holds after it too, also if it fails. -/
def Keeps (holds : σ → Prop) (action : EStateM ε σ α) : Prop :=
  ∀ state, holds state → holds (action state).state

namespace Keeps

variable {holds : σ → Prop}

theorem pure (value : α) : Keeps holds (Pure.pure value : EStateM ε σ α) :=
  fun _ hstate => hstate

theorem bind {action : EStateM ε σ α} {next : α → EStateM ε σ β}
    (haction : Keeps holds action) (hnext : ∀ value, Keeps holds (next value)) :
    Keeps holds (action >>= next) := by
  intro state hstate
  have hfirst := haction state hstate
  rw [bind_apply]
  cases hrun : action state with
  | ok value middle =>
    rw [hrun] at hfirst
    exact hnext value middle hfirst
  | error cause middle =>
    rw [hrun] at hfirst
    exact hfirst

end Keeps

def Yields (holds : α → Prop) (action : EStateM ε σ α) : Prop :=
  ∀ state value after, action state = .ok value after → holds value

namespace Yields

variable {holds : α → Prop}

theorem pure {value : α} (hvalue : holds value) :
    Yields holds (Pure.pure value : EStateM ε σ α) := by
  intro state other after hrun
  cases hrun
  exact hvalue

theorem throw (cause : ε) : Yields holds (MonadExcept.throw cause : EStateM ε σ α) := by
  intro state value after hrun
  cases hrun

theorem bind_of {first : β → Prop} {action : EStateM ε σ β} {next : β → EStateM ε σ α}
    (haction : Yields first action) (hnext : ∀ value, first value → Yields holds (next value)) :
    Yields holds (action >>= next) := by
  intro state value after hrun
  rw [bind_apply] at hrun
  cases hfirst : action state with
  | ok result middle =>
    rw [hfirst] at hrun
    exact hnext result (haction state result middle hfirst) middle value after hrun
  | error cause middle =>
    rw [hfirst] at hrun
    cases hrun

theorem bind {action : EStateM ε σ β} {next : β → EStateM ε σ α}
    (hnext : ∀ value, Yields holds (next value)) : Yields holds (action >>= next) :=
  bind_of (fun _ _ _ _ => trivial) fun value (_ : True) => hnext value

theorem mono {other : α → Prop} {action : EStateM ε σ α} (hyields : Yields holds action)
    (hother : ∀ value, holds value → other value) : Yields other action :=
  fun state value after hrun => hother value (hyields state value after hrun)

end Yields

/-- A change of the state makes no difference to a computation, and comes through it unharmed. -/
def Commutes (change : σ → σ) (action : EStateM ε σ α) : Prop :=
  ∀ state, action (change state) = (action state).mapState change

namespace Commutes

variable {change : σ → σ}

theorem pure (value : α) : Commutes change (Pure.pure value : EStateM ε σ α) :=
  fun _ => rfl

theorem bind {action : EStateM ε σ α} {next : α → EStateM ε σ β}
    (haction : Commutes change action) (hnext : ∀ value, Commutes change (next value)) :
    Commutes change (action >>= next) := by
  intro state
  rw [bind_apply, bind_apply, haction state]
  cases action state with
  | ok value middle => exact hnext value middle
  | error cause middle => rfl

end Commutes

namespace World

variable {value : Value} {world : World}

theorem expectNumber_of_number? {number : Number} (hnumber : value.number? = some number) :
    expectNumber value world = .ok number world := by
  rw [expectNumber, hnumber]
  rfl

theorem expectInteger_of_number? {n : Int64} (hinteger : value.number? = some (.integer n)) :
    expectInteger value world = .ok n world := by
  rw [expectInteger, hinteger]
  rfl

end World

end Logo
