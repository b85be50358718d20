import PagedMap.Session
import PagedMap.Proofs.Yielding

/-!
# How a computation ends

What happens in a session ends with a value or with a failure, and leaves a state in either case.
`Ends` states one property for each of the two, and the rules below follow the way computations are
composed: one after the other, with a handler for failures, or lifted from a part of the state.
-/

namespace PagedMap

variable {ε δ α β τ σ S : Type}

/-- The properties that hold when a computation has ended, with a value or with a failure. -/
def Ends (result : EStateM.Result ε S α) (post : α → S → Prop) (broken : ε → S → Prop) : Prop :=
  match result with
  | .ok value state => post value state
  | .error failure state => broken failure state

/-- The state in which a computation ends. -/
def lastState (result : EStateM.Result ε S α) : S :=
  match result with
  | .ok _ state => state
  | .error _ state => state

/-- How a computation ends, whatever state it leaves. -/
def outcomeOf (result : EStateM.Result ε S α) : Except ε α :=
  match result with
  | .ok value _ => .ok value
  | .error failure _ => .error failure

section

variable {state after : S} {action : EStateM ε S α}

theorem bind_eq_of_ok {value : α} (given : action state = .ok value after)
    (next : α → EStateM ε S β) : (action >>= next) state = next value after := by
  change EStateM.bind action next state = _
  rw [EStateM.bind, given]

/-- What succeeds in two steps has succeeded in the first of them. -/
theorem exists_of_bind_eq_ok {next : α → EStateM ε S β} {value : β}
    (given : (action >>= next) state = .ok value after) :
    ∃ middle between, action state = .ok middle between ∧
      next middle between = .ok value after := by
  change EStateM.bind action next state = _ at given
  simp only [EStateM.bind] at given
  revert given
  cases action state with
  | ok middle between => exact fun given => ⟨middle, between, rfl, given⟩
  | error failure between =>
      intro given
      contradiction

theorem bind_eq_of_error {failure : ε} (given : action state = .error failure after)
    (next : α → EStateM ε S β) : (action >>= next) state = .error failure after := by
  change EStateM.bind action next state = _
  rw [EStateM.bind, given]

end

namespace Ends

variable {state : S} {result : EStateM.Result ε S α} {action : EStateM ε S α}
  {post : α → S → Prop} {broken : ε → S → Prop}

theorem mono {weaker : α → S → Prop} {weakerBroken : ε → S → Prop} (ends : Ends result post broken)
    (onValue : ∀ value state, post value state → weaker value state)
    (onFailure : ∀ failure state, broken failure state → weakerBroken failure state) :
    Ends result weaker weakerBroken := by
  cases result with
  | ok value state => exact onValue value state ends
  | error failure state => exact onFailure failure state ends

theorem any (result : EStateM.Result ε S α) : Ends result (fun _ _ => True) fun _ _ => True := by
  cases result <;> trivial

theorem self (action : EStateM ε S α) (state : S) :
    Ends (action state) (fun value after => action state = .ok value after)
      (fun failure after => action state = .error failure after) := by
  cases given : action state with
  | ok value after => exact rfl
  | error failure after => exact rfl

theorem and {otherPost : α → S → Prop} {otherBroken : ε → S → Prop}
    (ends : Ends result post broken) (also : Ends result otherPost otherBroken) :
    Ends result (fun value after => post value after ∧ otherPost value after)
      (fun failure after => broken failure after ∧ otherBroken failure after) := by
  cases result with
  | ok value after => exact ⟨ends, also⟩
  | error failure after => exact ⟨ends, also⟩

theorem bind {next : α → EStateM ε S β} {last : β → S → Prop}
    (first : Ends (action state) post broken)
    (continues : ∀ value after, post value after → Ends (next value after) last broken) :
    Ends ((action >>= next) state) last broken := by
  change Ends (EStateM.bind action next state) last broken
  simp only [EStateM.bind]
  revert first
  cases action state with
  | ok value after => exact continues value after
  | error failure after => exact id

/-- A handler starts from the state that the failed action has left. -/
theorem tryCatch {handler : ε → EStateM ε S α} {caught : ε → S → Prop}
    (tried : Ends (action state) post caught)
    (handled : ∀ failure after, caught failure after → Ends (handler failure after) post broken) :
    Ends ((MonadExcept.tryCatch action handler : EStateM ε S α) state) post broken := by
  change Ends (EStateM.tryCatch action handler state) post broken
  delta EStateM.tryCatch
  revert tried
  cases action state with
  | ok value after => exact id
  | error failure after => exact handled failure after

theorem lift_bind {outcome : Except Fault α} {value : α} (known : outcome = .ok value)
    (next : α → EStateM (Failure ε) S β) : ((liftM outcome >>= next) state) = next value state := by
  rw [known]
  rfl

theorem of_ok {value : α} {after : S} (ends : Ends (action state) post broken)
    (given : action state = .ok value after) : post value after := by
  rw [given] at ends
  exact ends

theorem of_error {failure : ε} {after : S} (ends : Ends (action state) post broken)
    (given : action state = .error failure after) : broken failure after := by
  rw [given] at ends
  exact ends

/-- What is known of a failure may be put in terms of the action that fails. -/
theorem mono_error {other : ε → S → Prop} (ends : Ends (action state) post broken)
    (implies : ∀ failure after, action state = .error failure after → broken failure after →
      other failure after) : Ends (action state) post other := by
  cases given : action state with
  | ok value after => exact ends.of_ok given
  | error failure after => exact implies failure after given (ends.of_error given)

theorem exists_ok (ends : Ends (action state) post broken)
    (never : ∀ failure after, ¬ broken failure after) :
    ∃ value after, action state = .ok value after ∧ post value after := by
  revert ends
  cases action state with
  | ok value after => exact fun holds => ⟨value, after, rfl, holds⟩
  | error failure after => exact fun fails => absurd fails (never failure after)

theorem exists_error (ends : Ends (action state) post broken)
    (never : ∀ value after, ¬ post value after) :
    ∃ failure after, action state = .error failure after ∧ broken failure after := by
  revert ends
  cases action state with
  | ok value after => exact fun holds => absurd holds (never value after)
  | error failure after => exact fun fails => ⟨failure, after, rfl, fails⟩

instance [∀ value after, Decidable (post value after)]
    [∀ failure after, Decidable (broken failure after)] :
    Decidable (Ends (action state) post broken) :=
  match action state with
  | .ok value after => inferInstanceAs (Decidable (post value after))
  | .error failure after => inferInstanceAs (Decidable (broken failure after))

end Ends

/-- What holds however an action ends holds of the state that it leaves. -/
theorem lastState_of_ends {result : EStateM.Result ε S α} {property : S → Prop}
    (ends : Ends result (fun _ state => property state) fun _ state => property state) :
    property (lastState result) := by
  cases result with
  | ok value state => exact ends
  | error failure state => exact ends

/-! ## Sessions and held values -/

namespace SessionM

theorem onDevice_ends {operation : EStateM ε σ α} {session : Session σ}
    {post : α → Session σ → Prop} {broken : Failure ε → Session σ → Prop}
    (ends : Ends (operation session.device)
      (fun value device => post value { session with device })
      (fun error device => broken (.error error) { session with device })) :
    Ends (onDevice operation session) post broken := by
  simp only [onDevice]
  revert ends
  cases operation session.device with
  | ok value device => exact id
  | error error device => exact id

/-- Errors are given other names, and faults are passed on. -/
theorem relabel_ends {wrap : δ → ε} {action : SessionM σ δ α} {session : Session σ}
    {post : α → Session σ → Prop} {broken : Failure ε → Session σ → Prop}
    (ends : Ends (action session) post fun failure after =>
      match failure with
      | .error error => broken (.error (wrap error)) after
      | .fault fault => broken (.fault fault) after) :
    Ends (relabel wrap action session) post broken := by
  simp only [relabel]
  revert ends
  rcases action session with ⟨value, after⟩ | ⟨error | fault, after⟩
  · exact id
  · exact id
  · exact id

end SessionM

namespace HoldingM

theorem within_ends {action : SessionM σ ε α} {holding : Holding τ σ}
    {post : α → Holding τ σ → Prop} {broken : Failure ε → Holding τ σ → Prop}
    (ends : Ends (action holding.session)
      (fun value session => post value { holding with session })
      (fun failure session => broken failure { holding with session })) :
    Ends (within action holding) post broken := by
  simp only [within]
  revert ends
  cases action holding.session with
  | ok value session => exact id
  | error failure session => exact id

/-- What happens in the session leaves the held value alone. -/
theorem within_holds (action : SessionM σ ε α) (holding : Holding τ σ) :
    Ends (within action holding) (fun _ after => after.held = holding.held)
      (fun _ after => after.held = holding.held) := by
  apply within_ends
  cases action holding.session with
  | ok value session => rfl
  | error failure session => rfl

/-- Works on a value within a session, and gives back what became of it. -/
def workOn (value : τ) (action : HoldingM τ σ ε α) : SessionM σ ε (α × τ) := fun session =>
  match action ⟨value, session⟩ with
  | .ok result after => .ok (result, after.held) after.session
  | .error failure after => .error failure after.session

theorem workOn_ends {value : τ} {action : HoldingM τ σ ε α} {session : Session σ}
    {post : α × τ → Session σ → Prop} {broken : Failure ε → Session σ → Prop}
    (ends : Ends (action ⟨value, session⟩)
      (fun result after => post (result, after.held) after.session)
      (fun failure after => broken failure after.session)) :
    Ends (workOn value action session) post broken := by
  simp only [workOn]
  revert ends
  cases action ⟨value, session⟩ with
  | ok result after => exact id
  | error failure after => exact id

theorem workOn_pure (value : τ) (given : α) :
    workOn value (pure given : HoldingM τ σ ε α) = pure (given, value) :=
  rfl

theorem workOn_held_bind (value : τ) (next : τ → HoldingM τ σ ε α) :
    workOn value (held >>= next) = workOn value (next value) :=
  rfl

theorem workOn_bind (value : τ) (action : HoldingM τ σ ε α) (next : α → HoldingM τ σ ε β) :
    workOn value (action >>= next) =
      workOn value action >>= fun given => workOn given.2 (next given.1) := by
  funext session
  change workOn value (EStateM.bind action next) session =
    EStateM.bind (workOn value action) (fun given => workOn given.2 (next given.1)) session
  simp only [workOn, EStateM.bind]
  cases action ⟨value, session⟩ <;> rfl

theorem workOn_within_bind (value : τ) (action : SessionM σ ε α) (next : α → HoldingM τ σ ε β) :
    workOn value (within action >>= next) = action >>= fun given => workOn value (next given) := by
  funext session
  change workOn value (EStateM.bind (within action) next) session =
    EStateM.bind action (fun given => workOn value (next given)) session
  simp only [workOn, EStateM.bind, within]
  cases action session <;> rfl

theorem workOn_lift_bind (value : τ) (outcome : Except Fault α) (next : α → HoldingM τ σ ε β) :
    workOn value (liftM outcome >>= next) =
      liftM outcome >>= fun given => workOn value (next given) := by
  cases outcome <;> rfl

theorem held_bind (next : τ → HoldingM τ σ ε α) (holding : Holding τ σ) :
    ((held >>= next) holding) = next holding.held holding :=
  rfl

theorem hold_bind (value : τ) (next : Unit → HoldingM τ σ ε α) (holding : Holding τ σ) :
    ((hold value >>= next) holding) = next () { holding with held := value } :=
  rfl

end HoldingM

end PagedMap
