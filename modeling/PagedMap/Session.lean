import PagedMap.Event
import PagedMap.Fault

/-!
# Sessions

A session is a device in use, a storage or a pager, together with the events reported so far. What
happens in a session ends with a value, with an error or with a fault, and in each case leaves the
session as it then is. A session may hold a value besides, which is worked on like the device.
-/

namespace PagedMap

/-- How an operation ends that gives no value. -/
inductive Failure (ε : Type) where
  | error (error : ε)
  | fault (fault : Fault)
deriving DecidableEq, Repr

/-- A device in use. -/
structure Session (σ : Type) where
  device : σ
  /-- The events reported so far, the earliest first. -/
  log : List Event := []

/-- What happens in a session. -/
abbrev SessionM (σ ε : Type) := EStateM (Failure ε) (Session σ)

/-- A value being worked on within a session. -/
structure Holding (τ σ : Type) where
  held : τ
  session : Session σ

/-- What happens to a held value within a session. -/
abbrev HoldingM (τ σ ε : Type) := EStateM (Failure ε) (Holding τ σ)

/-- A computation that may fault, as a step that changes nothing. -/
instance liftFaulting {ε σ : Type} : MonadLift (Except Fault) (EStateM (Failure ε) σ) where
  monadLift outcome := match outcome with
    | .ok value => pure value
    | .error fault => throw (.fault fault)

namespace SessionM

variable {σ ε δ α : Type}

/-- Ends with an error. -/
def fail (error : ε) : SessionM σ ε α := throw (.error error)

/-- Reports an event. -/
def report (event : Event) : SessionM σ ε Unit :=
  modify fun session => { session with log := session.log ++ [event] }

/-- An operation of the device. -/
def onDevice (operation : EStateM ε σ α) : SessionM σ ε α := fun session =>
  match operation session.device with
  | .ok value device => .ok value { session with device }
  | .error error device => .error (.error error) { session with device }

/-- A step with its error said in other words. -/
def relabel (wrap : δ → ε) (action : SessionM σ δ α) : SessionM σ ε α := fun session =>
  match action session with
  | .ok value session => .ok value session
  | .error (.error error) session => .error (.error (wrap error)) session
  | .error (.fault fault) session => .error (.fault fault) session

end SessionM

namespace HoldingM

variable {τ σ ε α : Type}

/-- The held value. -/
def held : HoldingM τ σ ε τ := return (← get).held

/-- Puts another value in place of the held one. -/
def hold (value : τ) : HoldingM τ σ ε Unit :=
  modify fun holding => { holding with held := value }

/-- Ends with an error. -/
def fail (error : ε) : HoldingM τ σ ε α := throw (.error error)

/-- What happens in a session leaves the held value alone. -/
def within (action : SessionM σ ε α) : HoldingM τ σ ε α := fun holding =>
  match action holding.session with
  | .ok value session => .ok value { holding with session }
  | .error failure session => .error failure { holding with session }

end HoldingM

end PagedMap
