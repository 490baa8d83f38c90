import Eligibility.Fault
/-!
# Log events

**Events.**  An operation logs events while it runs: a level, a name and fields.
What was logged before a fault stays logged.

**Functions.**
* `Logged.bind`: one operation after another; a fault ends the run.
-/

namespace Eligibility

/-- The levels of events, in rising order. -/
inductive Level where
  | debug
  | info
  | warning
  | error
  deriving DecidableEq

namespace Level

/-- The name of a level. -/
def name : Level → String
  | debug => "debug"
  | info => "info"
  | warning => "warning"
  | error => "error"

end Level

/-- A log event. -/
structure Event where
  level : Level
  name : String
  fields : List (String × Json)

/-- The record of an event. -/
def Event.toJson (e : Event) : Json :=
  .obj ([("event", .str e.name), ("log_level", .str e.level.name)] ++ e.fields)

/-- The outcome of an operation, with what it logged. -/
structure Logged (α : Type) where
  events : List Event
  outcome : Except Fault α

namespace Logged

variable {α β : Type}

/-- A value, without an event. -/
def pure (a : α) : Logged α := ⟨[], .ok a⟩

/-- An outcome, without an event. -/
def ofExcept (r : Except Fault α) : Logged α := ⟨[], r⟩

/-- A single event. -/
def log (e : Event) : Logged Unit := ⟨[e], .ok ()⟩

/-- One operation after another. -/
def bind (x : Logged α) (f : α → Logged β) : Logged β :=
  match x.outcome with
  | .ok a => ⟨x.events ++ (f a).events, (f a).outcome⟩
  | .error e => ⟨x.events, .error e⟩

instance : Monad Logged where
  pure := Logged.pure
  bind := Logged.bind

instance : MonadLift (Except Fault) Logged where
  monadLift := ofExcept

theorem outcome_bind_ok {x : Logged α} {a : α} (h : x.outcome = .ok a) (f : α → Logged β) :
    (x.bind f).outcome = (f a).outcome := by
  simp [bind, h]

theorem events_bind_error {x : Logged α} {e : Fault} (h : x.outcome = .error e)
    (f : α → Logged β) : (x.bind f).events = x.events := by
  simp [bind, h]

end Logged
end Eligibility
