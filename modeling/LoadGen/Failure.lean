import LoadGen.Duration
import LoadGen.Phase.Status

namespace LoadGen

/-- A failure of the engine or of the work it runs. -/
inductive Failure
  | config (text : String)
  | invalidTransition (phase : String) (source target : Status)
  | unknownPhase (name : String)
  | poolStartup (pool reason : String)
  | schedulingAnomaly (delay threshold : Duration)
  | timeout
  | sessionNotBound (id : Nat)
  | taskDropped
  | step (text : String)
  | device (text : String)
  deriving DecidableEq, Repr

def Failure.message : Failure → String
  | .config text => "invalid configuration: " ++ text
  | .invalidTransition phase source target =>
    "phase " ++ phase ++ " cannot move from " ++ source.name ++ " to " ++ target.name
  | .unknownPhase name => "unknown phase: " ++ name
  | .poolStartup pool reason => "connection pool " ++ pool ++ " failed to start: " ++ reason
  | .schedulingAnomaly delay threshold =>
    "jitter watchdog was not invoked for " ++ toString delay.wholeMillis ++
      " ms (threshold is " ++ toString threshold.wholeMillis ++ " ms); check GC/CPU settings"
  | .timeout => "request timed out"
  | .sessionNotBound id => "session #" ++ toString id ++ " is not bound to any phase"
  | .taskDropped =>
    "task was dropped before completing, the event loop is probably shut down"
  | .step text => "step error: " ++ text
  | .device text => text

/-- A mistake that ends the program. -/
inductive Panic
  | addOverflow
  deriving DecidableEq, Repr

def Panic.message : Panic → String
  | .addOverflow => "attempt to add with overflow"

theorem eq_addOverflow_iff {α : Type} {x : Except Panic α} :
    x = .error .addOverflow ↔ ¬ ∃ a, x = .ok a := by
  cases x with
  | error e => cases e; simp
  | ok a => simp

theorem bind_eq_ok {ε α β : Type} {x : Except ε α} {f : α → Except ε β} {b : β} :
    (x >>= f) = .ok b ↔ ∃ a, x = .ok a ∧ f a = .ok b := by
  cases x with
  | error e => simp [bind, Except.bind]
  | ok a => simp [bind, Except.bind]

theorem toOption_eq_some {α : Type} {x : Except Failure α} {a : α} :
    x.toOption = some a ↔ x = .ok a := by
  cases x <;> simp [Except.toOption]

end LoadGen
