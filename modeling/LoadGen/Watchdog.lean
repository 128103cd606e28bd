import LoadGen.Failure

namespace LoadGen

/-- What the watchdog lives through from one wake-up to the next: the time its report takes, if it
has to make one, and then its sleep. -/
structure Lap where
  reporting : Duration
  sleep : Duration
  deriving DecidableEq, Repr

/-- A watchdog. -/
structure Watchdog where
  period : Duration
  threshold : Duration
  deriving DecidableEq, Repr

namespace Watchdog

/-- The report of a wake-up that comes `delay` after the one before it. -/
def judge (w : Watchdog) (delay : Duration) : Option Failure :=
  if w.threshold.nanos < delay.nanos then some (.schedulingAnomaly delay w.threshold) else none

/-- The reports of all wake-ups. A report takes time only if there is one. -/
def reports (w : Watchdog) : Bool → List Lap → List (Option Failure)
  | _, [] => []
  | reported, lap :: rest =>
    let spent := if reported then lap.reporting.nanos else 0
    let report := w.judge ⟨spent + lap.sleep.nanos⟩
    report :: w.reports report.isSome rest

/-- Whether a sleep of just over a period is taken for a stall. -/
def alarmsAtOnce (w : Watchdog) : Bool := (w.judge ⟨w.period.nanos + 1⟩).isSome

end Watchdog
end LoadGen
