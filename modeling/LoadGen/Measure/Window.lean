import LoadGen.Failure
import LoadGen.Measure.Histogram
import LoadGen.Measure.Summary
import LoadGen.Text.Numeral

namespace LoadGen

/-- Something that happened to a request. -/
inductive Event
  | request
  | timeout
  | connectionError
  | response (blocked time : Duration) (valid : Bool)
  deriving DecidableEq, Repr

/-- The counts since some moment. -/
structure Window where
  since : Nat
  histogram : Histogram := {}
  requests : Nat := 0
  responses : Nat := 0
  timeouts : Nat := 0
  invalid : Nat := 0
  connectionErrors : Nat := 0
  blocked : Nat := 0
  deriving DecidableEq, Repr

namespace Window

def opened (now : Nat) : Window := { since := now }

/-- A time in nanoseconds as a 64-bit word; a longer one counts as the largest word. -/
def word (d : Duration) : Nat := min d.nanos Text.maxWord

def add (w : Window) : Event → Window
  | .request => { w with requests := w.requests + 1 }
  | .timeout => { w with timeouts := w.timeouts + 1 }
  | .connectionError => { w with connectionErrors := w.connectionErrors + 1 }
  | .response blocked time valid => { w with
      responses := w.responses + 1
      blocked := min (w.blocked + word blocked) Text.maxWord
      histogram := w.histogram.record (word time)
      invalid := if valid then w.invalid else w.invalid + 1 }

/-- The counts of two windows, added up without a limit. -/
def together (w other : Window) : Window where
  since := min w.since other.since
  histogram := w.histogram.merge other.histogram
  requests := w.requests + other.requests
  responses := w.responses + other.responses
  timeouts := w.timeouts + other.timeouts
  invalid := w.invalid + other.invalid
  connectionErrors := w.connectionErrors + other.connectionErrors
  blocked := w.blocked + other.blocked

/-- Adds the counts of another window. The sum of the blocked times has to be a 64-bit word. -/
def merge (w other : Window) : Except Panic Window :=
  if w.blocked + other.blocked ≤ Text.maxWord then .ok (w.together other) else .error .addOverflow

def summary (w : Window) (start : Nat) (stop : Option Nat) : Summary where
  start := start
  stop := stop
  requests := w.requests
  responses := w.responses
  timeouts := w.timeouts
  invalid := w.invalid
  connectionErrors := w.connectionErrors
  blocked := w.blocked
  min := w.histogram.min
  max := w.histogram.max
  mean := if w.histogram.isEmpty then 0.0 else w.histogram.mean
  p50 := w.histogram.quantile 0.5
  p90 := w.histogram.quantile 0.9
  p99 := w.histogram.quantile 0.99
  p999 := w.histogram.quantile 0.999

end Window
end LoadGen
