import LoadGen.Failure
import LoadGen.Json.Record
import LoadGen.Text.Blank
import LoadGen.Text.Numeral
import LoadGen.Text.Quoted

namespace LoadGen

/-- The settings of a run. Without a thread count there is one thread for each processor. -/
structure Settings where
  threads : Option Nat := none
  watchdogPeriod : Nat := 50
  watchdogThreshold : Nat := 100
  shutdownTimeout : Nat := 10000
  deriving DecidableEq, Repr

namespace Settings

def threadCount (s : Settings) (processors : Nat) : Nat := s.threads.getD processors

def period (s : Settings) : Duration := .ofMillis s.watchdogPeriod

def threshold (s : Settings) : Duration := .ofMillis s.watchdogThreshold

def grace (s : Settings) : Duration := .ofMillis s.shutdownTimeout

/-- The first thing that makes the settings unusable. -/
def fault? (s : Settings) : Option Failure :=
  if s.threads = some 0 then some (.config "threads must be at least 1")
  else if s.watchdogPeriod = 0 then some (.config "jitter watchdog period must be positive")
  else none

def fieldNames : List String :=
  ["threads", "jitter_watchdog_period_ms", "jitter_watchdog_threshold_ms", "shutdown_timeout_ms"]

def ofJson? (j : Json) : Option Settings := do
  let r ← Record.ofJson? fieldNames j
  let base : Settings := {}
  return {
    threads := ← r.orElse "threads" (fun v => v.word?.map some) none
    watchdogPeriod := ← r.orElse "jitter_watchdog_period_ms" Json.word? base.watchdogPeriod
    watchdogThreshold := ← r.orElse "jitter_watchdog_threshold_ms" Json.word? base.watchdogThreshold
    shutdownTimeout := ← r.orElse "shutdown_timeout_ms" Json.word? base.shutdownTimeout
  }

/-- The number under `key`, if the key is there. -/
def lookup (texts : Dict String) (key : String) : Except Failure (Option Nat) :=
  match texts.get? key with
  | none => .ok none
  | some raw =>
    match Text.readWord (Text.trim raw) with
    | .ok n => .ok (some n)
    | .error e =>
      .error (.config (key ++ "=" ++ Text.quote raw ++ " is not a number: " ++ e.message))

/-- Replaces each setting that has a text, and checks the result. -/
def override (s : Settings) (texts : Dict String) : Except Failure Settings := do
  let threads ← lookup texts "VOLLEY_THREADS"
  let period ← lookup texts "VOLLEY_JITTER_WATCHDOG_PERIOD"
  let threshold ← lookup texts "VOLLEY_JITTER_WATCHDOG_THRESHOLD"
  let timeout ← lookup texts "VOLLEY_SHUTDOWN_TIMEOUT"
  let changed : Settings := {
    threads := threads.or s.threads
    watchdogPeriod := period.getD s.watchdogPeriod
    watchdogThreshold := threshold.getD s.watchdogThreshold
    shutdownTimeout := timeout.getD s.shutdownTimeout
  }
  match changed.fault? with
  | some f => throw f
  | none => return changed

end Settings
end LoadGen
