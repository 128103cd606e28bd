import LoadGen.Pacing.Schedule

namespace LoadGen

/-- The number of the next attempt, after at most `n` attempts from number `k` on. The first one
that is refused is the last one. -/
def attempts (start : Nat → Bool) : Nat → Nat → Nat
  | k, 0 => k
  | k, n + 1 => if start k then attempts start (k + 1) n else k + 1

/-- What happened at one tick. -/
structure Tick where
  time : Duration
  /-- The sessions that the schedule gives for it. -/
  tokens : Nat
  calls : Nat
  successes : Nat
  deriving DecidableEq, Repr

/-- A governor by itself, before its next tick. -/
structure Governor (α : Type) where
  schedule : Schedule α
  tick : Duration
  burst : Nat
  carry : α
  /-- How often it has tried to start a session. -/
  tried : Nat := 0

namespace Governor
variable {α : Type} [Quantity α]

/-- The tick at `elapsed`, where `start k` tells whether attempt number `k` finds a session. -/
def step (start : Nat → Bool) (g : Governor α) (elapsed : Duration) : Tick × Governor α :=
  let (tokens, carry) := g.schedule.tokensAt g.tick elapsed g.carry
  let next := attempts start g.tried (min tokens g.burst)
  let calls := next - g.tried
  let refused := calls != 0 && !start (next - 1)
  (⟨elapsed, tokens, calls, if refused then calls - 1 else calls⟩,
    { g with carry := carry, tried := next })

/-- When the tick after the one at `due` is due. -/
def dueAfter (g : Governor α) (due : Duration) : Duration := ⟨due.nanos + g.tick.nanos⟩

/-- When a timer fires that is set for a time: at a whole millisecond, the next one after a time that
lies in between. -/
def firing (due : Duration) : Duration := .ofMillis due.millisUp

theorem le_firing (due : Duration) : due.nanos ≤ (firing due).nanos := by
  simp only [firing, Duration.ofMillis, Duration.millisUp]
  omega

/-- The tick at `now`, for which the timer was set to `due`, and all ticks after it. After each of them
the timer is set for the next one; the governor is done if its phase has ended, at `stop`, by the time
that fires. One whose ticks have no length makes the first of them only. -/
def ticksFrom (start : Nat → Bool) (stop : Duration) (g : Governor α) (now due : Duration) :
    List Tick :=
  let made := g.step start now
  if due.nanos < (g.dueAfter due).nanos ∧ (firing (g.dueAfter due)).nanos < stop.nanos then
    made.1 :: ticksFrom start stop made.2 (firing (g.dueAfter due)) (g.dueAfter due)
  else [made.1]
termination_by stop.nanos - due.nanos
decreasing_by
  have := le_firing (g.dueAfter due)
  omega

/-- All ticks of a governor, the first one at once. -/
def run (start : Nat → Bool) (g : Governor α) (stop : Duration) : List Tick :=
  ticksFrom start stop g .zero .zero

/-- Puts together the ticks that were made at one time. -/
def byTime : List Tick → List Tick
  | [] => []
  | t :: rest =>
    match byTime rest with
    | [] => [t]
    | u :: later =>
      if t.time = u.time then
        ⟨t.time, t.tokens + u.tokens, t.calls + u.calls, t.successes + u.successes⟩ :: later
      else t :: u :: later

def started (ticks : List Tick) : Nat := (ticks.map (·.successes)).foldr (· + ·) 0

end Governor

/-- A change of the status that a governor watches; without a status the phase is gone. -/
structure Change where
  time : Duration
  running : Option Bool
  deriving DecidableEq, Repr

/-- When a governor stops that sees these changes in turn: at the first one that does not leave the
phase running, or after the last one. A change never comes before the one in front of it. -/
def lastTime : Duration → List Change → Duration
  | last, [] => last
  | last, c :: rest =>
    let time := last.max c.time
    if c.running = some true then lastTime time rest else time

/-- When a governor stops that starts while the phase is running, or not. -/
def stopTime (running : Bool) (changes : List Change) : Duration :=
  if running then lastTime .zero changes else .zero

end LoadGen
