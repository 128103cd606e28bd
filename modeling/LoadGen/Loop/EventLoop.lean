import LoadGen.Duration

namespace LoadGen

/-- A task that is put into the queue once the clock has passed the due time. -/
structure Timer (τ : Type) where
  id : Nat
  due : Duration
  task : τ
  deriving Repr

/-- A task in a queue, with the timer that put it there, if one did. -/
structure Queued (τ : Type) where
  timer : Option Nat
  task : τ
  deriving Repr

/-- An event loop. -/
structure EventLoop (τ : Type) where
  clock : Duration := .zero
  queue : List (Queued τ) := []
  /-- The timers that have not fired, in the order in which they were armed. -/
  timers : List (Timer τ) := []
  /-- How many timers were armed so far. -/
  armed : Nat := 0
  closed : Bool := false
  deriving Repr

namespace EventLoop
variable {τ : Type}

def tasks (l : EventLoop τ) : List τ := l.queue.map (·.task)

def push (l : EventLoop τ) (t : τ) : EventLoop τ :=
  if l.closed then l else { l with queue := l.queue ++ [⟨none, t⟩] }

/-- Arms a timer for a time of the clock and gives its number. A closed loop drops it. -/
def armAt (l : EventLoop τ) (due : Duration) (t : τ) : Nat × EventLoop τ :=
  let timer : Timer τ := ⟨l.armed, due, t⟩
  (l.armed, { l with
    timers := if l.closed then l.timers else l.timers ++ [timer]
    armed := l.armed + 1 })

/-- Thirty years. A longer delay counts as this one. -/
def longestDelay : Duration := .ofSeconds (30 * 365 * 86400)

def arm (l : EventLoop τ) (delay : Duration) (t : τ) : Nat × EventLoop τ :=
  l.armAt ⟨l.clock.nanos + (delay.min longestDelay).nanos⟩ t

/-- Stops a timer. If it has fired, its task is taken back unless it had its turn. -/
def disarm (l : EventLoop τ) (id : Nat) : EventLoop τ :=
  { l with
    timers := l.timers.filter (·.id != id)
    queue := l.queue.filter (·.timer != some id) }

def next? (l : EventLoop τ) : Option (τ × EventLoop τ) :=
  match l.queue with
  | [] => none
  | t :: rest => some (t.task, { l with queue := rest })

def isIdle (l : EventLoop τ) : Bool := l.queue.isEmpty

/-- Whether the clock is past the due time of a timer. -/
def passed (l : EventLoop τ) (t : Timer τ) : Bool := t.due.nanos < l.clock.nanos

/-- The whole milliseconds until the first timer is due. It fires within the one after them. -/
def millisToTimer? (l : EventLoop τ) : Option Nat :=
  (l.timers.map fun t => Duration.wholeMillis ⟨t.due.nanos - l.clock.nanos⟩).min?

/-- Timers that fire together do so by the millisecond in which they are due, then in the order in
which they were armed. -/
def fireOrder (timers : List (Timer τ)) : List (Timer τ) :=
  timers.mergeSort fun a b => a.due.wholeMillis ≤ b.due.wholeMillis

/-- Queues the tasks of all timers that the clock has passed. -/
def fire (l : EventLoop τ) : EventLoop τ :=
  { l with
    queue := l.queue ++
      (fireOrder (l.timers.filter l.passed)).map fun t => ⟨some t.id, t.task⟩
    timers := l.timers.filter fun t => !l.passed t }

/-- Moves the clock on by some time, unless the loop has stopped. -/
def advance (l : EventLoop τ) (time : Duration) : EventLoop τ :=
  if l.closed then l else { l with clock := ⟨l.clock.nanos + time.nanos⟩ }.fire

/-- Stops the loop; whatever waits on it is dropped. -/
def close (l : EventLoop τ) : EventLoop τ := { l with queue := [], timers := [], closed := true }

end EventLoop
end LoadGen
