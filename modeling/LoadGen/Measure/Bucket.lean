import LoadGen.Measure.Window

namespace LoadGen

/-- A bucket. Each event carries the time at which its request started. The total takes every
event, the open window only those of requests that started since it was opened. -/
structure Bucket where
  start : Nat
  stop : Option Nat := none
  total : Window
  recent : Window
  deriving DecidableEq, Repr

namespace Bucket

def opened (now : Nat) : Bucket where
  start := now
  total := .opened now
  recent := .opened now

/-- The measurement begins now, unless a request has been counted already. -/
def begin (b : Bucket) (now : Nat) : Bucket :=
  if b.total.requests = 0 then
    { b with
      start := now
      total := { b.total with since := now }
      recent := { b.recent with since := now } }
  else b

def finish (b : Bucket) (now : Nat) : Bucket := { b with stop := some now }

/-- Counts an event of a request that started at `stamp`. -/
def record (b : Bucket) (stamp : Nat) (e : Event) : Bucket :=
  { b with
    total := b.total.add e
    recent := if b.recent.since ≤ stamp then b.recent.add e else b.recent }

/-- Closes the open window and opens the next one. The closed one is a bucket by itself. -/
def takeRecent (b : Bucket) (now : Nat) : Bucket × Bucket :=
  ({ start := b.recent.since, stop := some now, total := b.recent, recent := b.recent },
   { b with recent := .opened now })

/-- The later of two ends; there is none while one side is still open. -/
def laterStop : Option Nat → Option Nat → Option Nat
  | some a, some b => some (max a b)
  | _, _ => none

/-- Adds the measurements of another bucket of the same metric. -/
def merge (b other : Bucket) : Except Panic Bucket := do
  let total ← b.total.merge other.total
  let recent ← b.recent.merge other.recent
  return {
    start := min b.start other.start
    stop := laterStop b.stop other.stop
    total := total
    recent := recent
  }

def summary (b : Bucket) : Summary := b.total.summary b.start b.stop

def recentSummary (b : Bucket) : Summary := b.recent.summary b.recent.since b.stop

end Bucket
end LoadGen
