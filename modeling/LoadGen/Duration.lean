namespace LoadGen

/-- A length of time. -/
structure Duration where
  nanos : Nat
  deriving DecidableEq, Repr, Inhabited

namespace Duration

def zero : Duration := ⟨0⟩

def ofMillis (n : Nat) : Duration := ⟨n * 1000000⟩

def ofSeconds (n : Nat) : Duration := ⟨n * 1000000000⟩

/-- A duration given as whole seconds and the nanoseconds beyond them. -/
def ofParts (seconds beyond : Nat) : Duration := ⟨seconds * 1000000000 + beyond⟩

def wholeSeconds (d : Duration) : Nat := d.nanos / 1000000000

/-- The nanoseconds beyond the last whole second. -/
def subsecond (d : Duration) : Nat := d.nanos % 1000000000

/-- Whole milliseconds; a fraction of one is dropped. -/
def wholeMillis (d : Duration) : Nat := d.nanos / 1000000

/-- The duration in milliseconds, where a fraction of one counts as a whole one. -/
def millisUp (d : Duration) : Nat := (d.nanos + 999999) / 1000000

def min (a b : Duration) : Duration := ⟨Nat.min a.nanos b.nanos⟩

def max (a b : Duration) : Duration := ⟨Nat.max a.nanos b.nanos⟩

def isZero (d : Duration) : Bool := d.nanos == 0

end Duration
end LoadGen
