import LoadGen.Duration
import LoadGen.Pacing.Quantity

namespace LoadGen

/-- The sessions per second of a phase. The rate moves from `initial` to `target` within `ramp`. -/
structure Schedule (α : Type) where
  initial : α
  target : α
  ramp : Duration
  deriving Repr

namespace Schedule
variable {α : Type} [Quantity α]

def constant (rate : α) : Schedule α := ⟨rate, rate, .zero⟩

/-- The largest number of sessions for one tick. -/
def maxTokens : Nat := Nat.pow 2 61 - 1

def seconds (d : Duration) : α :=
  Quantity.ofNat d.wholeSeconds + Quantity.ofNat d.subsecond / Quantity.ofNat 1000000000

/-- The part of the ramp that has passed, one at most. -/
def progress (s : Schedule α) (elapsed : Duration) : α :=
  if s.ramp.isZero then Quantity.ofNat 1
  else
    let share : α := seconds elapsed / seconds s.ramp
    if Quantity.below share (Quantity.ofNat 1) then share else Quantity.ofNat 1

def rateAt (s : Schedule α) (elapsed : Duration) : α :=
  s.initial + (s.target - s.initial) * s.progress elapsed

/-- A whole number of sessions within the bounds of one tick. -/
def tokens (whole : α) : Nat :=
  if Quantity.atMost (Quantity.ofNat maxTokens) whole then maxTokens
  else if Quantity.below whole (Quantity.ofNat 0) then 0
  else Quantity.count whole

/-- The sessions for the tick at `elapsed`, and what is carried over from it. -/
def tokensAt (s : Schedule α) (tick elapsed : Duration) (carry : α) : Nat × α :=
  let due := s.rateAt elapsed * seconds tick + carry
  let whole := Quantity.floor due
  (tokens whole, due - whole)

end Schedule
end LoadGen
