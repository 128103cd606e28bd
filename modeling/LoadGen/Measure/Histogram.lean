namespace LoadGen

def binWidth (v : Nat) : Nat := if v < 2048 then 1 else Nat.pow 2 (Nat.log2 v - 10)

def binLow (v : Nat) : Nat := v / binWidth v * binWidth v

def binHigh (v : Nat) : Nat := binLow v + (binWidth v - 1)

/-- Counts of values by bin: the lowest value of each bin that holds any, in increasing order, with
its count. -/
structure Histogram where
  bins : List (Nat × Nat) := []
  deriving DecidableEq, Repr

namespace Histogram

def empty : Histogram := {}

/-- The longest response time that is told apart from longer ones: one hour. -/
def longest : Nat := 3600000000000

def lastValue : Nat := Nat.pow 2 42 - 1

/-- The value that is counted for `v`. Values beyond the last bin count as the longest one. -/
def kept (v : Nat) : Nat := if lastValue < v then longest else v

def addBin (low count : Nat) : List (Nat × Nat) → List (Nat × Nat)
  | [] => [(low, count)]
  | (l, n) :: rest =>
    if low < l then (low, count) :: (l, n) :: rest
    else if low = l then (l, n + count) :: rest
    else (l, n) :: addBin low count rest

def record (h : Histogram) (v : Nat) : Histogram := ⟨addBin (binLow (kept v)) 1 h.bins⟩

def merge (h other : Histogram) : Histogram :=
  ⟨other.bins.foldl (fun bins (low, count) => addBin low count bins) h.bins⟩

def total (h : Histogram) : Nat := (h.bins.map (·.2)).foldr (· + ·) 0

def isEmpty (h : Histogram) : Bool := h.bins.isEmpty

def min (h : Histogram) : Nat := (h.bins.head?.map (·.1)).getD 0

def max (h : Histogram) : Nat := (h.bins.getLast?.map fun b => binHigh b.1).getD 0

def ofNat (n : Nat) : Float := n.toUInt64.toFloat

/-- The mean of the bins' middles, each weighted by its share. -/
def mean (h : Histogram) : Float :=
  let total := ofNat h.total
  h.bins.foldl
    (fun sum (low, count) => sum + ofNat (low + binWidth low / 2) * ofNat count / total) 0.0

/-- The first bin at which the running count reaches `rank`. -/
def binAt (rank : Nat) : Nat → List (Nat × Nat) → Option Nat
  | _, [] => none
  | seen, (low, count) :: rest => if rank ≤ seen + count then some low else binAt rank (seen + count) rest

/-- How many values lie at or below the quantile `q`, one at least. -/
def rank (h : Histogram) (q : Float) : Nat := Nat.max 1 (q * ofNat h.total).ceil.toUInt64.toNat

/-- The upper end of the bin that holds the quantile `q`. -/
def quantile (h : Histogram) (q : Float) : Nat := ((binAt (h.rank q) 0 h.bins).map binHigh).getD 0

end Histogram
end LoadGen
