import LoadGen.Dict
import LoadGen.Measure.Bucket

namespace LoadGen

/-- The buckets of one phase. Those made after the phase started begin at its start. -/
structure PhaseBuckets where
  phase : String
  startedAt : Option Nat := none
  metrics : Dict Bucket := .empty
  deriving DecidableEq, Repr

/-- A bucket copied from a board, with the place it came from. -/
structure Snapshot where
  phase : String
  metric : String
  executor : Nat
  bucket : Bucket
  deriving DecidableEq, Repr

/-- The buckets of one event loop, by phase in the order in which the phases came up. -/
structure Board where
  executor : Nat
  phases : List PhaseBuckets := []
  deriving DecidableEq, Repr

namespace Board

/-- Changes the entry of `phase`, which is added at the end if there is none. -/
def alter (phase : String) (f : PhaseBuckets → PhaseBuckets) :
    List PhaseBuckets → List PhaseBuckets
  | [] => [f { phase := phase }]
  | p :: rest => if p.phase = phase then f p :: rest else p :: alter phase f rest

/-- The phase starts: its buckets begin now, and so will those that come later. -/
def startPhase (b : Board) (phase : String) (now : Nat) : Board :=
  { b with phases := alter phase (fun p =>
      { p with startedAt := some now, metrics := p.metrics.map (·.begin now) }) b.phases }

def ensure (b : Board) (phase metric : String) (now : Nat) : Board :=
  { b with phases := alter phase (fun p =>
      if p.metrics.contains metric then p
      else { p with metrics := p.metrics.insert metric (.opened (p.startedAt.getD now)) }) b.phases }

def entry? (b : Board) (phase : String) : Option PhaseBuckets :=
  b.phases.find? (·.phase == phase)

def bucket? (b : Board) (phase metric : String) : Option Bucket :=
  (b.entry? phase).bind (·.metrics.get? metric)

/-- Changes a bucket that is there, and nothing else. -/
def update (b : Board) (phase metric : String) (f : Bucket → Bucket) : Board :=
  { b with phases := b.phases.map fun p =>
      if p.phase = phase then { p with metrics := p.metrics.modify metric f } else p }

def applyToPhase (b : Board) (phase : String) (f : Bucket → Bucket) : Board :=
  { b with phases := b.phases.map fun p =>
      if p.phase = phase then { p with metrics := p.metrics.map f } else p }

def prune (b : Board) (phase : String) : Board :=
  { b with phases := b.phases.filter (·.phase != phase) }

def phaseNames (b : Board) : List String := b.phases.map (·.phase)

def isEmpty (b : Board) : Bool := b.phases.isEmpty

def snapshotsOf (executor : Nat) (p : PhaseBuckets) : List Snapshot :=
  p.metrics.entries.map fun (metric, bucket) => ⟨p.phase, metric, executor, bucket⟩

/-- Copies of all buckets, or of those of one phase. -/
def snapshot (b : Board) (only : Option String := none) : List Snapshot :=
  (b.phases.filter fun p => only.all (p.phase == ·)).flatMap (snapshotsOf b.executor)

def takeRecent (b : Board) (now : Nat) : List Snapshot × Board :=
  (b.phases.flatMap fun p =>
      snapshotsOf b.executor { p with metrics := p.metrics.map fun c => (c.takeRecent now).1 },
   { b with phases := b.phases.map fun p =>
      { p with metrics := p.metrics.map fun c => (c.takeRecent now).2 } })

end Board
end LoadGen
