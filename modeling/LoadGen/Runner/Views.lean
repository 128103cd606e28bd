import LoadGen.Runner.State

namespace LoadGen.Runner

/-- The lowest and the highest use of a group's pool since the last look, if there was any. -/
def poolMarks (g : Group) (phase : String) : Option (String × Nat × Nat) :=
  if g.pool.minUsed ≤ g.pool.maxUsed ∧ g.pool.maxUsed ≠ 0 then
    some (phase, g.pool.minUsed, g.pool.maxUsed)
  else none

def resetMarks (g : Group) : Group := { g with pool := g.pool.resetMarks }

/-- The use of every pool, under the phase that its group started last. -/
def poolStats (r : Runner) : List (String × Nat × Nat) × Runner :=
  (r.groups.values.filterMap fun g => g.current.bind (poolMarks g),
   { r with groups := r.groups.map fun g => if g.current.isSome then resetMarks g else g })

def phasePoolStats (r : Runner) (name : String) :
    Except Failure (List (String × Nat × Nat) × Runner) := do
  let i ← r.instance? name
  match r.groupOf? i.phase with
  | none => return ([], r)
  | some (key, g) => return ((poolMarks g name).toList, r.modifyGroup key resetMarks)

/-- The boards of the group that a phase belongs to. -/
def phaseBoards (r : Runner) (name : String) : Except Failure (List Board) := do
  let i ← r.instance? name
  return ((r.groupOf? i.phase).map (·.2.boards)).getD []

def pool? (r : Runner) (name : String) : Option (Pool Nat) :=
  (r.instances.get? name).bind fun i => (r.groupOf? i.phase).map (·.2.pool)

/-- Whether two phases share a pool; none if one of them has no pool. -/
def samePool (r : Runner) (a b : String) : Option Bool := do
  let i ← r.instances.get? a
  let j ← r.instances.get? b
  let (k, _) ← r.groupOf? i.phase
  let (l, _) ← r.groupOf? j.phase
  return k == l

def listConnections (r : Runner) : List String := r.destinations.flatMap Destinations.list

/-- The lines to a target as a session finds them. -/
def destination? (r : Runner) (session : Nat) (target : Option String) : Option Lines :=
  (r.session? session).bind fun s =>
    (r.destinations[s.executor]?).bind fun d => d.get? target

/-- The values that wait in a shared queue of a session's group and loop. -/
def sharedLength (r : Runner) (session : Nat) (key : String) : Nat :=
  (((r.session? session).bind fun s =>
    (r.groups.get? s.group).bind fun g => g.queues[s.executor]?).map (·.length key)).getD 0

/-- What is counted in the bucket of a request, unless the bucket is gone. -/
def summaryOf (r : Runner) (b : BucketRef) : Option Summary :=
  ((r.groups.get? b.group).bind fun g =>
    (g.boards[b.executor]?).bind fun board => board.bucket? b.phase b.metric).map (·.summary)

def debugForm (r : Runner) : String :=
  Text.recordForm "SimulationRunner"
    [("benchmark", Text.quote r.name), ("agent_id", toString r.agent),
     ("executors", toString r.loops.size),
     ("phases", Text.listForm (r.instances.keys.map Text.quote))]

/-- Whether the watchdog reports wake-ups that are late by next to nothing. -/
def alarms (r : Runner) : Bool := r.watchdog.any Watchdog.alarmsAtOnce

end LoadGen.Runner
