import LoadGen.Runner.Control
import LoadGen.Runner.Iteration
import LoadGen.Runner.Survey

namespace LoadGen.Runner

def Telling.perform (loop : Nat) (r : Runner) : Task → Telling Runner
  | .stamp group phase time => ([], r.modifyBoard group loop (·.startPhase phase time))
  | .seal fence => ([], r.sealed loop fence)
  | .announce fence => ([], r.announce fence)
  | .resume run => resume (some loop) run r
  | .pace phase => pace phase r
  | .read survey slot group => ([], r.read loop survey slot group)
  | .prune group phase => ([], r.modifyBoard group loop (·.prune phase))
  | .expire request => ([], r.expire request)

def perform (loop : Nat) (r : Runner) (t : Task) : Runner := (Telling.perform loop r t).2

/-- A loop takes the next task out of its queue and does it. -/
def Telling.step? (r : Runner) (loop : Nat) : Option (Telling Runner) :=
  (r.loops.next? loop).map fun (t, loops) => perform loop { r with loops := loops } t

def step? (r : Runner) (loop : Nat) : Option Runner := (Telling.step? r loop).map (·.2)

/-- Lets the loops work, the first busy one each time, for at most so many tasks. -/
def runFor : Nat → Runner → Runner
  | 0, r => r
  | n + 1, r =>
    match r.loops.busy? with
    | none => r
    | some loop =>
      match r.step? loop with
      | none => r
      | some r => runFor n r

/-- How many ticks the phases have to make up for, if all of them are paced. -/
def ticksToMake (r : Runner) : Nat :=
  (r.instances.entries.map fun (phase, i) =>
    ticksDue r.paceClock (r.pacerOf phase).nextTick i.phase.tick).foldr (· + ·) 0

/-- More tasks than can be done before the loops are idle: each run has some turns, and so has each
session that a tick can still start; each phase can have its termination made and announced. -/
def taskBound (r : Runner) : Nat :=
  let queued := (r.loops.loops.map (·.queue.length)).foldr (· + ·) 0
  let sessions := (r.groups.values.map (·.pool.max)).foldr (· + ·) 0
  let ticks := r.ticksToMake
  4 * (queued + r.runs.length + ticks + sessions * (ticks + 1) +
    r.instances.size * (r.loops.size + 4) + 4)

/-- Lets the loops work until all of them are idle. -/
def settle (r : Runner) : Runner := runFor r.taskBound r

/-- Moves the clock of one loop and lets the loops work. -/
def advanceLoop (time : Duration) (r : Runner) (loop : Nat) : Runner :=
  { r with loops := r.loops.advance loop time }.settle

/-- Lets time pass on one loop after the other. -/
def advance (r : Runner) (time : Duration) : Runner :=
  (List.range r.loops.size).foldl (advanceLoop time) r

/-- Reads all buckets, or all open windows, and prunes the terminated phases after that. -/
def survey (r : Runner) (recent : Option Nat) : Except Failure (List Snapshot) × Runner :=
  let (id, r) := r.beginSurvey recent
  let r := r.settle
  match r.surveyed id with
  | .error f => (.error f, r)
  | .ok snapshots =>
    match r.beginPruning with
    | (.error f, r) => (.error f, r.settle)
    | (.ok (), r) => (.ok snapshots, r.settle)

end LoadGen.Runner
