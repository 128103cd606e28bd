import LoadGen.Runner.Tasks

namespace LoadGen.Runner

/-- Whether a task that a timer holds will do anything. A phase that does not run any more is not
paced any more. -/
def isLive (r : Runner) : Task → Bool
  | .pace phase => r.status? phase == some .running
  | _ => true

/-- Whether a loop has something left to do, now or later. -/
def hasWork (r : Runner) (loop : Nat) : Bool :=
  (r.loops.loops[loop]?).any (fun l => !l.isIdle || l.timers.any fun t => r.isLive t.task) ||
    r.runs.any fun run => r.executorOf run.session == loop

def closeIdle (r : Runner) : Runner :=
  { r with loops := r.loops.closeWhere fun loop => !r.hasWork loop }

def advanceTogether (r : Runner) (time : Duration) : Runner :=
  { r with loops := r.loops.advanceAll time }.settle

/-- Lets the loops work on for so many milliseconds, from one timer to the next. -/
def runOut (left : Nat) (r : Runner) : Runner :=
  let r := r.closeIdle
  match r.loops.millisToTimer? with
  | none => r
  | some n =>
    if n < left then runOut (left - (n + 1)) (r.advanceTogether (.ofMillis (n + 1))) else r
termination_by left

/-- Stops everything after the grace period. A second shutdown does nothing. -/
def shutdown (r : Runner) : Runner :=
  if r.stopped then r
  else
    let r : Runner := { r with
      stopped := true
      watchdog := none
      clients := r.clients.map fun c => { c with shutdowns := c.shutdowns + 1 } }
    let r := runOut r.settings.shutdownTimeout r
    { r with
      loops := r.loops.close
      runs := []
      pacers := .empty
      groups := r.groups.map fun g => { g with current := none } }

/-- Shuts down and gives up the sessions and the phases. The measurements stay with the requests
that hold on to them. -/
def dismiss (r : Runner) : Runner := { r.shutdown with instances := .empty, sessions := [] }

end LoadGen.Runner
