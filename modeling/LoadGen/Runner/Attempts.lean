import LoadGen.Runner.Control

namespace LoadGen.Runner

/-- What a controller can order a phase to do. -/
inductive Order
  | start
  | finish
  | tryTerminate
  | terminate
  deriving DecidableEq, Repr

/-- What an order comes to: its answer, if it has one, or why it was refused, and the runner after
it. -/
abbrev Attempt := Except Failure (Option Bool) × Runner

def attemptFinish (r : Runner) (name : String) : Attempt :=
  match r.instances.get? name with
  | none => (.error (.unknownPhase name), r)
  | some i =>
    match i.standing.finish name r.now with
    | .error f => (.error f, r)
    | .ok s => (.ok none, r.moveIf none name s)

/-- Gives a phase that runs its sessions. One that gets them all at once is finished after that. -/
def attemptLaunch (r : Runner) (name : String) : Model → Attempt
  | .noop => (.ok none, r)
  | .atOnce users => (startSessions name users r).attemptFinish name
  | .always users => (.ok none, startSessions name users r)
  | .paced .. => (.ok none, r.startPacer name)

/-- The phase itself starts, if it finds that it has not started yet. -/
def attemptRun (r : Runner) (name : String) : Attempt :=
  match r.instances.get? name with
  | none => (.error (.unknownPhase name), r)
  | some i =>
    match i.standing.start name r.now with
    | .error f => (.error f, r)
    | .ok s => (r.move none name s).attemptLaunch name i.phase.model

/-- A phase that has not started yet enters its group, and starts. -/
def attemptStart (r : Runner) (name : String) : Attempt :=
  match r.instances.get? name with
  | none => (.error (.unknownPhase name), r)
  | some i =>
    if i.standing.status = .notStarted then
      match r.groupOf? i.phase with
      | some (key, _) => (r.enterGroup key name).attemptRun name
      | none => r.attemptRun name
    else (.error (.invalidTransition name i.standing.status .running), r)

/-- Ends a finished phase if no session runs for it. The answer is whether the phase has ended. -/
def attemptTryTerminate (r : Runner) (name : String) : Attempt :=
  match r.instances.get? name with
  | none => (.error (.unknownPhase name), r)
  | some i =>
    match i.standing.tryTerminate r.now with
    | some s => (.ok (some true), r.move none name s)
    | none => (.ok (some i.standing.status.isTerminated), r)

def attemptTerminate (r : Runner) (name : String) : Attempt :=
  match r.instances.get? name with
  | none => (.error (.unknownPhase name), r)
  | some i => (.ok none, r.moveIf none name (i.standing.terminate r.now))

def order (r : Runner) (name : String) : Order → Attempt
  | .start => r.attemptStart name
  | .finish => r.attemptFinish name
  | .tryTerminate => r.attemptTryTerminate name
  | .terminate => r.attemptTerminate name

end LoadGen.Runner
