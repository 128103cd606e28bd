import LoadGen.Runner.Notices
import LoadGen.Runner.Pacing

namespace LoadGen.Runner

abbrev ClientPlan := Target × Except Failure Client

def makeClients (plans : List ClientPlan) : Except Failure (List Client) :=
  plans.foldlM step []
where
  step (clients : List Client) (plan : ClientPlan) : Except Failure (List Client) := do
    let client ← plan.2
    if clients.any (·.target.name == plan.1.name) then
      throw (.config ("duplicate connection target " ++ plan.1.name))
    return clients ++ [client]

/-- The destinations of the sessions on one loop. -/
def destinationsOn (clients : List Client) (default? : Option String) (executor : Nat) :
    Destinations where
  lines := Dict.ofList (clients.map fun c => (c.target.name, (c.lines[executor]?).getD {}))
  default? := default?

def create (name : String) (agent now processors : Nat) (settings : Settings) (phases : List Phase)
    (plans : List ClientPlan) : Except Failure Runner := do
  if let some f := settings.fault? then throw f
  let default? ← Target.checkAll (plans.map (·.1))
  let loops ← LoopGroup.create (settings.threadCount processors)
  let clients ← makeClients plans
  return {
    name := name, agent := agent, settings := settings, phases := phases, now := now
    loops := loops, clients := clients
    destinations := (List.range loops.size).map (destinationsOn clients default?) }

/-- The concurrency that the phases of a key declare, where the most demanding one counts. -/
def poolSize (phases : List Phase) (key : String) : Nat :=
  ((phases.filter (·.key == some key)).map (·.model.maxSessions)).foldl max 0

def newGroup (phases : List Phase) (loops : Nat) (key : String) : Group where
  pool := { max := poolSize phases key }
  boards := (List.range loops).map fun e => { executor := e }
  queues := List.replicate loops {}

/-- Makes the group of a phase, unless it is there. -/
def ensureGroup (r : Runner) (p : Phase) : Runner :=
  match p.key with
  | none => r
  | some key =>
    if r.groups.contains key then r
    else { r with groups := r.groups.insert key (newGroup r.phases r.loops.size key) }

/-- Makes the phases and their groups, as far as their names are distinct. -/
def makeInstances : List Phase → Dict Instance → Runner → Except Failure (Dict Instance) × Runner
  | [], instances, r => (.ok instances, r)
  | p :: rest, instances, r =>
    let r := r.ensureGroup p
    if instances.contains p.name then (.error (.config ("duplicate phase " ++ p.name)), r)
    else makeInstances rest (instances.insert p.name { phase := p }) r

def startWatchdog (r : Runner) : Runner :=
  { r with
    watchdog := some ⟨r.settings.period, r.settings.threshold⟩
    watchdogStarts := r.watchdogStarts + 1 }

/-- Brings the phases into play and starts the watchdog. A runner that has phases in play is not
initialized again. -/
def init (r : Runner) : Except Failure Unit × Runner :=
  if !r.instances.isEmpty then (.error (.config "runner is already initialized"), r)
  else
    match makeInstances r.phases .empty r with
    | (.error f, r) => (.error f, r)
    | (.ok instances, r) => (.ok (), { r with instances := instances }.startWatchdog)

/-- The failure of a client's start, as a failure of its pool. -/
def startupFailure (name : String) : Failure → Failure
  | .poolStartup pool reason => .poolStartup pool reason
  | other => .poolStartup name other.message

/-- Starts every client. The first failure, by target name, is reported. -/
def openConnections (r : Runner) : Except Failure Unit × Runner :=
  let byName : Dict Client := Dict.ofList (r.clients.map fun c => (c.target.name, c))
  let r := { r with clients := r.clients.map fun c => { c with starts := c.starts + 1 } }
  match byName.entries.findSome? fun (name, c) => c.startFailure.map (startupFailure name) with
  | none => (.ok (), r)
  | some f => (.error f, r.report f)

/-- Stops the admission of sessions to a phase. -/
def finish (r : Runner) (name : String) : Except Failure Runner := do
  let i ← r.instance? name
  return r.moveIf none name (← i.standing.finish name r.now)

def launch (r : Runner) (name : String) (model : Model) : Except Failure Runner :=
  match model with
  | .noop => .ok r
  | .atOnce users => (startSessions name users r).finish name
  | .always users => .ok (startSessions name users r)
  | .paced .. => .ok (r.startPacer name)

/-- A group belongs to a phase that starts now, and so do the measurements on every loop. -/
def enterGroup (r : Runner) (key name : String) : Runner :=
  (r.modifyGroup key fun g => { g with current := some name }).pushAll (.stamp key name r.now)

/-- A phase begins to run, without any session yet. -/
def begin (r : Runner) (name : String) : Except Failure Runner := do
  let i ← r.instance? name
  let s ← i.standing.start name r.now
  let r := match r.groupOf? i.phase with
    | some (key, _) => r.enterGroup key name
    | none => r
  return r.move none name s

def start (r : Runner) (name : String) : Except Failure Runner := do
  let i ← r.instance? name
  (← r.begin name).launch name i.phase.model

/-- Ends a finished phase if no session runs for it. Gives whether the phase has ended. -/
def tryTerminate (r : Runner) (name : String) : Except Failure (Bool × Runner) := do
  let i ← r.instance? name
  match i.standing.tryTerminate r.now with
  | some s => return (true, r.move none name s)
  | none => return (i.standing.status.isTerminated, r)

def terminate (r : Runner) (name : String) : Except Failure Runner := do
  let i ← r.instance? name
  return r.moveIf none name (i.standing.terminate r.now)

def fail (r : Runner) (name : String) (f : Failure) : Except Failure Runner := do
  let _ ← r.instance? name
  return r.failPhase none name f

def setLimit (r : Runner) (name : String) : Except Failure Runner := do
  let _ ← r.instance? name
  return r.modifyInstance name fun i => { i with standing := i.standing.exceedLimit }

end LoadGen.Runner
