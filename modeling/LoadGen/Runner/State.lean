import LoadGen.Loop.Group
import LoadGen.Measure.Board
import LoadGen.Net.Destinations
import LoadGen.Net.Target
import LoadGen.Phase.Model
import LoadGen.Phase.Standing
import LoadGen.Pool
import LoadGen.Script.Queues
import LoadGen.Session
import LoadGen.Settings
import LoadGen.Watchdog

namespace LoadGen

/-- The tasks that a runner puts into the queues of its loops. Each names the group, the phase or
the piece of work that it is about. -/
inductive Task
  /-- The measurement of a phase begins. -/
  | stamp (group phase : String) (time : Nat)
  /-- The measurement of a terminated phase ends on this loop. -/
  | seal (fence : Nat)
  /-- A termination is announced, if all loops have ended the measurement. -/
  | announce (fence : Nat)
  /-- A run goes on. -/
  | resume (run : Nat)
  /-- The ticks of a paced phase that are due. -/
  | pace (phase : String)
  /-- The buckets of this loop are copied for a survey. -/
  | read (survey slot : Nat) (group : String)
  | prune (group phase : String)
  /-- The time of a request is up. -/
  | expire (request : Nat)
  deriving DecidableEq, Repr

/-- Where a run stands between two turns. -/
inductive Point
  | fresh
  | gate (rest : List Action)
  /-- The gate was opened, with or without a failure. -/
  | opened (failure : Option Failure) (rest : List Action)
  | pause (timer : Nat) (rest : List Action)

/-- A session at work for a phase. -/
structure Run where
  id : Nat
  session : Nat
  phase : String
  point : Point := .fresh

/-- The end of a phase's measurement, which all loops have to make before it is announced. -/
structure Fence where
  phase : String
  group : String
  notice : Notice
  time : Nat
  /-- The loops that have not ended the measurement. -/
  pending : Nat := 0
  /-- Whether the announcement has had its turn and waits for the loops. -/
  parked : Bool := false
  /-- Whether a loop was gone and could not end the measurement. -/
  broken : Bool := false

/-- A paced phase at work. -/
structure Pacer where
  startedAt : Duration
  nextTick : Duration
  carry : Float := 0.0

/-- What is shared by the phases of one key. The lists have one entry for each loop. -/
structure Group where
  /-- The phase started last. -/
  current : Option String := none
  pool : Pool Nat
  boards : List Board
  queues : List Queues

/-- A phase in play. -/
structure Instance where
  phase : Phase
  standing : Standing := {}

/-- The connections to one target, on every loop. -/
structure Client where
  target : Target
  /-- One for each loop. -/
  lines : List Lines
  /-- What the start of the client fails with. -/
  startFailure : Option Failure := none
  starts : Nat := 0
  shutdowns : Nat := 0

/-- A connection that requests can be attached to. -/
structure LiveConnection where
  connection : Connection
  /-- How many of its requests timed out. -/
  timeouts : Nat := 0

/-- The answer of one loop to a survey. -/
inductive Reply
  | pending
  | answered (snapshots : List Snapshot)
  | dropped

/-- A reading of the buckets of all loops. -/
structure Survey where
  /-- When the open windows are closed, if they are what is read. -/
  recent : Option Nat
  replies : List Reply

/-- What an action of a session found. -/
inductive Finding
  | value (v : Option Value)
  | phase (name : Option String)
  deriving DecidableEq, Repr

/-- What can be seen of a runner at work, in order. -/
inductive Entry
  | notice (phase : String) (notice : Notice)
  | reported (failure : Failure)
  | found (session : Nat) (finding : Finding)
  | logged (message : String)

/-- A runner. -/
structure Runner where
  name : String
  agent : Nat
  settings : Settings
  phases : List Phase
  /-- Whether somebody listens to notices and reports. -/
  listening : Bool := true
  /-- The clock in milliseconds since the epoch. -/
  now : Nat
  loops : LoopGroup Task
  clients : List Client := []
  /-- One for each loop. -/
  destinations : List Destinations := []
  instances : Dict Instance := .empty
  groups : Dict Group := .empty
  /-- All sessions; their places are their numbers. -/
  sessions : List Session := []
  runs : List Run := []
  /-- How many runs there were so far. -/
  runCount : Nat := 0
  pacers : Dict Pacer := .empty
  fences : List Fence := []
  surveys : List Survey := []
  /-- The terminated phases whose buckets are still there. -/
  pruneQueue : List String := []
  requests : List Request := []
  connections : List LiveConnection := []
  /-- Whether it was logged that a pool had nothing left. -/
  depletionLogged : Bool := false
  watchdog : Option Watchdog := none
  watchdogStarts : Nat := 0
  stopped : Bool := false
  journal : List Entry := []

namespace Runner

def log (r : Runner) (e : Entry) : Runner := { r with journal := r.journal ++ [e] }

def modifyInstance (r : Runner) (phase : String) (f : Instance → Instance) : Runner :=
  { r with instances := r.instances.modify phase f }

def modifyGroup (r : Runner) (key : String) (f : Group → Group) : Runner :=
  { r with groups := r.groups.modify key f }

def modifySession (r : Runner) (id : Nat) (f : Session → Session) : Runner :=
  { r with sessions := r.sessions.modify id f }

def modifyRequest (r : Runner) (id : Nat) (f : Request → Request) : Runner :=
  { r with requests := r.requests.modify id f }

/-- Changes the buckets that one loop keeps for a group. -/
def modifyBoard (r : Runner) (key : String) (executor : Nat) (f : Board → Board) : Runner :=
  r.modifyGroup key fun g => { g with boards := g.boards.modify executor f }

def modifyQueues (r : Runner) (key : String) (executor : Nat) (f : Queues → Queues) : Runner :=
  r.modifyGroup key fun g => { g with queues := g.queues.modify executor f }

def push (r : Runner) (executor : Nat) (t : Task) : Runner :=
  { r with loops := r.loops.push executor t }

def pushAll (r : Runner) (t : Task) : Runner :=
  (List.range r.loops.size).foldl (fun r i => r.push i t) r

def instance? (r : Runner) (name : String) : Except Failure Instance :=
  match r.instances.get? name with
  | some i => .ok i
  | none => .error (.unknownPhase name)

def groupOf? (r : Runner) (p : Phase) : Option (String × Group) :=
  p.key.bind fun key => (r.groups.get? key).map fun g => (key, g)

def status? (r : Runner) (phase : String) : Option Status :=
  (r.instances.get? phase).map (·.standing.status)

def session? (r : Runner) (id : Nat) : Option Session := r.sessions[id]?

def request? (r : Runner) (id : Nat) : Option Request := r.requests[id]?

def executorOf (r : Runner) (session : Nat) : Nat := ((r.session? session).map (·.executor)).getD 0

def instant (r : Runner) : Nat := r.now * 1000000

end Runner
end LoadGen
