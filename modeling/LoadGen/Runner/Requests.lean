import LoadGen.Runner.State

namespace LoadGen.Runner

/-- Makes the bucket of a metric, unless it is there, for the phase that a session runs for. -/
def bucketFor (r : Runner) (session : Nat) (metric : String) : Except Failure (BucketRef × Runner) :=
  match r.session? session with
  | none => .error (.sessionNotBound session)
  | some s =>
    match s.phase with
    | none => .error (.sessionNotBound session)
    | some phase =>
      .ok (⟨s.group, s.executor, phase, metric⟩,
        r.modifyBoard s.group s.executor (·.ensure phase metric r.now))

/-- Counts an event in a bucket. Once the bucket was pruned nothing is counted. -/
def measure (r : Runner) (b : BucketRef) (stamp : Nat) (e : Event) : Runner :=
  r.modifyBoard b.group b.executor (·.update b.phase b.metric (·.record stamp e))

def measureTimes (b : BucketRef) (stamp : Nat) (e : Event) : Nat → Runner → Runner
  | 0, r => r
  | n + 1, r => measureTimes b stamp e n (r.measure b stamp e)

def measureIn (r : Runner) (bucket : Option BucketRef) (stamp : Nat) (e : Event) : Runner :=
  match bucket with
  | some b => r.measure b stamp e
  | none => r

def startRequest (r : Runner) (id : Nat) (sequence : Sequence) (b : BucketRef) : Runner :=
  let session := ((r.request? id).map (·.session)).getD 0
  let r := r.modifyRequest id (·.start r.now r.instant sequence b)
  let r := r.measure b r.now .request
  r.modifySession session (·.track id)

/-- Starts a request for the phase that its session runs for. -/
def beginRequest (r : Runner) (id : Nat) (sequence : Sequence) (metric : String) :
    Except Failure Runner := do
  let session := ((r.request? id).map (·.session)).getD 0
  let (b, r) ← r.bucketFor session metric
  return r.startRequest id sequence b

/-- Stops the timer of a request, if it has one. -/
def disarmRequest (r : Runner) (q : Request) : Runner :=
  match q.timer with
  | some t => { r with loops := r.loops.disarm (r.executorOf q.session) t }
  | none => r

/-- Completes a request, which its session tracks no longer. -/
def completeRequest (r : Runner) (id : Nat) : Runner :=
  match r.request? id with
  | none => r
  | some q =>
    let r := r.disarmRequest q
    let r := r.modifyRequest id (·.complete)
    r.modifySession q.session (·.untrack id)

def releaseRequest (r : Runner) (id : Nat) : Runner :=
  (r.completeRequest id).modifyRequest id (·.release)

/-- Does what is to be done about a request that timed out. -/
def recover (r : Runner) (id : Nat) : Recovery → Runner
  | .complete => r.completeRequest id
  | .leave => r
  | .release => r.releaseRequest id
  | .markInvalid => r.modifyRequest id fun q => { q with verdict := .invalid }
  | .restart sequence metric =>
    match r.beginRequest id sequence metric with
    | .ok r => r
    | .error _ => r

/-- Tells a connection that one of its requests timed out. -/
def notifyConnection (r : Runner) : Option Nat → Runner
  | none => r
  | some c => { r with
      connections := r.connections.modify c fun l => { l with timeouts := l.timeouts + 1 } }

/-- Ends a request whose time is up, or is said to be up. The request forgets its timer, which is not
stopped. One that has completed stays as it is otherwise. -/
def timeOut (r : Runner) (id : Nat) : Runner :=
  match r.request? id with
  | none => r
  | some q =>
    let r := r.modifyRequest id fun q => { q with timer := none }
    if q.isCompleted then r
    else
      let r := r.modifyRequest id fun q =>
        { q with verdict := .timedOut, recoveries := q.recoveries + 1 }
      let r := r.measureIn q.bucket q.stamp .timeout
      let r := r.recover id q.recovery
      r.notifyConnection q.connection

def isKept (r : Runner) (id : Nat) (q : Request) : Bool :=
  q.held || r.sessions.any fun s => s.inFlight.contains id || s.current == some id

def expire (r : Runner) (id : Nat) : Runner :=
  match r.request? id with
  | none => r
  | some q => if r.isKept id q then r.timeOut id else r

/-- Sets the timer of a request, in place of the one it may have. -/
def setTimeout (r : Runner) (id : Nat) (delay : Duration) : Runner :=
  match r.request? id with
  | none => r
  | some q =>
    match r.session? q.session with
    | none => r
    | some s =>
      let (timer, loops) := r.loops.arm s.executor delay (.expire id)
      let r := { r with loops := loops }.disarmRequest q
      r.modifyRequest id fun q => { q with timer := some timer }

/-- Measures the response to a request that was started. -/
def respond (r : Runner) (id : Nat) : Runner :=
  match r.request? id with
  | none => r
  | some q =>
    match q.bucket, q.started with
    | some b, some t =>
      r.measure b q.stamp
        (.response (q.blockedTime t) ⟨r.instant - t⟩ (q.verdict == .valid))
    | _, _ => r

/-- Makes a request and its sequence the current ones of its session. -/
def enterRequest (r : Runner) (id : Nat) : Runner :=
  match r.request? id with
  | none => r
  | some q => r.modifySession q.session fun s =>
      { s with sequence := q.sequence, current := some id }

def exitRequest (r : Runner) (id : Nat) : Runner :=
  match r.request? id with
  | none => r
  | some q => r.modifySession q.session fun s => { s with sequence := none, current := none }

/-- Completes every request that a session has in flight. -/
def stopSession (r : Runner) (session : Nat) : Runner :=
  let requests := ((r.session? session).map (·.inFlight)).getD []
  let r := r.modifySession session fun s => { s with inFlight := [] }
  let r := requests.foldl completeRequest r
  r.modifySession session fun s => { s with sequence := none, current := none }

/-- What can be done with a request from outside. -/
inductive RequestCommand
  | begin (metric : String) (sequence : Sequence)
  | attach (connection : Nat)
  | setTimeout (delay : Duration)
  | timeOut
  | sent
  | respond
  | complete
  | completing
  | invalidate
  | release
  | enter
  | exit
  | look
  deriving DecidableEq, Repr

def applyCommand (r : Runner) (id : Nat) : RequestCommand → Except Failure Runner
  | .begin metric sequence => r.beginRequest id sequence metric
  | .attach c => .ok (r.modifyRequest id fun q => { q with connection := some c })
  | .setTimeout delay => .ok (r.setTimeout id delay)
  | .timeOut => .ok (r.timeOut id)
  | .sent => .ok (r.modifyRequest id fun q => { q with sent := some r.instant })
  | .respond => .ok (r.respond id)
  | .complete => .ok (r.completeRequest id)
  | .completing => .ok (r.modifyRequest id fun q => { q with progress := .completing })
  | .invalidate => .ok (r.modifyRequest id fun q => { q with verdict := .invalid })
  | .release => .ok (r.releaseRequest id)
  | .enter => .ok (r.enterRequest id)
  | .exit => .ok (r.exitRequest id)
  | .look => .ok r

/-- Does something with a request on the loop of its session. Without the session it is done at
once; on a loop that has stopped it is not done. -/
def command (r : Runner) (id : Nat) (c : RequestCommand) : Except Failure Runner :=
  match (r.request? id).bind fun q => r.session? q.session with
  | some s =>
    if r.loops.isOpen s.executor then r.applyCommand id c else .error .taskDropped
  | none => r.applyCommand id c

def createRequest (r : Runner) (session : Nat) (recovery : Recovery) : Nat × Runner :=
  (r.requests.length,
   { r with requests := r.requests ++ [{ session := session, recovery := recovery }] })

def letGo (r : Runner) (id : Nat) : Runner := r.modifyRequest id fun q => { q with held := false }

def addConnection (r : Runner) (c : Connection) : Nat × Runner :=
  (r.connections.length, { r with connections := r.connections ++ [{ connection := c }] })

end LoadGen.Runner
