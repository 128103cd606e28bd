import LoadGen.Runner.Notices
import LoadGen.Runner.Requests
import LoadGen.Runner.Sessions

namespace LoadGen.Runner

/-- How an action ends. -/
inductive Outcome
  | done
  | failed (f : Failure)
  /-- The actions after it have to wait for a gate. -/
  | gate
  /-- The actions after it have to wait for a timer. -/
  | pause (timer : Nat)

/-- How a turn of a run ends. -/
inductive TurnEnd
  | finished
  | failed (f : Failure)
  | waits (p : Point)

def var? (r : Runner) (session : Nat) (name : String) : Option Value :=
  (r.session? session).bind (·.vars.get? name)

def queues (r : Runner) (session : Nat) : Queues :=
  ((r.session? session).bind fun s =>
    (r.groups.get? s.group).bind fun g => g.queues[s.executor]?).getD {}

def modifyQueuesOf (r : Runner) (session : Nat) (f : Queues → Queues) : Runner :=
  match r.session? session with
  | some s => r.modifyQueues s.group s.executor f
  | none => r

def takeStep (r : Runner) (run : Run) : Step → Outcome × Runner
  | .log message vars => (.done, r.log (.logged (Step.logged message vars (r.var? run.session))))
  | .set var value =>
    (.done, r.modifySession run.session fun s => { s with vars := s.vars.insert var value })
  | .pause time =>
    let (timer, loops) := r.loops.arm (r.executorOf run.session) time (.resume run.id)
    (.pause timer, { r with loops := loops })

def act (r : Runner) (run : Run) : Action → Outcome × Runner
  | .run step => r.takeStep run step
  | .build tag params =>
    match Catalog.builtIn.build tag params with
    | .ok step => r.takeStep run step
    | .error f => (.failed f, r)
  | .get var => (.done, r.log (.found run.session (.value (r.var? run.session var))))
  | .unset var =>
    let r := r.log (.found run.session (.value (r.var? run.session var)))
    (.done, r.modifySession run.session fun s => { s with vars := s.vars.erase var })
  | .push key value => (.done, r.modifyQueuesOf run.session (·.push key value))
  | .pushId key =>
    (.done, r.modifyQueuesOf run.session (·.push key (.int (Int.ofNat run.session))))
  | .pull key =>
    let r := r.log (.found run.session (.value ((r.queues run.session).pull key).1))
    (.done, r.modifyQueuesOf run.session fun q => (q.pull key).2)
  | .measure metric stamp event times =>
    match r.bucketFor run.session metric with
    | .ok (b, r) => (.done, measureTimes b (stamp.getD r.now) event times r)
    | .error f => (.failed f, r)
  | .bound =>
    (.done, r.log (.found run.session (.phase ((r.session? run.session).bind (·.phase)))))
  | .fail f => (.failed f, r)
  | .failIn session f => if run.session = session then (.failed f, r) else (.done, r)
  | .gate => (.gate, r)

/-- Does actions until one fails or the rest has to wait. -/
def actAll (run : Run) : List Action → Runner → TurnEnd × Runner
  | [], r => (.finished, r)
  | a :: rest, r =>
    match r.act run a with
    | (.done, r) => actAll run rest r
    | (.failed f, r) => (.failed f, r)
    | (.gate, r) => (.waits (.gate rest), r)
    | (.pause timer, r) => (.waits (.pause timer rest), r)

/-- The session of a run that has ended goes back to its pool, and its phase counts it out. -/
def unwind (here : Option Nat) (run : Run) (r : Runner) : Runner :=
  let r := { r with runs := r.runs.filter (·.id != run.id) }
  let r := r.stopSession run.session
  match r.instances.get? run.phase with
  | none => r
  | some i =>
    let r := match i.phase.key with
      | some key => r.giveBack key run.session
      | none => r
    let s := i.standing.leave r.now
    if s.status = i.standing.status then
      r.modifyInstance run.phase fun i => { i with standing := s }
    else r.move here run.phase s

def setPoint (r : Runner) (run : Run) (p : Point) : Runner :=
  { r with runs := r.runs.map fun other => if other.id = run.id then { other with point := p } else other }

/-- Whether a run goes on with another iteration. -/
def goesOn (r : Runner) (run : Run) : Bool :=
  match r.instances.get? run.phase with
  | some i => i.phase.model.repeats && i.standing.status == .running
  | none => false

/-- Ends a turn, where `again` begins the next iteration. -/
def Telling.endTurn (here : Option Nat) (run : Run) (again : Runner → Telling Runner) :
    TurnEnd × Runner → Telling Runner
  | (.waits p, r) => ([], r.setPoint run p)
  | (.failed f, r) =>
    ([.comes ⟨run, .fails f, r⟩], (r.failPhase here run.phase f).unwind here run)
  | (.finished, r) =>
    let (later, r') := if r.goesOn run then again r else ([], r.unwind here run)
    (.comes ⟨run, .succeeds, r⟩ :: later, r')

/-- Leaves the next iteration to a later turn. -/
def putOff (run : Run) (r : Runner) : Runner :=
  (r.setPoint run .fresh).push (r.executorOf run.session) (.resume run.id)

/-- The actions of an iteration of a run. -/
def actionsOf (r : Runner) (run : Run) : List Action :=
  ((r.instances.get? run.phase).map (·.phase.script.actions)).getD []

/-- Begins an iteration. One that ends without having waited for anything is the last of its turn. -/
def Telling.iterate (here : Option Nat) (run : Run) (r : Runner) : Telling Runner :=
  let actions := r.actionsOf run
  let r := r.modifySession run.session (·.reset)
  let (later, r') := endTurn here run (fun r => ([], putOff run r)) (actAll run actions r)
  (.comes ⟨run, .begins, r⟩ :: later, r')

/-- Goes on with an iteration that has waited. -/
def Telling.carryOn (here : Option Nat) (run : Run) (rest : List Action) (r : Runner) :
    Telling Runner :=
  endTurn here run (iterate here run) (actAll run rest r)

/-- A run gives up what it waits for, or what it was about to begin. -/
def breakOff (r : Runner) (run : Run) : Runner :=
  match run.point with
  | .fresh => r.modifySession run.session (·.reset)
  | .pause timer _ => { r with loops := r.loops.disarm (r.executorOf run.session) timer }
  | _ => r

/-- Gives a run its turn. A phase that is terminating interrupts it. -/
def Telling.resume (here : Option Nat) (id : Nat) (r : Runner) : Telling Runner :=
  match r.runs.find? (·.id == id) with
  | none => ([], r)
  | some run =>
    if (r.status? run.phase).any Status.isTerminating then
      ([.comes ⟨run, .interrupted, r⟩], (r.breakOff run).unwind here run)
    else
      match run.point with
      | .fresh => iterate here run r
      | .gate _ => ([], r)
      | .opened none rest => carryOn here run rest r
      | .opened (some f) _ => endTurn here run (fun r => ([], putOff run r)) (.failed f, r)
      | .pause _ rest => carryOn here run rest r

def resume (here : Option Nat) (id : Nat) (r : Runner) : Runner := (Telling.resume here id r).2

/-- The sessions that wait at a gate, by number. -/
def atGate (r : Runner) : List Nat :=
  (r.runs.filterMap fun run => match run.point with
    | .gate _ => some run.session
    | _ => none).mergeSort (· ≤ ·)

/-- Opens the gate at which a session waits, with or without a failure. -/
def openGate (r : Runner) (session : Nat) (f : Option Failure) : Option Runner :=
  match r.runs.find? fun run => run.session == session && (match run.point with
    | .gate _ => true
    | _ => false) with
  | some run =>
    match run.point with
    | .gate rest =>
      some ((r.setPoint run (.opened f rest)).push (r.executorOf session) (.resume run.id))
    | _ => none
  | none => none

end LoadGen.Runner
