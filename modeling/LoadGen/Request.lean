import LoadGen.Duration
import LoadGen.Text.Quoted

namespace LoadGen

/-- A named place in a script. -/
structure Sequence where
  name : String
  index : Nat
  deriving DecidableEq, Repr

def Sequence.debugForm (s : Sequence) : String :=
  Text.recordForm "Sequence" [("name", Text.quote s.name), ("index", toString s.index)]

/-- The bucket that a request is measured in. -/
structure BucketRef where
  group : String
  executor : Nat
  phase : String
  metric : String
  deriving DecidableEq, Repr

/-- How far a request has come. -/
inductive Progress
  /-- Never started, or released. -/
  | idle
  | running
  | completing
  | completed
  deriving DecidableEq, Repr

def Progress.name : Progress → String
  | .idle => "Idle"
  | .running => "Running"
  | .completing => "Completing"
  | .completed => "Completed"

/-- How a request turned out, apart from how far it has come. -/
inductive Verdict
  | valid
  | invalid
  | timedOut
  deriving DecidableEq, Repr

def Verdict.name : Verdict → String
  | .valid => "Valid"
  | .invalid => "Invalid"
  | .timedOut => "TimedOut"

/-- What is done about a request that timed out. -/
inductive Recovery
  | complete
  /-- Nothing at all. -/
  | leave
  | release
  | markInvalid
  /-- Starts the request again, for another sequence and another metric. -/
  | restart (sequence : Sequence) (metric : String)
  deriving DecidableEq, Repr

/-- A request of a session. Times of its start and of its sending are in nanoseconds. -/
structure Request where
  session : Nat
  recovery : Recovery
  progress : Progress := .idle
  verdict : Verdict := .valid
  /-- The time of the last start in milliseconds; zero before the first one. -/
  stamp : Nat := 0
  started : Option Nat := none
  sent : Option Nat := none
  sequence : Option Sequence := none
  bucket : Option BucketRef := none
  /-- The timer that will end the request. -/
  timer : Option Nat := none
  connection : Option Nat := none
  /-- How often its recovery was called for. -/
  recoveries : Nat := 0
  /-- Whether whoever made the request still has it. -/
  held : Bool := true
  deriving DecidableEq, Repr

namespace Request

/-- A connection and a timer stay with the request when it is started again. -/
def start (q : Request) (now instant : Nat) (sequence : Sequence) (bucket : BucketRef) : Request :=
  { q with
    stamp := now
    started := some instant
    sent := none
    sequence := some sequence
    progress := .running
    verdict := .valid
    bucket := some bucket }

def isCompleted (q : Request) : Bool := q.progress == .completed || q.progress == .idle

/-- Completes the request; an idle one stays idle. -/
def complete (q : Request) : Request :=
  { q with
    timer := none
    connection := none
    progress := if q.progress = .idle then .idle else .completed }

/-- Makes the request ready for another start. -/
def release (q : Request) : Request :=
  { q.complete with progress := .idle, verdict := .valid, sequence := none, bucket := none }

def blockedTime (q : Request) (started : Nat) : Duration :=
  match q.sent with
  | some t => ⟨t - started⟩
  | none => .zero

def debugForm (q : Request) : String :=
  Text.recordForm "Request"
    [("session", toString q.session), ("status", q.progress.name), ("result", q.verdict.name),
     ("sequence", Text.optionForm (q.sequence.map Sequence.debugForm))]

end Request
end LoadGen
