import LoadGen.Failure
import LoadGen.Text.Quoted

namespace LoadGen

/-- Where a phase stands. -/
structure Standing where
  status : Status := .notStarted
  /-- The status that watchers of the phase see. -/
  watched : Status := .notStarted
  /-- The sessions that run for the phase. -/
  active : Nat := 0
  startedAt : Option Nat := none
  finishedAt : Option Nat := none
  terminatedAt : Option Nat := none
  failure : Option Failure := none
  limitExceeded : Bool := false
  deriving DecidableEq, Repr

/-- What is told of a phase that changed its status. -/
structure Notice where
  status : Status
  limitExceeded : Bool
  failure : Option Failure
  deriving DecidableEq, Repr

namespace Standing

/-- The status changes for the phase and its watchers at once. -/
def become (s : Standing) (status : Status) : Standing :=
  { s with status := status, watched := status }

def notice (s : Standing) : Notice := ⟨s.status, s.limitExceeded, s.failure⟩

def start (name : String) (now : Nat) (s : Standing) : Except Failure Standing :=
  if s.status = .notStarted then .ok { s.become .running with startedAt := some now }
  else .error (.invalidTransition name s.status .running)

def finish (name : String) (now : Nat) (s : Standing) : Except Failure (Option Standing) :=
  match s.status with
  | .notStarted => .error (.invalidTransition name .notStarted .finished)
  | .running => .ok (some { s.become .finished with finishedAt := some now })
  | _ => .ok none

/-- Ends a finished phase that has no session left. -/
def tryTerminate (now : Nat) (s : Standing) : Option Standing :=
  if s.status = .finished ∧ s.active = 0 then
    some { s.become .terminated with terminatedAt := some now }
  else none

/-- Ends the phase. While sessions still run for it, it is only terminating. -/
def terminate (now : Nat) (s : Standing) : Option Standing :=
  if s.status.isTerminating then none
  else
    let s := if s.status = .running then { s with finishedAt := some now } else s
    some (if s.active = 0 then { s.become .terminated with terminatedAt := some now }
      else s.become .terminating)

/-- Takes note of a failure. The first one stays. -/
def blame (f : Failure) (s : Standing) : Standing := { s with failure := s.failure.or (some f) }

def join (s : Standing) : Standing := { s with active := s.active + 1 }

/-- Counts a session that has ended, which may end a terminating phase. -/
def leave (now : Nat) (s : Standing) : Standing :=
  let s := { s with active := s.active - 1 }
  if s.active = 0 ∧ s.status = .terminating then
    { s.become .terminated with terminatedAt := some now }
  else s

def exceedLimit (s : Standing) : Standing := { s with limitExceeded := true }

def debugForm (name : String) (s : Standing) : String :=
  Text.recordForm "PhaseInstance"
    [("name", Text.quote name), ("status", s.status.name), ("active", toString s.active),
     ("session_limit_exceeded", Text.boolForm s.limitExceeded)]

end Standing
end LoadGen
