import LoadGen.Dict
import LoadGen.Request
import LoadGen.Script.Value

namespace LoadGen

/-- A session. Its requests are known by their numbers. -/
structure Session where
  group : String
  executor : Nat
  /-- The phase that the session runs for, or ran for last. -/
  phase : Option String := none
  vars : Dict Value := .empty
  sequence : Option Sequence := none
  current : Option Nat := none
  /-- The requests started and not yet completed. -/
  inFlight : List Nat := []
  deriving DecidableEq, Repr

namespace Session

def reset (s : Session) : Session := { s with vars := .empty, sequence := none, current := none }

def track (s : Session) (request : Nat) : Session :=
  if request ∈ s.inFlight then s else { s with inFlight := s.inFlight ++ [request] }

def untrack (s : Session) (request : Nat) : Session :=
  { s with inFlight := s.inFlight.filter (· != request) }

def debugForm (id : Nat) (s : Session) : String :=
  Text.recordForm "Session"
    [("unique_id", toString id), ("executor", toString s.executor),
     ("phase", Text.optionForm (s.phase.map Text.quote))]

end Session
end LoadGen
