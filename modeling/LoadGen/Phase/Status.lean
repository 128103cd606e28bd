namespace LoadGen

/-- Where a phase stands in its life. -/
inductive Status
  | notStarted
  | running
  | finished
  | terminating
  | terminated
  deriving DecidableEq, Repr, Inhabited

namespace Status

def all : List Status := [notStarted, running, finished, terminating, terminated]

def rank : Status → Nat
  | notStarted => 0
  | running => 1
  | finished => 2
  | terminating => 3
  | terminated => 4

def label : Status → String
  | notStarted => "NOT_STARTED"
  | running => "RUNNING"
  | finished => "FINISHED"
  | terminating => "TERMINATING"
  | terminated => "TERMINATED"

def name : Status → String
  | notStarted => "NotStarted"
  | running => "Running"
  | finished => "Finished"
  | terminating => "Terminating"
  | terminated => "Terminated"

def ofLabel? (s : String) : Option Status := all.find? (·.label == s)

def isStarted (s : Status) : Bool := s != notStarted

def isFinished (s : Status) : Bool := finished.rank ≤ s.rank

/-- Sessions in flight are being interrupted, or have been. -/
def isTerminating (s : Status) : Bool := terminating.rank ≤ s.rank

def isTerminated (s : Status) : Bool := s == terminated

end Status
end LoadGen
