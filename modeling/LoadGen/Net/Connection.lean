import LoadGen.Dict
import LoadGen.Text.Quoted

namespace LoadGen

/-- A live connection. -/
structure Connection where
  kind : String := "Mock"
  secure : Bool := false
  busy : Bool := false
  inFlight : Nat := 0
  deriving DecidableEq, Repr

/-- The kind, marked where the connection is secure. -/
def Connection.title (c : Connection) : String :=
  if c.secure then c.kind ++ "(SSL)" else c.kind

/-- The connections to one target that one event loop owns, with a rough count of the sessions
that wait for one. -/
structure Lines where
  connections : List Connection := []
  waiting : Nat := 0
  deriving DecidableEq, Repr

namespace Lines

def available (l : Lines) : Nat := l.connections.countP (!·.busy)

def inFlight (l : Lines) : Nat := (l.connections.map (·.inFlight)).foldr (· + ·) 0

/-- How many connections there are of each title. -/
def titles (l : Lines) : Dict Nat :=
  l.connections.foldl (fun d c => d.insert c.title ((d.get? c.title).getD 0 + 1)) .empty

def describe (name : String) (l : Lines) : String :=
  name ++ ": " ++ toString l.available ++ "/" ++ toString l.connections.length ++
    " available, " ++ toString l.inFlight ++ " in-flight requests, " ++ toString l.waiting ++
    " waiting sessions (estimate), types: " ++
    Text.tableForm (l.titles.entries.map fun (k, n) => (Text.quote k, toString n))

end Lines
end LoadGen
