import LoadGen.Runner.Control

namespace LoadGen

/-- How the start of a client has come out so far. -/
inductive Startup
  | pending
  | ready
  | failed (failure : Failure)

namespace Startup

def ofResult : Except Failure Unit → Startup
  | .ok () => ready
  | .error f => failed f

def isPending : Startup → Bool
  | pending => true
  | _ => false

def failure? : Startup → Option Failure
  | failed f => some f
  | _ => none

def settle (result : Except Failure Unit) : Startup → Startup
  | pending => ofResult result
  | known => known

end Startup

/-- A call that opens the connections. -/
inductive Connecting
  /-- The starts of the clients, by target name. -/
  | waiting (startups : Dict Startup)
  | resolved (result : Except Failure Unit)

namespace Connecting

/-- Nothing is decided while a start is pending. After that the first failure counts, by target
name. -/
def join (startups : Dict Startup) : Connecting :=
  if startups.values.any Startup.isPending then .waiting startups
  else
    match startups.entries.findSome? fun (name, s) =>
        s.failure?.map (Runner.startupFailure name) with
    | none => .resolved (.ok ())
    | some f => .resolved (.error f)

def failure? : Connecting → Option Failure
  | .resolved (.error f) => some f
  | _ => none

end Connecting

namespace Runner

/-- A call that has just been resolved reports its failure, if it has one. -/
def conclude (r : Runner) (o : Connecting) : Connecting × Runner :=
  (o, match o.failure? with
    | none => r
    | some f => r.report f)

/-- Begins to open the connections: every client is started. -/
def startConnecting (r : Runner) : Connecting × Runner :=
  let started : Runner :=
    { r with clients := r.clients.map fun c => { c with starts := c.starts + 1 } }
  started.conclude (.join (Dict.ofList (r.clients.map fun c => (c.target.name, .pending))))

/-- The start of a client comes out. Nobody hears of it who has a result already. -/
def hear (r : Runner) (o : Connecting) (name : String) (result : Except Failure Unit) :
    Connecting × Runner :=
  match o with
  | .waiting startups => r.conclude (.join (startups.modify name (·.settle result)))
  | .resolved known => (.resolved known, r)

/-- How the start of a client comes out that answers at once. -/
def startResult (c : Client) : Except Failure Unit :=
  match c.startFailure with
  | none => .ok ()
  | some f => .error f

end Runner
end LoadGen
