import LoadGen.Phase.Model
import LoadGen.Phase.Standing

namespace LoadGen

/-- What can be asked of a phase. -/
inductive Command
  | start
  | finish
  | tryTerminate
  | terminate
  | fail (failure : Failure)
  | setLimit
  /-- What a new watcher sees. -/
  | watch
  | debug
  /-- Lets time pass. -/
  | wait
  deriving DecidableEq, Repr

/-- The answer to a command. -/
inductive Answer
  | done
  | failed (failure : Failure)
  | holds (b : Bool)
  | status (s : Status)
  | text (s : String)
  | nothing
  deriving DecidableEq, Repr

/-- A command for the first notice with some status. -/
structure Reaction where
  trigger : Status
  command : Command
  deriving DecidableEq, Repr

/-- What the listener of a phase records. -/
inductive Heard
  | notice (n : Notice)
  | reaction (command : Command) (answer : Answer)
  deriving DecidableEq, Repr

/-- A phase, what its listener is going to do, and what the listener has recorded. -/
structure Rehearsal where
  name : String
  model : Model
  standing : Standing := {}
  reactions : List Reaction := []
  heard : List Heard := []
  now : Nat := 0

namespace Rehearsal

/-- Takes out the first reaction to a status. -/
def takeReaction (status : Status) : List Reaction → Option (Command × List Reaction)
  | [] => none
  | r :: rest =>
    if r.trigger = status then some (r.command, rest)
    else (takeReaction status rest).map fun (c, rest) => (c, r :: rest)

/-- Commands given by a listener, and how they are answered. -/
abbrev Response := Rehearsal → Command → Answer × Rehearsal

/-- The listener hears where the phase stands, and reacts. -/
def announce (respond : Response) (r : Rehearsal) : Rehearsal :=
  let r := { r with heard := r.heard ++ [.notice r.standing.notice] }
  match takeReaction r.standing.status r.reactions with
  | none => r
  | some (command, rest) =>
    let (answer, r) := respond { r with reactions := rest } command
    { r with heard := r.heard ++ [.reaction command answer] }

def move (respond : Response) (r : Rehearsal) : Option Standing → Rehearsal
  | none => r
  | some s => announce respond { r with standing := s }

def finish (respond : Response) (r : Rehearsal) : Answer × Rehearsal :=
  match r.standing.finish r.name r.now with
  | .error f => (.failed f, r)
  | .ok s => (.done, move respond r s)

def terminate (respond : Response) (r : Rehearsal) : Rehearsal :=
  move respond r (r.standing.terminate r.now)

/-- Obeys a command, where `respond` obeys those of the listener. -/
def obey (respond : Response) (r : Rehearsal) : Command → Answer × Rehearsal
  | .start =>
    match r.standing.start r.name r.now with
    | .error f => (.failed f, r)
    | .ok s =>
      let r := announce respond { r with standing := s }
      match r.model with
      | .atOnce _ => finish respond r
      | _ => (.done, r)
  | .finish => finish respond r
  | .tryTerminate =>
    let r := move respond r (r.standing.tryTerminate r.now)
    (.holds r.standing.status.isTerminated, r)
  | .terminate => (.done, terminate respond r)
  | .fail f => (.done, terminate respond { r with standing := r.standing.blame f })
  | .setLimit => (.done, { r with standing := r.standing.exceedLimit })
  | .watch => (.status r.standing.watched, r)
  | .debug => (.text (r.standing.debugForm r.name), r)
  | .wait => (.nothing, r)

/-- Obeys commands that are nested as deep as there are reactions. -/
def respondWithin : Nat → Response
  | 0 => fun r _ => (.nothing, r)
  | depth + 1 => obey (respondWithin depth)

def run (r : Rehearsal) (c : Command) : Answer × Rehearsal :=
  obey (respondWithin r.reactions.length) r c

end Rehearsal
end LoadGen
