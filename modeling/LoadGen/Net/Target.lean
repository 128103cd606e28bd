import LoadGen.Failure
import LoadGen.Json.Record
import LoadGen.Text.Blank

namespace LoadGen

/-- A target, with the number of connections that each event loop opens to it. -/
structure Target where
  name : String
  host : String
  portNumber : Nat
  tls : Bool := false
  connections : Nat := 1
  isDefault : Bool := false
  deriving DecidableEq, Repr

namespace Target

def authority (t : Target) : String := t.host ++ ":" ++ toString t.portNumber

/-- The first thing that makes the target unusable. -/
def fault? (t : Target) : Option Failure :=
  if t.name = "" then some (.config ("connection target " ++ t.authority ++ " has no name"))
  else if Text.trim t.host = "" ∨ t.portNumber = 0 then
    some (.config ("invalid connection target " ++ t.authority ++ " for " ++ t.name))
  else if t.connections = 0 then
    some (.config ("connection pool to " ++ t.authority ++ " needs at least one connection"))
  else none

def fieldNames : List String := ["name", "host", "port", "tls", "connections", "is_default"]

def portNumber? (j : Json) : Option Nat :=
  match j.word? with
  | some n => if n < 65536 then some n else none
  | none => none

def ofJson? (j : Json) : Option Target := do
  let r ← Record.ofJson? fieldNames j
  return {
    name := ← r.required "name" Json.text?
    host := ← r.required "host" Json.text?
    portNumber := ← r.required "port" portNumber?
    tls := ← r.orElse "tls" Json.bool? false
    connections := ← r.orElse "connections" Json.word? 1
    isDefault := ← r.orElse "is_default" Json.bool? false
  }

/-- The one target marked as the default, among targets that are all usable. -/
def checkAll (targets : List Target) : Except Failure (Option String) :=
  targets.foldlM step none
where
  step (marked : Option String) (t : Target) : Except Failure (Option String) :=
    match t.fault? with
    | some f => .error f
    | none =>
      if t.isDefault then
        match marked with
        | some other =>
          .error (.config ("both " ++ other ++ " and " ++ t.name ++
            " are marked as the default target"))
        | none => .ok (some t.name)
      else .ok marked

end Target
end LoadGen
