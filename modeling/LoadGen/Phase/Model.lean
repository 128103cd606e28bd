import LoadGen.Duration
import LoadGen.Pacing.Schedule
import LoadGen.Script.Action

namespace LoadGen

/-- How a phase gets its sessions. -/
inductive Model
  /-- No session at all. -/
  | noop
  /-- Some sessions, each for one iteration. -/
  | atOnce (users : Nat)
  /-- Some sessions that repeat their iteration while the phase runs. -/
  | always (users : Nat)
  /-- New sessions at a rate, each for one iteration, and at most `most` of them at one tick. -/
  | paced (schedule : Schedule Float) (most : Nat)

namespace Model

def constant (rate : Float) (most : Nat) : Model := .paced (.constant rate) most

def maxSessions : Model → Nat
  | noop => 0
  | atOnce users => users
  | always users => users
  | paced _ most => most

/-- Whether a session goes on with the next iteration when it has finished one. -/
def repeats : Model → Bool
  | always _ => true
  | _ => false

end Model

/-- A declared phase. Phases with one key share their sessions and measurements; a phase without a
key holds none. -/
structure Phase where
  name : String
  key : Option String := none
  model : Model
  tick : Duration := .ofMillis 100
  script : Script

end LoadGen
