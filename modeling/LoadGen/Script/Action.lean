import LoadGen.Measure.Window
import LoadGen.Script.Catalog
import LoadGen.Text.Quoted

namespace LoadGen

/-- One action of a script. Some leave a note of what they found. -/
inductive Action
  /-- Runs a built-in step. -/
  | run (step : Step)
  /-- Makes a built-in step from its tag, then runs it. -/
  | build (tag : String) (params : Dict String)
  /-- Notes the value of a variable. -/
  | get (var : String)
  /-- Removes a variable and notes the value it had. -/
  | unset (var : String)
  | push (key : String) (value : Value)
  /-- Pushes the number of the session. -/
  | pushId (key : String)
  /-- Takes a value from a shared queue and notes it. -/
  | pull (key : String)
  /-- Measures an event, some times over, for a request that started at `stamp`, or now. -/
  | measure (metric : String) (stamp : Option Nat) (event : Event) (times : Nat)
  /-- Notes the phase that the session runs for. -/
  | bound
  | fail (failure : Failure)
  /-- Fails in one session only. -/
  | failIn (session : Nat) (failure : Failure)
  /-- Waits until the gate is opened from outside. -/
  | gate

/-- The actions of one iteration, which ends with the first that fails. -/
structure Script where
  name : String
  actions : List Action

namespace Script

def ofSteps (name : String) (steps : List Step) : Script := ⟨name, steps.map .run⟩

def debugForm (s : Script) : String := Text.recordForm "Scenario" [("name", Text.quote s.name)]

end Script
end LoadGen
