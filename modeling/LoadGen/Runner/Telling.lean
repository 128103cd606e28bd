import LoadGen.Runner.State

namespace LoadGen

/-- A turning point in the life of a run. -/
inductive Juncture
  /-- A session is admitted, and has a run from now on. -/
  | admitted
  /-- An iteration is about to take its first step. -/
  | begins
  | succeeds
  | fails (f : Failure)
  /-- The phase is terminating, which ends the run. -/
  | interrupted
  /-- The run is ended from outside. -/
  | dropped
  deriving DecidableEq, Repr

/-- A turning point, and the runner that came to it. -/
structure Milestone where
  run : Run
  juncture : Juncture
  runner : Runner

/-- What comes to pass while a runner works: a phase asks it for a session, or a run comes to a
turning point. -/
inductive Occurrence
  | asks (phase : String) (r : Runner)
  | comes (m : Milestone)

/-- What comes to pass in some work, in order, and what comes of it. -/
abbrev Telling (α : Type) := List Occurrence × α

end LoadGen
