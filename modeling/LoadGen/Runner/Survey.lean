import LoadGen.Runner.State

namespace LoadGen.Runner

/-- The groups that have started a phase and not been shut down since. -/
def activeGroups (r : Runner) : List String :=
  (r.groups.entries.filter fun (_, g) => g.current.isSome).map (·.1)

/-- Every loop of every active group, in the order in which their answers are handed over. -/
def surveyPlaces (r : Runner) : List (String × Nat) :=
  r.activeGroups.flatMap fun key => (List.range r.loops.size).map fun e => (key, e)

/-- Asks the loops for their buckets, or for their open windows, which are closed thereby. -/
def beginSurvey (r : Runner) (recent : Option Nat) : Nat × Runner :=
  let id := r.surveys.length
  let places := r.surveyPlaces
  let replies := places.map fun (_, e) => if r.loops.isOpen e then Reply.pending else .dropped
  let r := { r with surveys := r.surveys ++ [{ recent := recent, replies := replies }] }
  (id, places.zipIdx.foldl (fun r ((key, e), slot) => r.push e (.read id slot key)) r)

def answerSurvey (r : Runner) (survey slot : Nat) (snapshots : List Snapshot) : Runner :=
  { r with surveys := r.surveys.modify survey fun s =>
      { s with replies := s.replies.set slot (.answered snapshots) } }

def read (loop survey slot : Nat) (key : String) (r : Runner) : Runner :=
  match r.surveys[survey]?, (r.groups.get? key).bind fun g => g.boards[loop]? with
  | some s, some b =>
    match s.recent with
    | none => r.answerSurvey survey slot b.snapshot
    | some now =>
      let (closed, b) := b.takeRecent now
      (r.modifyBoard key loop fun _ => b).answerSurvey survey slot closed
  | _, _ => r

def Reply.snapshots? : Reply → Option (List Snapshot)
  | .answered snapshots => some snapshots
  | _ => none

/-- The snapshots of a survey, if all loops have answered. -/
def surveyed (r : Runner) (survey : Nat) : Except Failure (List Snapshot) :=
  match (r.surveys[survey]?).bind fun s => s.replies.mapM Reply.snapshots? with
  | some snapshots => .ok snapshots.flatten
  | none => .error .taskDropped

/-- Has every loop prune the phases that wait for it, in every group. -/
def beginPruning (r : Runner) : Except Failure Unit × Runner :=
  let places := r.pruneQueue.flatMap fun phase =>
    r.groups.keys.flatMap fun key => (List.range r.loops.size).map fun e => (phase, key, e)
  let r := { r with pruneQueue := [] }
  (if places.all fun (_, _, e) => r.loops.isOpen e then .ok () else .error .taskDropped,
   places.foldl (fun r (phase, key, e) => r.push e (.prune key phase)) r)

end LoadGen.Runner
