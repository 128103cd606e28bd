import LoadGen.Runner.State

namespace LoadGen.Runner

/-- Hands a notice to the listener. The buckets of a terminated phase may go from then on. -/
def deliver (r : Runner) (phase : String) (n : Notice) : Runner :=
  let r := if r.listening then r.log (.notice phase n) else r
  if n.status = .terminated then { r with pruneQueue := r.pruneQueue ++ [phase] } else r

/-- Reports a failure that concerns the whole runner. -/
def report (r : Runner) (f : Failure) : Runner :=
  if r.listening then r.log (.reported f)
  else r.log (.logged ("No error handler registered, dropping: " ++ f.message))

/-- Ends the buckets of a phase on one loop. -/
def endBuckets (r : Runner) (executor : Nat) (f : Fence) : Runner :=
  r.modifyBoard f.group executor fun b => b.applyToPhase f.phase (·.finish f.time)

/-- Ends the buckets on one loop, at once if that is here. -/
def sealOn (here : Option Nat) (fence : Nat) (f : Fence) (r : Runner) (executor : Nat) : Runner :=
  if here = some executor then r.endBuckets executor f
  else if r.loops.isOpen executor then
    { r.push executor (.seal fence) with
      fences := r.fences.modify fence fun f => { f with pending := f.pending + 1 } }
  else { r with fences := r.fences.modify fence fun f => { f with broken := true } }

/-- Has every loop end the measurement of a terminated phase, and the end announced after that. -/
def raiseFence (here : Option Nat) (f : Fence) (r : Runner) : Runner :=
  let fence := r.fences.length
  let r := { r with fences := r.fences ++ [f] }
  let r := (List.range r.loops.size).foldl (sealOn here fence f) r
  r.push 0 (.announce fence)

def tell (here : Option Nat) (phase : String) (r : Runner) : Runner :=
  match r.instances.get? phase with
  | none => r
  | some i =>
    let n := i.standing.notice
    match r.groupOf? i.phase with
    | none => r.deliver phase n
    | some (key, _) =>
      if n.status = .terminated then
        raiseFence here { phase := phase, group := key, notice := n, time := r.now } r
      else r.deliver phase n

/-- A loop ends the measurement; the last one lets the announcement go on. -/
def sealed (loop fence : Nat) (r : Runner) : Runner :=
  match r.fences[fence]? with
  | none => r
  | some f =>
    let left := f.pending - 1
    let r := r.endBuckets loop f
    let r := { r with fences := r.fences.modify fence fun f => { f with pending := left } }
    if left = 0 ∧ f.parked then r.push 0 (.announce fence) else r

/-- What is announced in the end. That a loop was gone is a failure, if there is no other. -/
def Fence.outcome (f : Fence) : Notice :=
  if f.broken then { f.notice with failure := f.notice.failure.or (some .taskDropped) }
  else f.notice

/-- Announces a termination, unless a loop has still to end the measurement. -/
def announce (fence : Nat) (r : Runner) : Runner :=
  match r.fences[fence]? with
  | none => r
  | some f =>
    if f.pending = 0 then r.deliver f.phase (Fence.outcome f)
    else { r with fences := r.fences.modify fence fun f => { f with parked := true } }

def Point.isWaiting : Point → Bool
  | .gate _ => true
  | .pause .. => true
  | _ => false

/-- Gives every waiting run of a phase a turn. -/
def wake (phase : String) (r : Runner) : Runner :=
  (r.runs.filter fun run => run.phase = phase ∧ Point.isWaiting run.point).foldl
    (fun r run => r.push (r.executorOf run.session) (.resume run.id)) r

/-- A phase makes a move, which interrupts its runs if it is terminating. -/
def move (here : Option Nat) (phase : String) (s : Standing) (r : Runner) : Runner :=
  let r := r.modifyInstance phase fun i => { i with standing := s }
  let r := if s.status.isTerminating then r.wake phase else r
  r.tell here phase

def moveIf (here : Option Nat) (phase : String) (r : Runner) : Option Standing → Runner
  | none => r
  | some s => r.move here phase s

/-- Takes note of a failure of a phase, and terminates it. -/
def failPhase (here : Option Nat) (phase : String) (f : Failure) (r : Runner) : Runner :=
  let r := r.modifyInstance phase fun i => { i with standing := i.standing.blame f }
  match r.instances.get? phase with
  | none => r
  | some i => r.moveIf here phase (i.standing.terminate r.now)

end LoadGen.Runner
