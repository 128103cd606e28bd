import LoadGen.Runner.Tasks
import LoadGen.Runner.Views

namespace LoadGen

/-- What can be done to a phase. -/
inductive Deed
  /-- The phase begins to run; its sessions are admitted one by one after that. -/
  | begin (phase : String)
  | finish (phase : String)
  | tryTerminate (phase : String)
  | terminate (phase : String)
  | fail (phase : String) (failure : Failure)
  /-- The phase takes a session out of its pool, if it runs and the pool has one. -/
  | enroll (phase : String)
  /-- A run ends, however it went, and its session goes back. -/
  | complete (run : Nat)

/-- What can happen to a runner. -/
inductive Happening
  /-- A deed to a phase, on a loop or outside all of them. -/
  | deed (here : Option Nat) (d : Deed)
  /-- A phase is paced from now on. -/
  | pace (phase : String)
  | exceedLimit (phase : String)
  /-- A loop does its next task. -/
  | turn (loop : Nat)
  /-- The clock of a loop moves on. -/
  | advance (loop : Nat) (time : Duration)
  /-- The clock on the wall moves. -/
  | clock (now : Nat)
  | openGate (session : Nat) (failure : Option Failure)
  | openConnections
  | createRequest (session : Nat) (recovery : Recovery)
  | command (request : Nat) (c : Runner.RequestCommand)
  | letGo (request : Nat)
  | addConnection (c : Connection)
  | beginSurvey (recent : Option Nat)
  | beginPruning
  | poolStats
  | phasePoolStats (phase : String)

/-- The loop on which something happens, if it happens on one. -/
def Happening.place : Happening → Option Nat
  | .deed here _ => here
  | .turn loop => some loop
  | _ => none

namespace Runner

/-- Does something to a phase; `here` is the loop on which that happens, if it happens on one. -/
def carryOut (here : Option Nat) (r : Runner) : Deed → Except Failure Runner
  | .begin phase => r.begin phase
  | .finish phase => do
    let i ← r.instance? phase
    return r.moveIf here phase (← i.standing.finish phase r.now)
  | .tryTerminate phase => do
    let i ← r.instance? phase
    return r.moveIf here phase (i.standing.tryTerminate r.now)
  | .terminate phase => do
    let i ← r.instance? phase
    return r.moveIf here phase (i.standing.terminate r.now)
  | .fail phase f => do
    let _ ← r.instance? phase
    return r.failPhase here phase f
  | .enroll phase => do
    let _ ← r.instance? phase
    return (r.startSession phase).2
  | .complete run =>
    match r.runs.find? (·.id == run) with
    | some run => .ok (r.unwind here run)
    | none => .error .taskDropped

/-- What a happening makes of a runner; none if it is refused or there is nothing to do. -/
def after? (r : Runner) : Happening → Option Runner
  | .deed here d => (r.carryOut here d).toOption
  | .pace phase => some (r.startPacer phase)
  | .exceedLimit phase => (r.setLimit phase).toOption
  | .turn loop => r.step? loop
  | .advance loop time => some { r with loops := r.loops.advance loop time }
  | .clock now => some { r with now := now }
  | .openGate session f => r.openGate session f
  | .openConnections => some r.openConnections.2
  | .createRequest session recovery => some (r.createRequest session recovery).2
  | .command id c => (r.command id c).toOption
  | .letGo id => some (r.letGo id)
  | .addConnection c => some (r.addConnection c).2
  | .beginSurvey recent => some (r.beginSurvey recent).2
  | .beginPruning => some r.beginPruning.2
  | .poolStats => some r.poolStats.2
  | .phasePoolStats phase => ((r.phasePoolStats phase).toOption).map (·.2)

/-- What comes to pass when something happens, in order. -/
def occurrences (r : Runner) : Happening → List Occurrence
  | .deed _ (.enroll phase) => [.asks phase r]
  | .deed _ (.complete id) =>
    ((r.runs.find? (·.id == id)).map fun run => .comes ⟨run, .dropped, r⟩).toList
  | .turn loop => ((Telling.step? r loop).map (·.1)).getD []
  | _ => []

section Turn
variable {r r' : Runner} {loop : Nat} {t : Task} {loops : LoopGroup Task}

theorem step?_of_next (h : r.loops.next? loop = some (t, loops)) :
    r.step? loop = some ({ r with loops := loops }.perform loop t) := by
  simp only [step?, Telling.step?, h, Option.map_some, perform]

theorem occurrences_of_next (h : r.loops.next? loop = some (t, loops)) :
    r.occurrences (.turn loop) = (Telling.perform loop { r with loops := loops } t).1 := by
  simp only [occurrences, Telling.step?, h, Option.map_some, Option.getD_some]

theorem step?_eq_some (h : r.step? loop = some r') : ∃ t loops,
    r.loops.next? loop = some (t, loops) ∧ { r with loops := loops }.perform loop t = r' := by
  cases hn : r.loops.next? loop with
  | none => simp [step?, Telling.step?, hn] at h
  | some next => exact ⟨next.1, next.2, rfl, Option.some.inj ((step?_of_next hn).symm.trans h)⟩

end Turn

theorem openGate_eq_some {r r' : Runner} {session : Nat} {f : Option Failure}
    (h : r.openGate session f = some r') : ∃ run ∈ r.runs, run.session = session ∧
      ∃ rest, run.point = .gate rest ∧
        (r.setPoint run (.opened f rest)).push (r.executorOf session) (.resume run.id) = r' := by
  unfold openGate at h
  split at h
  · rename_i run found
    have chosen := List.find?_some found
    simp only [Bool.and_eq_true, beq_iff_eq] at chosen
    split at h
    · rename_i rest waits
      exact ⟨run, List.mem_of_find?_eq_some found, chosen.1, rest, waits, Option.some.inj h⟩
    · cases h
  · cases h

def AtWork (r : Runner) (session : Nat) : Prop := ∃ run ∈ r.runs, run.session = session

def InIteration (r : Runner) (request : Nat) : Prop :=
  ∃ q, r.request? request = some q ∧ r.AtWork q.session

/-- A request that would be started again if its time were up. -/
def Restarts (r : Runner) (request : Nat) : Prop :=
  ∃ q, r.request? request = some q ∧ q.isCompleted = false ∧
    ∃ sequence metric, q.recovery = .restart sequence metric

/-- Requests are started and entered only while their session has a run, also those that are
started again because they timed out. -/
def Allowed (r : Runner) : Happening → Prop
  | .turn loop => ∀ request loops, r.loops.next? loop = some (.expire request, loops) →
      r.Restarts request → r.InIteration request
  | .command request (.begin ..) => r.InIteration request
  | .command request .enter => r.InIteration request
  | .command request .timeOut => r.Restarts request → r.InIteration request
  | _ => True

/-- A runner whose phases have just come into play. -/
def Initial (r : Runner) : Prop :=
  ∃ name agent now processors settings phases plans listening made,
    create name agent now processors settings phases plans = .ok made ∧
      { made with listening := listening }.init = (.ok (), r)

/-- What happened between one runner and another, in order. -/
inductive Course (r : Runner) : List Happening → Runner → Prop
  | refl : Course r [] r
  | next {es : List Happening} {e : Happening} {r₁ r₂ : Runner} :
      Course r es r₁ → r₁.Allowed e → r₁.after? e = some r₂ → Course r (es ++ [e]) r₂

theorem Course.trans {r₁ r₂ r₃ : Runner} {es es' : List Happening} (h : Course r₁ es r₂)
    (k : Course r₂ es' r₃) : Course r₁ (es ++ es') r₃ := by
  induction k with
  | refl => rwa [List.append_nil]
  | next _ ha he ih =>
    rw [← List.append_assoc]
    exact .next ih ha he

theorem Course.one {r r' : Runner} {e : Happening} (ha : r.Allowed e) (h : r.after? e = some r') :
    Course r [e] r' := .next .refl ha h

end Runner
end LoadGen
