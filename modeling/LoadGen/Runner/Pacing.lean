import LoadGen.Runner.Sessions

namespace LoadGen.Runner

/-- The clock of the first loop, on which ticks are counted. -/
def paceClock (r : Runner) : Duration := ((r.loops.loops[0]?).map (·.clock)).getD .zero

/-- How many ticks have to be made, of which there is one at least. -/
def ticksDue (clock nextTick tick : Duration) : Nat :=
  if tick.nanos = 0 then 1 else max 1 ((clock.nanos - nextTick.nanos + tick.nanos - 1) / tick.nanos)

/-- The most ticks that are made in one turn, so that the sessions get their turns in between. -/
def ticksPerTurn : Nat := 128

/-- Makes ticks at one moment. Gives what is carried over from the last one. -/
def Telling.makeTicks (phase : Phase) (schedule : Schedule Float) (most : Nat)
    (elapsed : Duration) : Nat → Float → Runner → Telling (Float × Runner)
  | 0, carry, r => ([], carry, r)
  | n + 1, carry, r =>
    let (tokens, carry) := schedule.tokensAt phase.tick elapsed carry
    let (now, r) := startSessions phase.name (min tokens most) r
    let (later, made) := makeTicks phase schedule most elapsed n carry r
    (now ++ later, made)

/-- Makes the ticks that are due. Those that are too many for one turn are left to the next one;
else a timer is armed for the tick after them. -/
def Telling.makeDue (phase : Phase) (schedule : Schedule Float) (most : Nat) (p : Pacer)
    (r : Runner) : Telling Runner :=
  let clock := r.paceClock
  let due := ticksDue clock p.nextTick phase.tick
  let n := min due ticksPerTurn
  let (told, carry, r) :=
    makeTicks phase schedule most ⟨clock.nanos - p.startedAt.nanos⟩ n p.carry r
  let next : Duration := ⟨p.nextTick.nanos + n * phase.tick.nanos⟩
  let r := { r with
    pacers := r.pacers.insert phase.name { p with nextTick := next, carry := carry } }
  (told, if n < due then r.push 0 (.pace phase.name)
    else { r with loops := r.loops.armAt 0 next (.pace phase.name) })

/-- The pacer of a phase. It begins when the phase has its first turn. -/
def pacerOf (r : Runner) (phase : String) : Pacer :=
  (r.pacers.get? phase).getD { startedAt := r.paceClock, nextTick := r.paceClock }

/-- The turn of a paced phase. One that does not run any more is not paced any more. -/
def Telling.pace (phase : String) (r : Runner) : Telling Runner :=
  match r.instances.get? phase with
  | some i =>
    match i.phase.model with
    | .paced schedule most =>
      if i.standing.status = .running then makeDue i.phase schedule most (r.pacerOf phase) r
      else ([], { r with pacers := r.pacers.erase phase })
    | _ => ([], r)
  | none => ([], r)

def pace (phase : String) (r : Runner) : Runner := (Telling.pace phase r).2

/-- Has a phase paced from its next turn on. -/
def startPacer (r : Runner) (phase : String) : Runner :=
  if r.loops.isOpen 0 then r.push 0 (.pace phase) else r

end LoadGen.Runner
