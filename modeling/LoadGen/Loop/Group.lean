import LoadGen.Failure
import LoadGen.Loop.EventLoop

namespace LoadGen

/-- Event loops, known by their place. -/
structure LoopGroup (τ : Type) where
  loops : List (EventLoop τ)
  deriving Repr

namespace LoopGroup
variable {τ : Type}

def create (threads : Nat) : Except Failure (LoopGroup τ) :=
  if threads = 0 then .error (.config "event loop group needs at least one thread")
  else .ok ⟨List.replicate threads {}⟩

def size (g : LoopGroup τ) : Nat := g.loops.length

def threadName (i : Nat) : String := "volley-loop-" ++ toString i

def modify (g : LoopGroup τ) (i : Nat) (f : EventLoop τ → EventLoop τ) : LoopGroup τ :=
  ⟨g.loops.modify i f⟩

def push (g : LoopGroup τ) (i : Nat) (t : τ) : LoopGroup τ := g.modify i (·.push t)

/-- Whether a task for the loop is taken and will be run. -/
def isOpen (g : LoopGroup τ) (i : Nat) : Bool :=
  match g.loops[i]? with
  | some l => !l.closed
  | none => false

/-- Arms a timer of one loop and gives its number. -/
def arm (g : LoopGroup τ) (i : Nat) (delay : Duration) (t : τ) : Nat × LoopGroup τ :=
  match g.loops[i]? with
  | some l => let (id, l) := l.arm delay t; (id, ⟨g.loops.set i l⟩)
  | none => (0, g)

/-- Arms a timer of one loop for a time of its clock. -/
def armAt (g : LoopGroup τ) (i : Nat) (due : Duration) (t : τ) : LoopGroup τ :=
  g.modify i fun l => (l.armAt due t).2

def disarm (g : LoopGroup τ) (i id : Nat) : LoopGroup τ := g.modify i (·.disarm id)

def next? (g : LoopGroup τ) (i : Nat) : Option (τ × LoopGroup τ) :=
  match g.loops[i]? with
  | none => none
  | some l => l.next?.map fun (t, l) => (t, ⟨g.loops.set i l⟩)

/-- The first loop that has something to do. -/
def busy? (g : LoopGroup τ) : Option Nat := g.loops.findIdx? (!·.isIdle)

def isIdle (g : LoopGroup τ) : Bool := g.loops.all (·.isIdle)

def advance (g : LoopGroup τ) (i : Nat) (time : Duration) : LoopGroup τ :=
  g.modify i (·.advance time)

def advanceAll (g : LoopGroup τ) (time : Duration) : LoopGroup τ := ⟨g.loops.map (·.advance time)⟩

/-- The whole milliseconds until the first timer of all is due. -/
def millisToTimer? (g : LoopGroup τ) : Option Nat := (g.loops.filterMap (·.millisToTimer?)).min?

/-- Closes the loops whose number is chosen. -/
def closeWhere (g : LoopGroup τ) (chosen : Nat → Bool) : LoopGroup τ :=
  ⟨g.loops.mapIdx fun i l => if chosen i then l.close else l⟩

def close (g : LoopGroup τ) : LoopGroup τ := ⟨g.loops.map (·.close)⟩

def submit {α : Type} (g : LoopGroup τ) (i : Nat) (a : α) : Except Failure α :=
  if g.isOpen i then .ok a else .error .taskDropped

/-- All queued tasks, loop by loop, which are thereby worked off. -/
def drain (g : LoopGroup τ) : List (Nat × τ) × LoopGroup τ :=
  (g.loops.zipIdx.flatMap fun (l, i) => l.tasks.map fun t => (i, t),
   ⟨g.loops.map fun l => { l with queue := [] }⟩)

/-- Closes the loops, after the tasks that are still due within the grace. Gives these tasks. -/
def shutdown (g : LoopGroup τ) (grace : Duration) : List (Nat × τ) × LoopGroup τ :=
  let (ran, g) := (g.advanceAll grace).drain
  (ran, g.close)

end LoopGroup
end LoadGen
