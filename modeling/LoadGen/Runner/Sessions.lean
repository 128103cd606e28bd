import LoadGen.Runner.Telling

namespace LoadGen.Runner

def depletionMessage : String :=
  "Pool depleted, throttling execution! Enable trace logging to see subsequent pool depletion " ++
    "messages."

/-- Logs that a pool had nothing left, the first time that this happens in a runner. -/
def logDepletion (r : Runner) : Runner :=
  if r.depletionLogged then r
  else { r.log (.logged depletionMessage) with depletionLogged := true }

theorem groups_logDepletion (r : Runner) : r.logDepletion.groups = r.groups := by
  unfold logDepletion
  split <;> rfl

/-- A pool had nothing left for the phase that its group started last. -/
def depleted (r : Runner) (key : String) : Runner :=
  let r := r.logDepletion
  match (r.groups.get? key).bind (·.current) with
  | some phase =>
    r.modifyInstance phase fun i => { i with standing := i.standing.exceedLimit }
  | none => r

/-- Takes a session out of the pool of a group. The sessions that a group makes go to the loops in
turn. -/
def acquire (r : Runner) (key : String) : Option Nat × Runner :=
  match r.groups.get? key with
  | none => (none, r)
  | some g =>
    let (got, pool) := g.pool.acquire fun _ => r.sessions.length
    let r := r.modifyGroup key fun g => { g with pool := pool }
    match got with
    | none => (none, r.depleted key)
    | some id =>
      if id = r.sessions.length then
        let session : Session := { group := key, executor := g.pool.created % r.loops.size }
        (some id, { r with sessions := r.sessions ++ [session] })
      else (some id, r)

/-- What comes of asking a group for a session: there is no such group, its pool has nothing left, or
it hands out a new session or one that was there. -/
inductive Acquires (r : Runner) (key : String) : Option Nat → Runner → Prop
  | nowhere (group : r.groups.get? key = none) : Acquires r key none r
  | never {g : Group} (group : r.groups.get? key = some g)
      (got : (g.pool.acquire fun _ => r.sessions.length).1 = none) :
      Acquires r key none ((r.modifyGroup key fun h =>
        { h with pool := (g.pool.acquire fun _ => r.sessions.length).2 }).depleted key)
  | anew {g : Group} (group : r.groups.get? key = some g)
      (got : (g.pool.acquire fun _ => r.sessions.length).1 = some r.sessions.length) :
      Acquires r key (some r.sessions.length) { r.modifyGroup key (fun h =>
          { h with pool := (g.pool.acquire fun _ => r.sessions.length).2 }) with
        sessions := r.sessions ++ [{ group := key, executor := g.pool.created % r.loops.size }] }
  | again {g : Group} {id : Nat} (group : r.groups.get? key = some g)
      (got : (g.pool.acquire fun _ => r.sessions.length).1 = some id)
      (old : id ≠ r.sessions.length) :
      Acquires r key (some id) (r.modifyGroup key fun h =>
        { h with pool := (g.pool.acquire fun _ => r.sessions.length).2 })

theorem acquires {r r' : Runner} {key : String} {got : Option Nat} (h : r.acquire key = (got, r')) :
    Acquires r key got r' := by
  unfold acquire at h
  split at h
  · rename_i none
    cases h
    exact .nowhere none
  · rename_i g group
    dsimp only at h
    split at h
    · rename_i none
      cases h
      exact .never group none
    · rename_i id some
      split at h
      · rename_i new
        cases h
        subst new
        exact .anew group some
      · rename_i old
        cases h
        exact .again group some old

/-- Gives a session back to the pool of a group. -/
def giveBack (r : Runner) (key : String) (session : Nat) : Runner :=
  r.modifyGroup key fun g => { g with pool := g.pool.release session }

/-- Has a session run for a phase, from the next turn of its loop on. -/
def spawn (r : Runner) (session : Nat) (phase : String) : Runner :=
  let executor := r.executorOf session
  if r.loops.isOpen executor then
    let run : Run := { id := r.runCount, session := session, phase := phase }
    { r with runs := r.runs ++ [run], runCount := r.runCount + 1 }.push executor (.resume run.id)
  else r

/-- A session that was taken out of its pool goes to work for a phase. -/
def employ (r : Runner) (session : Nat) (phase : String) : Runner :=
  let r := r.modifyInstance phase fun i => { i with standing := i.standing.join }
  let r := r.modifySession session fun s => { s with phase := some phase }
  r.spawn session phase

/-- What a phase hears that asks for a session. It is refused one if it does not run or has no pool
to ask, and short of one if the pool has nothing left. -/
inductive Answer
  | refused
  | short
  | granted
  deriving DecidableEq, Repr

/-- Starts one session for a phase that is running, if its pool has one. -/
def startSession (r : Runner) (phase : String) : Answer × Runner :=
  match r.instances.get? phase with
  | none => (.refused, r)
  | some i =>
    match r.groupOf? i.phase with
    | none => (.refused, r)
    | some (key, _) =>
      if i.standing.status = .running then
        match r.acquire key with
        | (none, r) => (.short, r)
        | (some session, r) => (.granted, r.employ session phase)
      else (.refused, r)

/-- Starts up to so many sessions, until the first one that cannot be had. -/
def Telling.startSessions (phase : String) : Nat → Runner → Telling Runner
  | 0, r => ([], r)
  | n + 1, r =>
    match r.startSession phase with
    | (.granted, next) =>
      let (later, r') := startSessions phase n next
      (.asks phase r :: later, r')
    | (_, r') => ([.asks phase r], r')

def startSessions (phase : String) (n : Nat) (r : Runner) : Runner :=
  (Telling.startSessions phase n r).2

theorem startSessions_succ (phase : String) (n : Nat) (r : Runner) :
    startSessions phase (n + 1) r = match r.startSession phase with
      | (.granted, r) => startSessions phase n r
      | (_, r) => r := by
  simp only [startSessions, Telling.startSessions]
  split <;> rfl

end LoadGen.Runner
