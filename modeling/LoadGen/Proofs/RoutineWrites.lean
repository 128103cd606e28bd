import LoadGen.Proofs.Termination

namespace LoadGen.Runner

/-- What a runner writes by the way: what it logs and counts, the tasks that it queues and the
timers that are no request's, the variables and queues of its sessions, and the phases if they move.
The requests and the runs are as they were, the pools too, and so is what is in flight. -/
inductive Routine (moves : Prop) : Runner → Runner → Prop
  | notes {r r' : Runner} : r'.loops = r.loops → r'.instances = r.instances →
      r'.groups = r.groups → r'.sessions = r.sessions → r'.requests = r.requests →
        r'.runs = r.runs → r'.runCount = r.runCount → Routine moves r r'
  | push (r : Runner) (loop : Nat) {t : Task} :
      (∀ id, t ≠ .expire id) → Routine moves r (r.push loop t)
  | arm (r : Runner) (loop : Nat) (delay : Duration) {t : Task} :
      (∀ id, t ≠ .expire id) → Routine moves r { r with loops := (r.loops.arm loop delay t).2 }
  | modifyGroup (r : Runner) (key : String) {f : Group → Group} :
      (∀ g, (f g).pool = g.pool ∧ (f g).current = g.current) →
        Routine moves r (r.modifyGroup key f)
  | modifySession (r : Runner) (id : Nat) {f : Session → Session} :
      (∀ s, (f s).executor = s.executor ∧ (f s).inFlight = s.inFlight) →
        Routine moves r (r.modifySession id f)
  | modifyInstance (r : Runner) (phase : String) (f : Instance → Instance) :
      moves → Routine moves r (r.modifyInstance phase f)
  | trans {r r₁ r' : Runner} : Routine moves r r₁ → Routine moves r₁ r' → Routine moves r r'

namespace Routine
variable {moves : Prop} {r r' : Runner}

theorem refl (r : Runner) : Routine moves r r := notes rfl rfl rfl rfl rfl rfl rfl

theorem log (r : Runner) (e : Entry) : Routine moves r (r.log e) :=
  notes rfl rfl rfl rfl rfl rfl rfl

theorem modifyBoard (r : Runner) (key : String) (loop : Nat) (f : Board → Board) :
    Routine moves r (r.modifyBoard key loop f) := modifyGroup r key fun _ => ⟨rfl, rfl⟩

theorem modifyQueues (r : Runner) (key : String) (loop : Nat) (f : Queues → Queues) :
    Routine moves r (r.modifyQueues key loop f) := modifyGroup r key fun _ => ⟨rfl, rfl⟩

theorem foldl {α : Type} {f : Runner → α → Runner} (h : ∀ r a, Routine moves r (f r a)) (r : Runner)
    (l : List α) : Routine moves r (l.foldl f r) := by
  induction l generalizing r with
  | nil => exact refl r
  | cons a l ih => exact (h r a).trans (ih (f r a))

theorem mono {more : Prop} (h : Routine moves r r') (hm : moves → more) : Routine more r r' := by
  induction h with
  | notes hl hi hg hs hq hr hc => exact .notes hl hi hg hs hq hr hc
  | push r loop ht => exact .push r loop ht
  | arm r loop delay ht => exact .arm r loop delay ht
  | modifyGroup r key hf => exact .modifyGroup r key hf
  | modifySession r id hf => exact .modifySession r id hf
  | modifyInstance r phase f h => exact .modifyInstance r phase f (hm h)
  | trans _ _ ih later => exact ih.trans later

theorem requests (h : Routine moves r r') : r'.requests = r.requests := by
  induction h with
  | notes _ _ _ _ hq => exact hq
  | trans _ _ ih later => exact later.trans ih
  | _ => rfl

theorem runs (h : Routine moves r r') : r'.runs = r.runs := by
  induction h with
  | notes _ _ _ _ _ hr => exact hr
  | trans _ _ ih later => exact later.trans ih
  | _ => rfl

theorem runCount (h : Routine moves r r') : r'.runCount = r.runCount := by
  induction h with
  | notes _ _ _ _ _ _ hc => exact hc
  | trans _ _ ih later => exact later.trans ih
  | _ => rfl

theorem instances (h : Routine False r r') : r'.instances = r.instances := by
  induction h with
  | notes _ hi => exact hi
  | modifyInstance _ _ _ no => cases no
  | trans _ _ ih later => exact later.trans ih
  | _ => rfl

end Routine

section Notices

theorem routine_deliver (r : Runner) (phase : String) (n : Notice) :
    Routine False r (r.deliver phase n) := by
  rw [deliver_eq]
  exact .notes rfl rfl rfl rfl rfl rfl rfl

theorem routine_report (r : Runner) (f : Failure) : Routine False r (r.report f) := by
  unfold report
  split <;> exact .log ..

theorem routine_sealOn (here : Option Nat) (fence : Nat) (f : Fence) (r : Runner) (loop : Nat) :
    Routine False r (sealOn here fence f r loop) := by
  unfold sealOn
  split
  · exact .modifyBoard ..
  · split
    · have asked : Routine False r (r.push loop (.seal fence)) := .push r loop nofun
      exact asked.trans (.notes rfl rfl rfl rfl rfl rfl rfl)
    · exact .notes rfl rfl rfl rfl rfl rfl rfl

theorem routine_raiseFence (here : Option Nat) (f : Fence) (r : Runner) :
    Routine False r (raiseFence here f r) := by
  have noted : Routine False r { r with fences := r.fences ++ [f] } :=
    .notes rfl rfl rfl rfl rfl rfl rfl
  exact (noted.trans (.foldl (routine_sealOn here r.fences.length f) _ _)).trans (.push _ 0 nofun)

theorem routine_tell (here : Option Nat) (phase : String) (r : Runner) :
    Routine False r (r.tell here phase) := by
  unfold tell
  split
  · exact .refl r
  · dsimp only
    split
    · exact routine_deliver ..
    · split
      · exact routine_raiseFence ..
      · exact routine_deliver ..

theorem routine_sealed (loop fence : Nat) (r : Runner) :
    Routine False r (r.sealed loop fence) := by
  unfold Runner.sealed
  split
  · exact .refl r
  · rename_i f _
    have ended : Routine False r (r.endBuckets loop f) := .modifyBoard ..
    have counted : Routine False r { r.endBuckets loop f with
        fences := (r.endBuckets loop f).fences.modify fence fun g =>
          { g with pending := f.pending - 1 } } :=
      ended.trans (.notes rfl rfl rfl rfl rfl rfl rfl)
    dsimp only
    split
    · exact counted.trans (.push _ 0 nofun)
    · exact counted

theorem routine_announce (fence : Nat) (r : Runner) : Routine False r (r.announce fence) := by
  unfold announce
  split
  · exact .refl r
  · split
    · exact routine_deliver ..
    · exact .notes rfl rfl rfl rfl rfl rfl rfl

theorem routine_wake (phase : String) (r : Runner) : Routine False r (r.wake phase) :=
  .foldl (fun _ _ => .push _ _ (by nofun)) r _

theorem routine_move (here : Option Nat) (phase : String) (s : Standing) (r : Runner) :
    Routine True r (r.move here phase s) := by
  have stands : Routine True r (r.modifyInstance phase fun i => { i with standing := s }) :=
    .modifyInstance r phase _ trivial
  have told : ∀ q : Runner, Routine True q (q.tell here phase) :=
    fun q => (routine_tell here phase q).mono False.elim
  unfold move
  dsimp only
  split
  · exact (stands.trans ((routine_wake ..).mono False.elim)).trans (told _)
  · exact stands.trans (told _)

theorem routine_moveIf (here : Option Nat) (phase : String) (r : Runner) (s? : Option Standing) :
    Routine True r (r.moveIf here phase s?) := by
  cases s? with
  | none => exact .refl r
  | some s => exact routine_move here phase s r

theorem routine_failPhase (here : Option Nat) (phase : String) (f : Failure) (r : Runner) :
    Routine True r (r.failPhase here phase f) := by
  have blamed : Routine True r (r.modifyInstance phase fun i =>
      { i with standing := i.standing.blame f }) := .modifyInstance r phase _ trivial
  unfold failPhase
  dsimp only
  split
  · exact blamed
  · exact blamed.trans (routine_moveIf ..)

end Notices

section Phases

theorem Leaves.routine {here : Option Nat} {run : Run} {i : Instance} {r r' : Runner}
    (h : Leaves here run i r r') : Routine True r r' := by
  cases h with
  | stands => exact .modifyInstance _ _ _ trivial
  | moves => exact routine_move ..

theorem routine_startPacer (r : Runner) (phase : String) :
    Routine False r (r.startPacer phase) := by
  unfold startPacer
  split
  · exact .push r 0 nofun
  · exact .refl r

theorem routine_logDepletion (r : Runner) : Routine False r r.logDepletion := by
  unfold logDepletion
  split
  · exact .refl r
  · exact .notes rfl rfl rfl rfl rfl rfl rfl

theorem routine_depleted (r : Runner) (key : String) : Routine True r (r.depleted key) := by
  have logged : Routine True r r.logDepletion := (routine_logDepletion r).mono False.elim
  unfold depleted
  dsimp only
  split
  · exact logged.trans (.modifyInstance _ _ _ trivial)
  · exact logged

end Phases

section Measurements

theorem routine_bucketFor {r r' : Runner} {session : Nat} {metric : String} {b : BucketRef}
    (h : r.bucketFor session metric = .ok (b, r')) : Routine False r r' := by
  obtain ⟨s, phase, _, _, _, rfl⟩ := bucketFor_ok h
  exact .modifyBoard r ..

theorem routine_measureIn (r : Runner) (bucket : Option BucketRef) (stamp : Nat) (e : Event) :
    Routine False r (r.measureIn bucket stamp e) := by
  cases bucket with
  | none => exact .refl r
  | some b => exact .modifyBoard r ..

theorem routine_measureTimes (b : BucketRef) (stamp : Nat) (e : Event) (n : Nat) (r : Runner) :
    Routine False r (measureTimes b stamp e n r) := by
  induction n generalizing r with
  | zero => exact .refl r
  | succ n ih => exact (Routine.modifyBoard r ..).trans (ih _)

theorem routine_respond (r : Runner) (id : Nat) : Routine False r (r.respond id) := by
  unfold respond
  split
  · exact .refl r
  · split
    · exact .modifyBoard r ..
    · exact .refl r

theorem routine_read (loop survey slot : Nat) (key : String) (r : Runner) :
    Routine False r (r.read loop survey slot key) := by
  have answered : ∀ (q : Runner) (snapshots : List Snapshot),
      Routine False q (q.answerSurvey survey slot snapshots) :=
    fun _ _ => .notes rfl rfl rfl rfl rfl rfl rfl
  unfold read
  split
  · split
    · exact answered ..
    · exact (Routine.modifyBoard r ..).trans (answered ..)
  · exact .refl r

theorem routine_beginSurvey (r : Runner) (recent : Option Nat) :
    Routine False r (r.beginSurvey recent).2 := by
  have asked : ∀ surveys, Routine False r { r with surveys := surveys } :=
    fun _ => .notes rfl rfl rfl rfl rfl rfl rfl
  exact (asked _).trans (.foldl (fun _ _ => .push _ _ (by nofun)) _ _)

theorem routine_beginPruning (r : Runner) : Routine False r r.beginPruning.2 := by
  have emptied : Routine False r { r with pruneQueue := [] } := .notes rfl rfl rfl rfl rfl rfl rfl
  exact emptied.trans (.foldl (fun _ _ => .push _ _ (by nofun)) _ _)

end Measurements

section Connections

theorem routine_openConnections (r : Runner) : Routine False r r.openConnections.2 := by
  have started : ∀ clients, Routine False r { r with clients := clients } :=
    fun _ => .notes rfl rfl rfl rfl rfl rfl rfl
  unfold openConnections
  dsimp only
  split
  · exact started _
  · exact (started _).trans (routine_report ..)

theorem routine_notifyConnection (r : Runner) (c : Option Nat) :
    Routine False r (r.notifyConnection c) := by
  cases c <;> exact .notes rfl rfl rfl rfl rfl rfl rfl

end Connections

section Sessions

theorem routine_enterRequest (r : Runner) (id : Nat) : Routine False r (r.enterRequest id) := by
  unfold enterRequest
  split
  · exact .refl r
  · exact .modifySession r _ fun _ => ⟨rfl, rfl⟩

theorem routine_exitRequest (r : Runner) (id : Nat) : Routine False r (r.exitRequest id) := by
  unfold exitRequest
  split
  · exact .refl r
  · exact .modifySession r _ fun _ => ⟨rfl, rfl⟩

theorem routine_modifyQueuesOf (r : Runner) (session : Nat) (f : Queues → Queues) :
    Routine False r (r.modifyQueuesOf session f) := by
  unfold modifyQueuesOf
  split
  · exact .modifyQueues ..
  · exact .refl r

theorem routine_takeStep (r : Runner) (run : Run) (step : Step) :
    Routine False r (r.takeStep run step).2 := by
  cases step with
  | log => exact .log ..
  | set => exact .modifySession r _ fun _ => ⟨rfl, rfl⟩
  | pause time => exact .arm r _ _ nofun

theorem routine_act (r : Runner) (run : Run) (a : Action) : Routine False r (r.act run a).2 := by
  cases a with
  | run step => exact routine_takeStep r run step
  | build tag params =>
    simp only [act]
    split
    · exact routine_takeStep ..
    · exact .refl r
  | get | bound => exact .log ..
  | unset => exact (Routine.log r _).trans (.modifySession _ _ fun _ => ⟨rfl, rfl⟩)
  | push key value => exact routine_modifyQueuesOf ..
  | pushId key => exact routine_modifyQueuesOf ..
  | pull key => exact (Routine.log r _).trans (routine_modifyQueuesOf ..)
  | measure metric stamp event times =>
    simp only [act]
    split
    · rename_i b r' h
      exact (routine_bucketFor h).trans (routine_measureTimes ..)
    · exact .refl r
  | failIn session f =>
    simp only [act]
    split <;> exact .refl r
  | fail | gate => exact .refl r

/-- What an iteration does is routine, as long as it has not ended. -/
theorem Acts.routine {run : Run} {actions : List Action} {e : TurnEnd} {r r' : Runner}
    (h : Acts run actions r e r') : Routine False r r' :=
  h.induction .refl .trans fun r a => routine_act r run a

end Sessions

theorem routine_perform (loop : Nat) (r : Runner) {t : Task} (ht : t.isOrder = true) :
    Routine False r (r.perform loop t) := by
  cases t with
  | stamp => exact .modifyBoard r ..
  | «seal» fence => exact routine_sealed loop fence r
  | announce fence => exact routine_announce fence r
  | read survey slot key => exact routine_read loop survey slot key r
  | prune => exact .modifyBoard r ..
  | resume => cases ht
  | pace => cases ht
  | expire => cases ht

end LoadGen.Runner
