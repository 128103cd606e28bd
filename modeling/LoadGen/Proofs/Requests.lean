import LoadGen.Proofs.CourseLogs
import LoadGen.Proofs.PoolFrames

namespace LoadGen

/-- A request some time later, if it was not started again in between. -/
structure Request.Continues (reopened : Prop) (q q' : Request) : Prop where
  session : q'.session = q.session
  recovery : q'.recovery = q.recovery
  stamp : q'.stamp = q.stamp
  started : q'.started = q.started
  bucket : q'.bucket = q.bucket ∨ q'.bucket = none
  completed : q.isCompleted → q'.isCompleted ∨ reopened

namespace Request
variable {reopened : Prop} {q q' q'' : Request}

theorem Continues.refl (q : Request) : Continues reopened q q :=
  ⟨rfl, rfl, rfl, rfl, .inl rfl, .inl⟩

theorem Continues.trans (h : Continues reopened q q') (k : Continues reopened q' q'') :
    Continues reopened q q'' where
  session := k.session.trans h.session
  recovery := k.recovery.trans h.recovery
  stamp := k.stamp.trans h.stamp
  started := k.started.trans h.started
  bucket := by
    rcases k.bucket with same | gone
    · rw [same]
      exact h.bucket
    · exact .inr gone
  completed := fun hc => (h.completed hc).elim k.completed .inr

theorem Continues.mono {reopened' : Prop} (h : Continues reopened q q')
    (ho : reopened → reopened') : Continues reopened' q q' :=
  ⟨h.session, h.recovery, h.stamp, h.started, h.bucket, fun hc => (h.completed hc).imp_right ho⟩

theorem isCompleted_complete (q : Request) : q.complete.isCompleted = true := by
  unfold complete isCompleted
  dsimp only
  split <;> rfl

theorem continues_complete (q : Request) : Continues reopened q q.complete :=
  ⟨rfl, rfl, rfl, rfl, .inl rfl, fun _ => .inl q.isCompleted_complete⟩

theorem continues_release (q : Request) : Continues reopened q q.release :=
  ⟨rfl, rfl, rfl, rfl, .inr rfl, fun _ => .inl rfl⟩

end Request

namespace Runner

/-- A request that is there some time later, not started again in between. -/
structure Continues (reopened : Prop) (id : Nat) (r r' : Runner) : Prop where
  kept : ∀ q, r.request? id = some q → ∃ q', r'.request? id = some q' ∧ q.Continues reopened q'

variable {reopened : Prop} {id : Nat} {r r₁ r' : Runner}

namespace Continues

theorem same (h : r'.requests = r.requests) : Continues reopened id r r' := by
  refine ⟨fun q hq => ⟨q, ?_, .refl q⟩⟩
  rw [request?, h]
  exact hq

theorem refl (r : Runner) : Continues reopened id r r := same rfl

theorem trans (h : Continues reopened id r r₁) (k : Continues reopened id r₁ r') :
    Continues reopened id r r' := by
  refine ⟨fun q hq => ?_⟩
  obtain ⟨q₁, h₁, hc⟩ := h.kept q hq
  obtain ⟨q', h', kc⟩ := k.kept q₁ h₁
  exact ⟨q', h', hc.trans kc⟩

theorem mono {reopened' : Prop} (h : Continues reopened id r r') (ho : reopened → reopened') :
    Continues reopened' id r r' := by
  refine ⟨fun q hq => ?_⟩
  obtain ⟨q', hq', hc⟩ := h.kept q hq
  exact ⟨q', hq', hc.mono ho⟩

theorem foldl {α : Type} {f : Runner → α → Runner} (h : ∀ r a, Continues reopened id r (f r a))
    (r : Runner) (l : List α) : Continues reopened id r (l.foldl f r) := by
  induction l generalizing r with
  | nil => exact refl r
  | cons a l ih => exact (h r a).trans (ih (f r a))

theorem modifyRequest (r : Runner) {other : Nat} {f : Request → Request}
    (h : ∀ q, other = id → r.request? id = some q → q.Continues reopened (f q)) :
    Continues reopened id r (r.modifyRequest other f) := by
  refine ⟨fun q hq => ?_⟩
  have there : r.requests[id]? = some q := hq
  simp only [request?, Runner.modifyRequest, List.getElem?_modify]
  split
  · rename_i he
    exact ⟨f q, by rw [there]; rfl, h q he hq⟩
  · exact ⟨q, by simpa using there, .refl q⟩

end Continues

theorem Routine.continues {moves : Prop} (h : Routine moves r r') : Continues reopened id r r' :=
  .same h.requests

theorem Spares.continues (h : Spares r r') : Continues reopened id r r' := .same h.requests

section Operations

theorem continues_disarmRequest (r : Runner) (q : Request) :
    Continues reopened id r (r.disarmRequest q) := by
  unfold disarmRequest
  split <;> exact .same rfl

theorem continues_completeRequest (r : Runner) (other : Nat) :
    Continues reopened id r (r.completeRequest other) := by
  unfold completeRequest
  split
  · exact .refl r
  · rename_i q _
    exact ((continues_disarmRequest r q).trans
      (.modifyRequest _ fun q _ _ => q.continues_complete)).trans (.same rfl)

theorem continues_releaseRequest (r : Runner) (other : Nat) :
    Continues reopened id r (r.releaseRequest other) :=
  (continues_completeRequest r other).trans (.modifyRequest _ fun q _ _ => q.continues_release)

theorem continues_setTimeout (r : Runner) (other : Nat) (delay : Duration) :
    Continues reopened id r (r.setTimeout other delay) := by
  unfold setTimeout
  split
  · exact .refl r
  · split
    · exact .refl r
    · have armed : ∀ loops, Continues reopened id r { r with loops := loops } := fun _ => .same rfl
      exact ((armed _).trans (continues_disarmRequest ..)).trans
        (.modifyRequest _ fun _ _ _ => ⟨rfl, rfl, rfl, rfl, .inl rfl, .inl⟩)

theorem continues_stopSession (r : Runner) (session : Nat) :
    Continues reopened id r (r.stopSession session) := by
  have dropped : ∀ f, Continues reopened id r (r.modifySession session f) := fun _ => .same rfl
  exact ((dropped _).trans (.foldl continues_completeRequest _ _)).trans (.same rfl)

theorem continues_beginRequest {other : Nat} {sequence : Sequence} {metric : String}
    (hn : other ≠ id) (h : r.beginRequest other sequence metric = .ok r') :
    Continues reopened id r r' := by
  obtain ⟨⟨b, r₁⟩, hb, hr⟩ := bind_eq_ok.mp h
  cases hr
  have made : Continues reopened id r r₁ := (routine_bucketFor hb).continues
  exact (made.trans (.modifyRequest r₁ fun _ he _ => absurd he hn)).trans (.same rfl)

theorem continues_recover (r : Runner) (other : Nat) (recovery : Recovery)
    (hn : ∀ sequence metric, recovery = .restart sequence metric → other ≠ id) :
    Continues reopened id r (r.recover other recovery) := by
  cases recovery with
  | complete => exact continues_completeRequest r other
  | leave => exact .refl r
  | release => exact continues_releaseRequest r other
  | markInvalid => exact .modifyRequest _ fun _ _ _ => ⟨rfl, rfl, rfl, rfl, .inl rfl, .inl⟩
  | restart sequence metric =>
    simp only [recover]
    split
    · rename_i r' h
      exact continues_beginRequest (hn sequence metric rfl) h
    · exact .refl r

/-- A request times out. If it is the one in question, it is not started again. -/
theorem continues_timeOut (r : Runner) (other : Nat) (hn : other = id → ¬ r.Restarts id) :
    Continues reopened id r (r.timeOut other) := by
  unfold timeOut
  split
  · exact .refl r
  · rename_i q hq
    have forgotten : Continues reopened id r
        (r.modifyRequest other fun q => { q with timer := none }) :=
      .modifyRequest _ fun _ _ _ => ⟨rfl, rfl, rfl, rfl, .inl rfl, .inl⟩
    dsimp only
    split
    · exact forgotten
    · rename_i hc
      have marked : ∀ r : Runner, Continues reopened id r (r.modifyRequest other fun q =>
          { q with verdict := .timedOut, recoveries := q.recoveries + 1 }) := fun r =>
        .modifyRequest _ fun _ _ _ => ⟨rfl, rfl, rfl, rfl, .inl rfl, .inl⟩
      have noted : ∀ r : Runner, Continues reopened id r (r.notifyConnection q.connection) := fun r =>
        .same (by cases q.connection <;> rfl)
      refine (((forgotten.trans (marked _)).trans (routine_measureIn ..).continues).trans
        (continues_recover _ other q.recovery fun sequence metric hr he => ?_)).trans (noted _)
      subst he
      exact hn rfl ⟨q, hq, by simpa using hc, sequence, metric, hr⟩

theorem continues_expire (r : Runner) (other : Nat) (hn : other = id → ¬ r.Restarts id) :
    Continues reopened id r (r.expire other) := by
  unfold expire
  split
  · exact .refl r
  · split
    · exact continues_timeOut r other hn
    · exact .refl r

/-- Something is done with a request. If it is the one in question, it is not started. -/
theorem continues_applyCommand {other : Nat} {c : RequestCommand}
    (h : r.applyCommand other c = .ok r')
    (hb : other = id → ∀ metric sequence, c ≠ .begin metric sequence)
    (hn : other = id → c = .timeOut → ¬ r.Restarts id)
    (ho : other = id → c = .completing → reopened) : Continues reopened id r r' := by
  cases c with
  | begin metric sequence => exact continues_beginRequest (fun he => hb he metric sequence rfl) h
  | setTimeout delay => cases h; exact continues_setTimeout ..
  | timeOut => cases h; exact continues_timeOut r other fun he => hn he rfl
  | attach | sent | invalidate =>
    cases h
    exact .modifyRequest _ fun _ _ _ => ⟨rfl, rfl, rfl, rfl, .inl rfl, .inl⟩
  | respond => cases h; exact (routine_respond r other).continues
  | complete => cases h; exact continues_completeRequest ..
  | completing =>
    cases h
    exact .modifyRequest _ fun _ he _ => ⟨rfl, rfl, rfl, rfl, .inl rfl, fun _ => .inr (ho he rfl)⟩
  | release => cases h; exact continues_releaseRequest ..
  | enter => cases h; exact (routine_enterRequest r other).continues
  | exit => cases h; exact (routine_exitRequest r other).continues
  | look => cases h; exact .refl r

theorem continues_command {other : Nat} {c : RequestCommand} (h : r.command other c = .ok r')
    (hb : other = id → ∀ metric sequence, c ≠ .begin metric sequence)
    (hn : other = id → c = .timeOut → ¬ r.Restarts id)
    (ho : other = id → c = .completing → reopened) : Continues reopened id r r' :=
  continues_applyCommand (command_applied h) hb hn ho

end Operations

section Phases

theorem requests_begin {name : String} (h : r.begin name = .ok r') : r'.requests = r.requests := by
  obtain ⟨i, s, r₁, _, _, hr, rfl⟩ := begin_cases h
  rw [(routine_move ..).requests]
  rcases hr with ⟨key, _, rfl⟩ | rfl
  · exact (spares_enterGroup ..).requests
  · rfl

theorem requests_acquire {key : String} {got : Option Nat} (h : r.acquire key = (got, r')) :
    r'.requests = r.requests := by
  cases acquires h with
  | nowhere | anew | again => rfl
  | never => exact (routine_depleted ..).requests

theorem requests_employ (r : Runner) (session : Nat) (phase : String) :
    (r.employ session phase).requests = r.requests := (spares_spawn ..).requests

theorem requests_answers {phase : String} {a : Answer} (h : Answers r phase a r') :
    r'.requests = r.requests := by
  cases h with
  | refused => rfl
  | short _ _ _ ha => exact requests_acquire ha
  | granted _ _ _ ha => exact (requests_employ ..).trans (requests_acquire ha)

theorem requests_hires {name : String} {log : List Occurrence} (h : Hires name r log r') :
    r'.requests = r.requests := by
  induction h with
  | refl => rfl
  | asks => exact requests_answers (answers ..)
  | sets | calls | arms => rfl
  | trans _ _ ih later => exact later.trans ih

theorem requests_paces {phase : String} {log : List Occurrence} (h : Paces phase r log r') :
    r'.requests = r.requests := by
  cases h with
  | idle => rfl
  | stops => rfl
  | hires _ _ h => exact requests_hires h

end Phases

section Runs

theorem continues_unwind (here : Option Nat) (run : Run) (r : Runner) :
    Continues reopened id r (r.unwind here run) := by
  have removed : Continues reopened id r { r with runs := r.runs.filter (·.id != run.id) } :=
    .same rfl
  have stopped := removed.trans (continues_stopSession _ run.session)
  have ended := unwinds here run r
  generalize r.unwind here run = r' at ended ⊢
  cases ended with
  | nowhere => exact stopped
  | keeps _ left => exact stopped.trans left.routine.continues
  | givesBack _ left =>
    have given : ∀ (q : Runner) key, Continues reopened id q (q.giveBack key run.session) :=
      fun _ _ => .same rfl
    exact (stopped.trans (given ..)).trans left.routine.continues

theorem continues_fails (here : Option Nat) (run : Run) (f : Failure) (r : Runner) :
    Continues reopened id r ((r.failPhase here run.phase f).unwind here run) := by
  have failed : Continues reopened id r (r.failPhase here run.phase f) :=
    (routine_failPhase ..).continues
  exact failed.trans (continues_unwind ..)

theorem continues_reset (r : Runner) (session : Nat) :
    Continues reopened id r (r.modifySession session (·.reset)) := .same rfl

theorem continues_works {here : Option Nat} {run : Run} {early : Bool} {actions : List Action}
    {log : List Occurrence} (h : Works here run early actions r log r') :
    Continues reopened id r r' := by
  induction h with
  | waits h => exact h.routine.continues.trans (.same rfl)
  | fails h => exact h.routine.continues.trans (continues_fails ..)
  | ends h => exact h.routine.continues.trans (continues_unwind ..)
  | putsOff h => exact h.routine.continues.trans (spares_putOff run _).continues
  | again h _ _ ih => exact h.routine.continues.trans ((continues_reset ..).trans ih)

theorem continues_resumes {here : Option Nat} {run : Nat} {log : List Occurrence}
    (h : Resumes here run r log r') : Continues reopened id r r' := by
  cases h with
  | nobody => exact .refl r
  | stays => exact .refl r
  | interrupted => exact (spares_breakOff ..).continues.trans (continues_unwind ..)
  | begins _ _ _ h => exact (continues_reset ..).trans (continues_works h)
  | carriesOn _ _ h => exact continues_works h
  | fails => exact continues_fails ..

end Runs

section Happenings

/-- The metric for which a request is started again if its time is up. -/
def restart? (r : Runner) (id : Nat) : Option String :=
  (r.request? id).bind fun q =>
    if q.isCompleted then none
    else match q.recovery with
      | .restart _ metric => some metric
      | _ => none

/-- What is done with which request: a command, or it times out. -/
def handled (r : Runner) : Happening → Option (Nat × RequestCommand)
  | .command id c => some (id, c)
  | .turn loop =>
    match r.loops.next? loop with
    | some (.expire id, _) =>
      if (r.request? id).any (r.isKept id) then some (id, .timeOut) else none
    | _ => none
  | _ => none

/-- The metric for which a request is started by what is done with it. -/
def started? (r : Runner) (id : Nat) : RequestCommand → Option String
  | .begin metric _ => some metric
  | .timeOut => r.restart? id
  | _ => none

/-- The request that a happening starts, and its metric. -/
def starts (r : Runner) (e : Happening) : List (Nat × String) :=
  ((r.handled e).bind fun (id, c) => (r.started? id c).map (id, ·)).toList

theorem restart?_eq_some {metric : String} : r.restart? id = some metric ↔
    ∃ q sequence, r.request? id = some q ∧ q.isCompleted = false ∧
      q.recovery = .restart sequence metric := by
  constructor
  · intro h
    obtain ⟨q, hq, h⟩ := Option.bind_eq_some_iff.mp h
    split at h
    · cases h
    · rename_i hc
      split at h
      · rename_i sequence m hr
        cases h
        exact ⟨q, sequence, hq, by simpa using hc, hr⟩
      · cases h
  · intro h
    obtain ⟨q, sequence, hq, hc, hr⟩ := h
    simp [restart?, hq, hc, hr]

theorem restarts_iff : r.Restarts id ↔ ∃ metric, r.restart? id = some metric := by
  simp only [restart?_eq_some]
  constructor
  · intro h
    obtain ⟨q, hq, hc, sequence, metric, hr⟩ := h
    exact ⟨metric, q, sequence, hq, hc, hr⟩
  · intro h
    obtain ⟨metric, q, sequence, hq, hc, hr⟩ := h
    exact ⟨q, hq, hc, sequence, metric, hr⟩

/-- What is done with a request is a command, or it times out in the turn of a loop. -/
theorem handled_cases {e : Happening} {c : RequestCommand} (h : r.handled e = some (id, c)) :
    e = .command id c ∨ c = .timeOut ∧ ∃ loop loops, e = .turn loop ∧
      r.loops.next? loop = some (.expire id, loops) ∧
        r.after? e = some (timeOut { r with loops := loops } id) := by
  cases e with
  | command other c' =>
    cases h
    exact .inl rfl
  | turn loop =>
    simp only [handled] at h
    split at h
    · rename_i other loops next
      split at h
      · rename_i kept
        cases h
        refine .inr ⟨rfl, loop, loops, rfl, next, ?_⟩
        cases hq : r.request? id with
        | none => simp [hq] at kept
        | some q =>
          rw [hq] at kept
          have there : request? { r with loops := loops } id = some q := hq
          have held : isKept { r with loops := loops } id q = true := kept
          simp only [after?, step?_of_next next, perform, Telling.perform, expire, there, held, if_true]
      · cases h
    · cases h
  | _ => cases h

theorem mem_starts {e : Happening} {metric : String} : (id, metric) ∈ r.starts e ↔
    ∃ c, r.handled e = some (id, c) ∧ r.started? id c = some metric := by
  simp only [starts, Option.mem_toList, Option.bind_eq_some_iff, Option.map_eq_some_iff,
    Prod.mk.injEq]
  constructor
  · intro held
    obtain ⟨⟨other, c⟩, hh, m, hm, rfl, rfl⟩ := held
    exact ⟨c, hh, hm⟩
  · intro held
    obtain ⟨c, hh, hm⟩ := held
    exact ⟨(id, c), hh, metric, hm, rfl, rfl⟩

theorem continues_carryOut {here : Option Nat} {d : Deed} (h : r.carryOut here d = .ok r') :
    Continues reopened id r r' := by
  cases does h with
  | begin h => exact .same (requests_begin h)
  | finish | tryTerminate | terminate => exact (routine_moveIf ..).continues
  | fail => exact (routine_failPhase ..).continues
  | enroll => exact .same (requests_answers (answers ..))
  | complete => exact continues_unwind ..

theorem continues_perform (loop : Nat) (t : Task)
    (hn : t = .expire id → (r.request? id).any (r.isKept id) → ¬ r.Restarts id) :
    Continues reopened id r (r.perform loop t) := by
  cases t with
  | resume run => exact continues_resumes (resumes (some loop) run r)
  | pace phase => exact .same (requests_paces (paces phase r))
  | expire other =>
    by_cases he : other = id
    · subst he
      by_cases hk : (r.request? other).any (r.isKept other) = true
      · exact continues_expire r other fun _ => hn rfl hk
      · refine .same ?_
        simp only [perform, Telling.perform, expire]
        split
        · rfl
        · rename_i q hq
          rw [hq] at hk
          rw [if_neg (by simpa using hk)]
    · exact continues_expire r other fun h => absurd h he
  | stamp | «seal» | announce | read | prune => exact (routine_perform loop r rfl).continues

theorem continues_after {e : Happening} (h : r.after? e = some r')
    (hn : ∀ metric, (id, metric) ∉ r.starts e) :
    Continues (e = .command id .completing) id r r' := by
  cases e with
  | deed here d => exact continues_carryOut (toOption_eq_some.mp h)
  | pace phase => cases h; exact (routine_startPacer r phase).continues
  | exceedLimit phase =>
    obtain ⟨i, _, hi⟩ := bind_eq_ok.mp (toOption_eq_some.mp h)
    cases hi
    exact .same rfl
  | turn loop =>
    obtain ⟨t, loops, hl, rfl⟩ := step?_eq_some h
    have taken : ∀ {p : Prop}, Continues p id r { r with loops := loops } := .same rfl
    refine taken.trans (continues_perform loop t fun he hk again => ?_)
    subst he
    obtain ⟨metric, hm⟩ := restarts_iff.mp (show r.Restarts id from again)
    have kept : (r.request? id).any (r.isKept id) = true := hk
    exact hn metric (mem_starts.mpr ⟨.timeOut, by simp [handled, hl, kept], hm⟩)
  | openGate session f => exact (spares_openGate h).continues
  | openConnections => cases h; exact (routine_openConnections r).continues
  | createRequest session recovery =>
    cases h
    refine ⟨fun q hq => ⟨q, ?_, .refl q⟩⟩
    have there : r.requests[id]? = some q := hq
    simp only [request?, createRequest]
    rw [List.getElem?_append_left (List.getElem?_eq_some_iff.mp there).1]
    exact there
  | command other c =>
    refine continues_command (toOption_eq_some.mp h) (fun he metric sequence hc => ?_)
      (fun he hc again => ?_) fun he hc => by rw [he, hc]
    · subst he hc
      exact hn metric (mem_starts.mpr ⟨_, rfl, rfl⟩)
    · subst he hc
      obtain ⟨metric, hm⟩ := restarts_iff.mp again
      exact hn metric (mem_starts.mpr ⟨_, rfl, hm⟩)
  | letGo other =>
    cases h
    exact .modifyRequest _ fun _ _ _ => ⟨rfl, rfl, rfl, rfl, .inl rfl, .inl⟩
  | beginSurvey recent => cases h; exact (routine_beginSurvey r recent).continues
  | beginPruning => cases h; exact (routine_beginPruning r).continues
  | phasePoolStats phase =>
    obtain ⟨⟨stats, r₁⟩, hs, he⟩ := Option.map_eq_some_iff.mp h
    cases he
    exact (spares_phasePoolStats (toOption_eq_some.mp hs)).continues
  | advance | clock | addConnection | poolStats => cases h; exact .same rfl

/-- A request is what it was until it is started again, but for its progress and its verdict. -/
theorem Course.continues {es : List Happening} (h : Course r es r')
    (hn : ∀ metric, (id, metric) ∉ r.trail starts es) : Continues True id r r' := by
  induction h with
  | refl => exact .refl r
  | next hc _ he ih =>
    simp only [hc.trail_next starts he, List.mem_append, not_or] at hn
    exact (ih fun m => (hn m).1).trans
      ((continues_after he fun m => (hn m).2).mono fun _ => trivial)

end Happenings

end Runner
end LoadGen
