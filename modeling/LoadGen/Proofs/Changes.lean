import LoadGen.Proofs.RunTurns

namespace LoadGen.Runner

variable {m : Remit} {may : Nat → Prop}

section Iteration

/-- The run is under way, wherever it has come to. -/
def Has (r : Runner) (run : Run) : Prop :=
  ∃ other, r.runs.find? (·.id == run.id) = some other ∧ other.core = run.core

theorem Has.atWork {r : Runner} {run : Run} (h : r.Has run) : r.AtWork run.session := by
  obtain ⟨other, hf, hc⟩ := h
  exact ⟨other, List.mem_of_find?_eq_some hf, (Run.core_eq hc).2.1⟩

theorem Finds.has {r : Runner} {run : Run} (h : r.Finds run) : r.Has run := ⟨run, h, rfl⟩

theorem Has.of_runs {r r' : Runner} {run : Run} (h : r.Has run)
    (hr : r'.runs.map Run.core = r.runs.map Run.core) : r'.Has run := by
  have look : ∀ q : Runner, q.Has run ↔
      (q.runs.map Run.core).find? (·.id == run.id) = some run.core := by
    intro q
    simp only [Has, List.find?_map, Option.map_eq_some_iff]
    rfl
  rw [look] at h ⊢
  rwa [hr]

theorem Has.calls {r : Runner} {run : Run} (h : r.Has run) :
    r.Calls run.id (r.executorOf run.session) := by
  obtain ⟨other, hf, hc⟩ := h
  obtain ⟨hid, hs, _⟩ := Run.core_eq hc
  exact ⟨other, List.mem_of_find?_eq_some hf, hid, by rw [hs]⟩

theorem shifts_unwind (here : Option Nat) {r : Runner} {run : Run} (h : r.Has run)
    (hm : m.deeds (.complete run.id)) : Shifts m r (r.unwind here run) := by
  obtain ⟨other, hf, hc⟩ := h
  refine .single (.deed here (.complete run.id) hm (fun _ h => by cases h) ?_)
  obtain ⟨id, session, phase, point⟩ := run
  obtain ⟨id', session', phase', point'⟩ := other
  obtain ⟨rfl, rfl, rfl⟩ := Run.core_eq hc
  simp only [carryOut, hf]
  rfl

theorem failPhase_cases (here : Option Nat) (phase : String) (f : Failure) (r : Runner) :
    Aside may r (r.failPhase here phase f) ∨
      r.carryOut here (.fail phase f) = .ok (r.failPhase here phase f) := by
  cases hi : r.instances.get? phase with
  | none =>
    have noted : Aside may r (r.modifyInstance phase fun i =>
        { i with standing := i.standing.blame f }) := .modifyInstance r fun _ => rfl
    have gone : (r.modifyInstance phase fun i =>
        { i with standing := i.standing.blame f }).instances.get? phase = none := by
      simp [Runner.modifyInstance, hi]
    simp only [failPhase, gone]
    exact .inl noted
  | some i =>
    right
    simp only [carryOut, instance?, hi]
    rfl

theorem shifts_failPhase (here : Option Nat) {phase : String} {f : Failure} (r : Runner)
    (hm : m.deeds (.fail phase f)) : Shifts m r (r.failPhase here phase f) := by
  rcases failPhase_cases here phase f r with h | h
  · exact h.shifts
  · exact .single (.deed here (.fail phase f) hm (fun _ h => by cases h) h)

theorem aside_vars (r : Runner) (session : Nat) (f : Dict Value → Dict Value) :
    Aside may r (r.modifySession session fun s => { s with vars := f s.vars }) :=
  .modifySession r (fun _ => rfl) fun _ h => .inl ⟨h.inFlight, h.current, h.sequence⟩

theorem aside_reset (r : Runner) (session : Nat) :
    Aside may r (r.modifySession session (·.reset)) :=
  .modifySession r (fun _ => rfl) fun _ h => .inl ⟨h.inFlight, rfl, rfl⟩

theorem aside_modifyQueuesOf (r : Runner) (session : Nat) (f : Queues → Queues) :
    Aside may r (r.modifyQueuesOf session f) := by
  unfold modifyQueuesOf
  split
  · exact .modifyGroup r (fun _ => rfl) fun _ => rfl
  · exact .refl r

theorem aside_takeStep (r : Runner) {run : Run} (hm : may run.id) (step : Step) :
    Aside may r (r.takeStep run step).2 := by
  cases step with
  | log message vars => exact .log r rfl
  | set var value => exact aside_vars r run.session fun vars => vars.insert var value
  | pause time =>
    apply Aside.arm r _ time rfl
    intro id he
    cases he
    exact hm

theorem shifts_measureTimes (b : BucketRef) (stamp : Nat) (e : Event) (n : Nat) (r : Runner) :
    Shifts m r (measureTimes b stamp e n r) := by
  induction n generalizing r with
  | zero => exact .refl
  | succ n ih => exact .head (.record b stamp e) (ih _)

theorem shifts_act {r : Runner} {run : Run} (hm : m.Hosts run) (a : Action)
    (work : r.AtWork run.session) : Shifts m r (r.act run a).2 := by
  cases a with
  | run step => exact (aside_takeStep r hm.calls step).shifts
  | build tag params =>
    simp only [act]
    split
    · rename_i step _
      exact (aside_takeStep r hm.calls step).shifts
    · exact .refl
  | get var => exact (Aside.log r rfl).shifts
  | unset var =>
    have erased : ∀ q : Runner, Aside m.calls q (q.modifySession run.session fun s =>
        { s with vars := s.vars.erase var }) := fun q =>
      aside_vars q run.session fun vars => vars.erase var
    exact ((Aside.log r rfl).trans (erased _)).shifts
  | push key value => exact (aside_modifyQueuesOf ..).shifts
  | pushId key => exact (aside_modifyQueuesOf ..).shifts
  | pull key => exact ((Aside.log r rfl).trans (aside_modifyQueuesOf ..)).shifts
  | measure metric stamp event times =>
    simp only [act]
    split
    · rename_i b r' h
      exact (shifts_bucketFor hm.buckets work h).trans (shifts_measureTimes ..)
    · exact .refl
  | bound => exact (Aside.log r rfl).shifts
  | fail f => exact .refl
  | failIn session f =>
    simp only [act]
    split <;> exact .refl
  | gate => exact .refl

theorem shifts_actAll {r : Runner} {run : Run} (hm : m.Hosts run) (actions : List Action)
    (work : r.AtWork run.session) : Shifts m r (actAll run actions r).2 := by
  induction actions generalizing r with
  | nil => exact .refl
  | cons a rest ih =>
    have once := shifts_act hm a work
    have runs := runs_act r run a
    simp only [actAll]
    split <;> rename_i q h <;> rw [h] at once runs
    · exact once.trans (ih (by rwa [AtWork, runs]))
    all_goals exact once

theorem shifts_acts {r q : Runner} {run : Run} {actions : List Action} {e : TurnEnd}
    (hm : m.Hosts run) (h : Acts run actions r e q) : Shifts m r q := by
  have acted := shifts_actAll hm actions h.before.has.atWork
  rwa [h.came] at acted

theorem aside_putOff {r : Runner} {run : Run} (has : r.Has run) : Aside may r (putOff run r) :=
  (Aside.setPoint r run .fresh).trans
    (.call ((SameHolders.setPoint r run .fresh).calls_iff.mpr has.calls))

theorem shifts_fails (here : Option Nat) (f : Failure) {r : Runner} {run : Run} (hm : m.Serves run)
    (has : r.Has run) : Shifts m r ((r.failPhase here run.phase f).unwind here run) := by
  have kept := has.of_runs (runs_failPhase here run.phase f r)
  exact (shifts_failPhase here r (hm.fails f)).trans (shifts_unwind here kept hm.completes)

theorem shifts_works {here : Option Nat} {run : Run} {early : Bool} {actions : List Action}
    {log : List Occurrence} {r r' : Runner} (hm : m.Serves run)
    (h : Works here run early actions r log r') : Shifts m r r' := by
  induction h with
  | waits h => exact (shifts_acts hm.toHosts h).trans (Aside.setPoint _ run _).shifts
  | fails h => exact (shifts_acts hm.toHosts h).trans (shifts_fails here _ hm h.after.has)
  | ends h => exact (shifts_acts hm.toHosts h).trans (shifts_unwind here h.after.has hm.completes)
  | putsOff h => exact (shifts_acts hm.toHosts h).trans (aside_putOff h.after.has).shifts
  | again h _ _ ih => exact (shifts_acts hm.toHosts h).trans ((aside_reset ..).shifts.trans ih)

theorem aside_breakOff (r : Runner) (run : Run) : Aside may r (r.breakOff run) := by
  unfold breakOff
  split
  · exact aside_reset r run.session
  · exact .disarm r ..
  · exact .refl r

theorem serves_turn {r : Runner} {run : Run} (h : run ∈ r.runs) :
    (r.turnRemit (.resume run.id)).Serves run where
  calls := rfl
  buckets := ⟨run, h, rfl, rfl⟩
  fails := fun f => ⟨run, h, rfl, .inr ⟨f, rfl⟩⟩
  completes := ⟨run, h, rfl, .inl rfl⟩

theorem shifts_resumes {here : Option Nat} {id : Nat} {log : List Occurrence} {r r' : Runner}
    (h : Resumes here id r log r') : Shifts (r.turnRemit (.resume id)) r r' := by
  cases h with
  | nobody => exact .refl
  | stays => exact .refl
  | @interrupted run _ found =>
    have broken : Aside (r.turnRemit (.resume run.id)).calls r (r.breakOff run) :=
      aside_breakOff r run
    have kept := found.has.of_runs broken.holders.runs
    exact broken.shifts.trans (shifts_unwind here kept (serves_turn found.mem).completes)
  | begins found _ _ h => exact (aside_reset ..).shifts.trans (shifts_works (serves_turn found.mem) h)
  | carriesOn found _ h => exact shifts_works (serves_turn found.mem) h
  | fails found => exact shifts_fails here _ (serves_turn found.mem) found.has

theorem aside_openGate {r r' : Runner} {session : Nat} {f : Option Failure}
    (h : r.openGate session f = some r') : Aside may r r' := by
  obtain ⟨run, hm, rfl, rest, _, rfl⟩ := openGate_eq_some h
  have there : r.Calls run.id (r.executorOf run.session) := ⟨run, hm, rfl, rfl⟩
  exact (Aside.setPoint r run (.opened f rest)).trans
    (.call ((SameHolders.setPoint r run (.opened f rest)).calls_iff.mpr there))

end Iteration

section Happenings

/-- What a happening comes down to. None that is no begin of a phase does more than it may. -/
inductive Change (r : Runner) : Happening → Runner → Prop
  | begin {r' : Runner} {here : Option Nat} {phase : String} :
      r.begin phase = .ok r' → Change r (.deed here (.begin phase)) r'
  | survey (recent : Option Nat) : Change r (.beginSurvey recent) (r.beginSurvey recent).2
  | pruning : Change r .beginPruning r.beginPruning.2
  /-- A loop carries out an order. -/
  | order {loop : Nat} {t : Task} {loops : LoopGroup Task} :
      r.loops.next? loop = some (t, loops) → t.isOrder = true →
        Change r (.turn loop) ({ r with loops := loops }.perform loop t)
  | work {e : Happening} {r' : Runner} :
      (∀ here phase, e ≠ .deed here (.begin phase)) → e ≠ .beginPruning →
        Shifts (r.remit e) r r' → Change r e r'

theorem aside_openConnections (r : Runner) : Aside may r r.openConnections.2 := by
  have started : Aside may r { r with
      clients := r.clients.map fun c => { c with starts := c.starts + 1 } } :=
    .elsewhere rfl rfl rfl rfl rfl rfl rfl rfl rfl rfl rfl rfl
  unfold openConnections
  dsimp only
  split
  · exact started
  · apply started.trans
    unfold report
    split <;> exact .log _ rfl

theorem aside_poolStats (r : Runner) : Aside may r r.poolStats.2 where
  holders := { SameHolders.refl r with
    groups := by
      intro key
      simp only [poolStats, Dict.get?_map, Option.map_map]
      congr 1
      funext g
      simp only [Function.comp]
      split <;> rfl }
  record := { SameRecord.refl r with
    groups := Dict.keys_map ..
    records := by
      intro key
      simp only [poolStats, Dict.get?_map, Option.map_map]
      congr 1
      funext g
      simp only [Function.comp]
      split <;> rfl }
  calls := .elsewhere rfl
  now := rfl

theorem aside_phasePoolStats {r r' : Runner} {name : String} {stats : List (String × Nat × Nat)}
    (h : r.phasePoolStats name = .ok (stats, r')) : Aside may r r' := by
  obtain ⟨i, _, h⟩ := bind_eq_ok.mp h
  split at h
  · cases h
    exact .refl _
  · cases h
    exact .modifyGroup r (fun _ => rfl) fun _ => rfl

theorem change_turn {r r' : Runner} {loop : Nat} (ha : r.Allowed (.turn loop))
    (h : r.step? loop = some r') : Change r (.turn loop) r' := by
  obtain ⟨t, loops, hn, rfl⟩ := step?_eq_some h
  have calm : t.isOrder = false → Shifts (r.turnRemit t) { r with loops := loops }
      ({ r with loops := loops }.perform loop t) →
      Change r (.turn loop) ({ r with loops := loops }.perform loop t) := by
    intro ht hs
    have may : r.remit (.turn loop) = r.turnRemit t := by simp only [remit, hn, Option.elim]
    refine .work (fun _ _ he => by cases he) (fun he => by cases he) ?_
    rw [may]
    exact (Aside.take hn ht).shifts.trans hs
  cases t with
  | resume run => exact calm rfl (shifts_resumes (resumes (some loop) run { r with loops := loops }))
  | pace phase => exact calm rfl (shifts_paces (paces phase { r with loops := loops }))
  | expire request =>
    exact calm rfl (shifts_expire { r with loops := loops } request (ha request loops hn))
  | stamp group phase time => exact .order hn rfl
  | «seal» fence => exact .order hn rfl
  | announce fence => exact .order hn rfl
  | read survey slot group => exact .order hn rfl
  | prune group phase => exact .order hn rfl

theorem change_of_after {r r' : Runner} {e : Happening} (ha : r.Allowed e)
    (h : r.after? e = some r') : Change r e r' := by
  have aside : (∀ here phase, e ≠ .deed here (.begin phase)) → e ≠ .beginPruning →
      Aside (r.remit e).calls r r' → Change r e r' := fun hb hp hs => .work hb hp hs.shifts
  cases e with
  | deed here d =>
    have hd : r.carryOut here d = .ok r' := toOption_eq_some.mp h
    by_cases hb : ∃ phase, d = .begin phase
    · obtain ⟨phase, rfl⟩ := hb
      exact .begin hd
    · have shift : Shift (r.remit (.deed here d)) r r' :=
        .deed here d rfl (fun phase hn => hb ⟨phase, hn⟩) hd
      refine .work (fun _ phase he => ?_) nofun (.single shift)
      cases he
      exact hb ⟨phase, rfl⟩
  | pace phase =>
    cases h
    exact aside (fun _ _ => nofun) nofun (aside_startPacer r phase)
  | exceedLimit phase =>
    obtain ⟨i, _, hi⟩ := bind_eq_ok.mp (toOption_eq_some.mp h)
    cases hi
    exact aside (fun _ _ => nofun) nofun (.modifyInstance r fun _ => rfl)
  | turn loop => exact change_turn ha h
  | advance loop time =>
    cases h
    exact aside (fun _ _ => nofun) nofun (.advance r loop time)
  | clock now =>
    cases h
    exact .work (fun _ _ => nofun) nofun (.single (.clock now trivial))
  | openGate session f => exact aside (fun _ _ => nofun) nofun (aside_openGate h)
  | openConnections =>
    cases h
    exact aside (fun _ _ => nofun) nofun (aside_openConnections r)
  | createRequest session recovery =>
    cases h
    exact aside (fun _ _ => nofun) nofun (.elsewhere rfl rfl rfl rfl rfl rfl rfl rfl rfl rfl rfl rfl)
  | command request c =>
    exact .work (fun _ _ => nofun) nofun (shifts_command ha (toOption_eq_some.mp h))
  | letGo request =>
    cases h
    exact aside (fun _ _ => nofun) nofun (.modifyRequest ..)
  | addConnection c =>
    cases h
    exact aside (fun _ _ => nofun) nofun (.elsewhere rfl rfl rfl rfl rfl rfl rfl rfl rfl rfl rfl rfl)
  | beginSurvey recent =>
    cases h
    exact .survey recent
  | beginPruning =>
    cases h
    exact .pruning
  | poolStats =>
    cases h
    exact aside (fun _ _ => nofun) nofun (aside_poolStats r)
  | phasePoolStats phase =>
    obtain ⟨⟨stats, r₁⟩, hs, he⟩ := Option.map_eq_some_iff.mp h
    cases he
    exact aside (fun _ _ => nofun) nofun (aside_phasePoolStats (toOption_eq_some.mp hs))

end Happenings

end LoadGen.Runner
