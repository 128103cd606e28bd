import LoadGen.Proofs.Arrivals

namespace LoadGen.Runner

variable {r r₁ r' q : Runner} {run : Run} {here : Option Nat} {log pre post : List Milestone}
  {m : Milestone} {actions : List Action} {early : Bool} {told : List Occurrence}

/-- What the turn of a run at the station `s` comes to after its work: the run waits in an iteration,
it goes on later with another one, or it ends. The milestones tell how it got there. -/
inductive ComesTo (here : Option Nat) (run : Run) (s : Station) (r : Runner) :
    List Milestone → Runner → Prop
  | waits {log : List Milestone} {q : Runner} {p : Point} :
      KeepsWork r q → Station.ofRun { run with point := p } = .working run.core →
        Station.Path s log (.working run.core) → ComesTo here run s r log (q.setPoint run p)
  | later {log : List Milestone} {q : Runner} :
      KeepsWork r q → Station.Path s (log ++ [⟨run, .succeeds, q⟩]) (.ready run.core) →
        ComesTo here run s r (log ++ [⟨run, .succeeds, q⟩]) (putOff run q)
  | ends {log : List Milestone} {q : Runner} :
      KeepsWork r q → Station.Path s log .past → ComesTo here run s r log (q.unwind here run)

section Turns
variable {s s₁ : Station}

namespace ComesTo

theorem after (h : KeepsWork r r₁) (k : ComesTo here run s r₁ log r') :
    ComesTo here run s r log r' := by
  cases k with
  | waits w hp path => exact .waits (h.trans w) hp path
  | later w path => exact .later (h.trans w) path
  | ends w path => exact .ends (h.trans w) path

theorem step (hn : Station.Next s m s₁) (k : ComesTo here run s₁ r log r') :
    ComesTo here run s r (m :: log) r' := by
  cases k with
  | waits w hp path => exact .waits w hp (.step hn path)
  | @later log q w path => exact @later here run s r (m :: log) q w (.step hn path)
  | ends w path => exact .ends w (.step hn path)

theorem core (k : ComesTo here run (.ofRun run) r log r') : ∀ m ∈ log, m.run.core = run.core := by
  have stands := Station.ofRun_cases run
  cases k with
  | waits _ _ path => exact (path.core stands).1
  | later _ path => exact (path.core stands).1
  | ends _ path => exact (path.core stands).1

theorem mine (k : ComesTo here run (.ofRun run) r log r') : ∀ m ∈ log, m.run.id = run.id :=
  fun m hm => (Run.core_eq (k.core m hm)).1

theorem follows (k : ComesTo here run (.ofRun run) r log r') (hn : r.Numbered)
    (hf : r.Finds run) : Follows r log r' := by
  have mine := k.mine
  have found : ∀ {q}, KeepsWork r q → q.Finds run := fun w => hf.keep w.runs
  rw [← hf.station] at k
  cases k with
  | @waits log q p w hp path =>
    have moved := moves_setPoint (w.toSameRuns.numbered hn) (found w) p
    rw [hp] at moved
    exact (moved.after w.toSameRuns).follows mine path
  | later w path =>
    have moved := moves_putOff (w.toSameRuns.numbered hn) (found w)
    exact (moved.after w.toSameRuns).follows mine path
  | ends w path =>
    have moved := moves_unwind here (w.toSameRuns.numbered hn) (found w).mem
    exact (moved.after w.toSameRuns).follows mine path

end ComesTo

theorem actAll_waits {p : Point} (h : actAll run actions r = (.waits p, r')) :
    Station.ofRun { run with point := p } = .working run.core := by
  induction actions generalizing r with
  | nil => cases h
  | cons a rest ih =>
    simp only [actAll] at h
    split at h
    · exact ih h
    · cases h
    · cases h
      rfl
    · cases h
      rfl

theorem goesOn_running (h : r.goesOn run = true) : r.status? run.phase = some .running := by
  unfold goesOn at h
  unfold status?
  split at h
  · rename_i i hi
    rw [hi]
    simpa using (Bool.and_eq_true_iff.mp h).2
  · cases h

theorem comesTo_reset (ht : (r.status? run.phase).any Status.isTerminating = false)
    (k : ComesTo here run (.working run.core) (r.modifySession run.session (·.reset)) log r') :
    ComesTo here run (.ready run.core) r
      (⟨run, .begins, r.modifySession run.session (·.reset)⟩ :: log) r' := by
  have ready : KeepsWork r (r.modifySession run.session (·.reset)) := .modifySession r _ fun _ => rfl
  exact .step (.begins ht) (.after ready k)

theorem comesTo_works (h : Works here run early actions r told r') :
    ComesTo here run (.working run.core) r (milestonesIn told) r' := by
  induction h with
  | waits h => exact .waits h.routine.keepsWork (actAll_waits h.came) (.refl _)
  | fails h => exact .ends (h.routine.keepsWork.trans (routine_failPhase ..).keepsWork) (.one .fails)
  | ends h off => exact .ends h.routine.keepsWork (.one (.succeeds off))
  | putsOff h on =>
    exact @ComesTo.later here run _ _ [] _ h.routine.keepsWork (.one (.again on))
  | @again _ _ q _ _ h on _ ih =>
    have calm : (q.status? run.phase).any Status.isTerminating = false := by
      rw [goesOn_running on]
      rfl
    exact .after h.routine.keepsWork (.step (.again on) (comesTo_reset calm ih))

/-- A run that has its turn stays where it is, or comes to the milestones. -/
theorem comesTo_resumes {id : Nat} (h : Resumes here id r told r') :
    (milestonesIn told = [] ∧ r' = r) ∨ ∃ run, r.Finds run ∧ run.id = id ∧
      ComesTo here run (.ofRun run) r (milestonesIn told) r' := by
  cases h with
  | nobody => exact .inl ⟨rfl, rfl⟩
  | stays => exact .inl ⟨rfl, rfl⟩
  | @interrupted run _ found =>
    exact .inr ⟨run, found, rfl, .ends (keepsWork_breakOff r run)
      (.one (.stopped (Station.ofRun_cases run) (.inl rfl)))⟩
  | @begins run _ _ _ found calm fresh h =>
    refine .inr ⟨run, found, rfl, ?_⟩
    rw [Station.ofRun, fresh]
    exact comesTo_reset calm (comesTo_works h)
  | @carriesOn run _ _ _ _ found stands h =>
    refine .inr ⟨run, found, rfl, ?_⟩
    have under : Station.ofRun run = .working run.core := by
      unfold Station.ofRun
      rcases stands with stands | ⟨_, stands⟩ <;> rw [stands]
    rw [under]
    exact comesTo_works h
  | @fails run _ _ _ found stands =>
    refine .inr ⟨run, found, rfl, ?_⟩
    rw [Station.ofRun, stands]
    exact .ends (routine_failPhase ..).keepsWork (.one .fails)

end Turns

/-- An iteration begins after the milestones `pre` of its turn: the run was about to begin, or has
just returned. Where the session is reset, nothing is otherwise than at the beginning of the turn
but what the run itself has done to variables and the like. -/
structure Onset (r : Runner) (pre : List Milestone) (m : Milestone) (q : Runner) : Prop where
  work : KeepsWork r q
  time : KeepsTime r q
  there : m.run ∈ r.runs
  reset : m.runner = q.modifySession m.run.session (·.reset)
  before : (pre = [] ∧ m.run.point = .fresh) ∨ pre = [⟨m.run, .succeeds, q⟩]

section Onsets

theorem begins_of_works (h : Works here run false actions r told r') :
    ∀ m ∈ milestonesIn told, m.juncture ≠ .begins := by
  cases h with
  | waits => exact List.forall_mem_nil _
  | fails | ends | putsOff => exact List.forall_mem_singleton.mpr nofun

theorem eq_of_singleton {a : Milestone} (h : [a] = pre ++ m :: post) : pre = [] ∧ m = a := by
  cases pre with
  | nil => exact ⟨rfl, (List.cons.inj h).1.symm⟩
  | cons b pre => simp at h

/-- An iteration that begins at once is the first thing that comes to pass, or the second one. -/
theorem onset_works (hm : run ∈ r.runs) (h : Works here run early actions r told r')
    (hl : milestonesIn told = pre ++ m :: post) (hj : m.juncture = .begins) :
    ∃ q later, Onset r pre m q ∧ Works here m.run false (q.actionsOf m.run) m.runner later r' := by
  cases h with
  | waits => simp [milestonesIn] at hl
  | fails | ends | putsOff =>
    obtain ⟨_, rfl⟩ := eq_of_singleton hl
    cases hj
  | @again _ _ q _ log h on works =>
    rw [milestonesIn_comes, milestonesIn_comes] at hl
    cases pre with
    | nil =>
      cases (List.cons.inj hl).1
      cases hj
    | cons a pre =>
      obtain ⟨rfl, tail⟩ := List.cons.inj hl
      cases pre with
      | nil =>
        cases (List.cons.inj tail).1
        exact ⟨q, log, ⟨h.routine.keepsWork, h.routine.keepsTime, hm, rfl, .inr rfl⟩, works⟩
      | cons b pre =>
        have there : m ∈ milestonesIn log := by
          rw [(List.cons.inj tail).2]
          exact List.mem_append_right _ List.mem_cons_self
        exact absurd hj (begins_of_works works m there)

theorem onset_resumes {id : Nat} (h : Resumes here id r told r')
    (hl : milestonesIn told = pre ++ m :: post) (hj : m.juncture = .begins) :
    ∃ q later, Onset r pre m q ∧ Works here m.run false (q.actionsOf m.run) m.runner later r' := by
  cases h with
  | nobody => simp [milestonesIn] at hl
  | stays => simp [milestonesIn] at hl
  | interrupted | fails =>
    obtain ⟨_, rfl⟩ := eq_of_singleton hl
    cases hj
  | @begins run _ _ log found _ fresh works =>
    rw [milestonesIn_comes] at hl
    cases pre with
    | nil =>
      cases (List.cons.inj hl).1
      exact ⟨r, log, ⟨.refl r, .refl r, found.mem, rfl, .inl ⟨rfl, fresh⟩⟩, works⟩
    | cons a pre =>
      have there : m ∈ milestonesIn log := by
        rw [(List.cons.inj hl).2]
        exact List.mem_append_right _ List.mem_cons_self
      exact absurd hj (begins_of_works works m there)
  | carriesOn found _ works => exact onset_works found.mem works hl hj

theorem onset_of_milestones {e : Happening} (he : r.after? e = some r')
    (h : r.milestones e = pre ++ m :: post) (hj : m.juncture = .begins) :
    ∃ here q later, Onset r pre m q ∧
      Works here m.run false (q.actionsOf m.run) m.runner later r' := by
  have there : m ∈ r.milestones e := by
    rw [h]
    exact List.mem_append_right _ List.mem_cons_self
  have comes : .comes m ∈ r.occurrences e :=
    (mem_milestonesIn there).resolve_left (by rw [hj]; nofun)
  cases e with
  | deed here d =>
    cases d with
    | complete id =>
      obtain ⟨_, _, he⟩ := Option.map_eq_some_iff.mp (Option.mem_toList.mp comes)
      cases he
      cases hj
    | enroll phase => cases List.mem_singleton.mp comes
    | _ => cases comes
  | turn loop =>
    obtain ⟨id, loops, hl, resumed⟩ := resumes_of_comes comes
    have same : { r with loops := loops }.resume (some loop) id = r' :=
      Option.some.inj ((step?_of_next hl).symm.trans he)
    rw [same] at resumed
    obtain ⟨q, later, onset, works⟩ := onset_resumes resumed h hj
    have work : KeepsWork r { r with loops := loops } := .elsewhere rfl rfl rfl rfl
    have time : KeepsTime r { r with loops := loops } := .onLoops r (.take hl rfl)
    exact ⟨some loop, q, later, { onset with
      work := work.trans onset.work
      time := time.trans onset.time }, works⟩
  | _ => cases comes

end Onsets

end LoadGen.Runner
