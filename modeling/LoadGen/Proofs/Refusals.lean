import LoadGen.Proofs.Incidents
import LoadGen.Proofs.IntermediateStates
import LoadGen.Runner.Attempts

namespace LoadGen.Runner

variable {r r' : Runner} {name : String} {i : Instance}

section Checks

theorem record_hires {log : List Occurrence} (h : Hires name r log r') : SameRecord r r' := by
  induction h with
  | refl => exact .refl _
  | asks => exact record_answers (answers ..)
  | sets => exact (@aside_pacers nobody ..).record
  | calls => exact (@Aside.push nobody _ 0 _ rfl rfl).record
  | arms due => exact (@Aside.armAt nobody _ 0 due (.pace name) rfl fun _ => nofun).record
  | trans _ _ ih later => exact ih.trans later

theorem record_startSessions (phase : String) (n : Nat) (r : Runner) :
    SameRecord r (startSessions phase n r) := record_hires (hires_startSessions phase n r)

theorem instance_enterGroup (r : Runner) (key phase other : String) :
    (r.enterGroup key phase).instances.get? other = r.instances.get? other ∧
      (r.enterGroup key phase).now = r.now := by
  obtain ⟨loops, he⟩ := enterGroup_eq r key phase
  rw [he]
  exact ⟨rfl, rfl⟩

theorem status?_begun (r : Runner) (hi : r.instances.get? name = some i) {s : Standing}
    (running : s.status = .running) : (r.move none name s).status? name = some .running := by
  rw [status?, instances_move]
  simp [Runner.modifyInstance, hi, running]

end Checks

section Orders

theorem attemptFinish_of_running (h : r.status? name = some .running) :
    (r.attemptFinish name).1 = .ok none := by
  obtain ⟨i, hi, hs⟩ := Option.map_eq_some_iff.mp h
  simp only [attemptFinish, hi, Standing.finish, hs]

theorem attemptLaunch_of_running (h : r.status? name = some .running) (model : Model) :
    (r.attemptLaunch name model).1 = .ok none := by
  cases model with
  | noop => rfl
  | always => rfl
  | paced => rfl
  | atOnce users =>
    apply attemptFinish_of_running
    rw [(record_startSessions name users r).status?_eq, h]

theorem attemptRun_of_notStarted (hi : r.instances.get? name = some i)
    (h : i.standing.status = .notStarted) : (r.attemptRun name).1 = .ok none := by
  simp only [attemptRun, hi, Standing.start, h, if_true]
  exact attemptLaunch_of_running (status?_begun r hi rfl) _

theorem attemptStart_of_notStarted (hi : r.instances.get? name = some i)
    (h : i.standing.status = .notStarted) : (r.attemptStart name).1 = .ok none := by
  simp only [attemptStart, hi, h, if_true]
  split
  · rename_i key _ _
    exact attemptRun_of_notStarted ((instance_enterGroup r key name name).1.trans hi) h
  · exact attemptRun_of_notStarted hi h

end Orders

/-- An attempt that was carried out, or refused with nothing done. -/
def attempted (r : Runner) : Except Failure (Option Bool × Runner) → Attempt
  | .ok (answer, r') => (.ok answer, r')
  | .error f => (.error f, r)

section Agreement

theorem attemptFinish_eq (r : Runner) (name : String) :
    r.attemptFinish name = r.attempted ((r.finish name).map (none, ·)) := by
  unfold attemptFinish finish instance?
  cases r.instances.get? name with
  | none => rfl
  | some i =>
    simp only [bind, Except.bind]
    cases i.standing.finish name r.now <;> rfl

/-- It makes no difference what a refusal would take back: there is none. -/
theorem attemptLaunch_eq (h : r.status? name = some .running) (model : Model) (r₀ : Runner) :
    r.attemptLaunch name model = r₀.attempted ((r.launch name model).map (none, ·)) := by
  cases model with
  | noop => rfl
  | always => rfl
  | paced => rfl
  | atOnce users =>
    have running := (record_startSessions name users r).status?_eq name |>.trans h
    have done := attemptFinish_of_running running
    simp only [attemptLaunch, launch, attemptFinish_eq] at done ⊢
    cases hf : (startSessions name users r).finish name with
    | ok r' => rfl
    | error f =>
      rw [hf] at done
      cases done

/-- A start comes to the same if what was done until its second check is lost with a refusal. -/
theorem attemptStart_eq (r : Runner) (name : String) :
    r.attemptStart name = r.attempted ((r.start name).map (none, ·)) := by
  unfold attemptStart start begin instance?
  cases hi : r.instances.get? name with
  | none => rfl
  | some i =>
    simp only [bind, Except.bind, pure, Except.pure]
    by_cases hs : i.standing.status = .notStarted
    · simp only [hs, if_true, Standing.start]
      cases r.groupOf? i.phase with
      | none =>
        simp only [attemptRun, hi, Standing.start, hs, if_true]
        exact attemptLaunch_eq (by exact status?_begun r hi rfl) _ r
      | some held =>
        obtain ⟨same, now⟩ := instance_enterGroup r held.1 name name
        simp only [attemptRun, same.trans hi, now, Standing.start, hs, if_true]
        exact attemptLaunch_eq (by exact status?_begun _ (same.trans hi) rfl) _ r
    · simp only [Standing.start, hs, if_false]
      rfl

theorem attemptTryTerminate_eq (r : Runner) (name : String) :
    r.attemptTryTerminate name =
      r.attempted ((r.tryTerminate name).map fun p => (some p.1, p.2)) := by
  unfold attemptTryTerminate tryTerminate instance?
  cases r.instances.get? name with
  | none => rfl
  | some i =>
    simp only [bind, Except.bind]
    cases i.standing.tryTerminate r.now <;> rfl

theorem attemptTerminate_eq (r : Runner) (name : String) :
    r.attemptTerminate name = r.attempted ((r.terminate name).map (none, ·)) := by
  unfold attemptTerminate terminate instance?
  cases r.instances.get? name <;> rfl

end Agreement

section Orders

/-- Nothing is known of a phase that is not in play, whatever it is ordered to do. -/
theorem order_unknown (hi : r.instances.get? name = none) (o : Order) :
    r.order name o = (.error (.unknownPhase name), r) := by
  cases o <;> simp only [order, attemptStart, attemptFinish, attemptTryTerminate,
    attemptTerminate, hi]

theorem order_start_again (hi : r.instances.get? name = some i)
    (h : i.standing.status ≠ .notStarted) :
    r.order name .start = (.error (.invalidTransition name i.standing.status .running), r) := by
  simp only [order, attemptStart, hi, h, if_false]

theorem order_finish_early (hi : r.instances.get? name = some i)
    (h : i.standing.status = .notStarted) :
    r.order name .finish = (.error (.invalidTransition name .notStarted .finished), r) := by
  simp only [order, attemptFinish, hi, Standing.finish, h]

/-- A phase that was started can be finished, also if that comes to nothing. -/
theorem order_finish_started (hi : r.instances.get? name = some i)
    (h : i.standing.status ≠ .notStarted) : (r.order name .finish).1 = .ok none := by
  simp only [order, attemptFinish, hi, Standing.finish]
  cases hs : i.standing.status <;> simp_all

theorem order_tryTerminate_known (hi : r.instances.get? name = some i) :
    ∃ ended, (r.order name .tryTerminate).1 = .ok (some ended) := by
  simp only [order, attemptTryTerminate, hi]
  split <;> exact ⟨_, rfl⟩

theorem order_terminate_known (hi : r.instances.get? name = some i) :
    (r.order name .terminate).1 = .ok none := by
  simp only [order, attemptTerminate, hi]

theorem order_refused {o : Order} {f : Failure} (h : (r.order name o).1 = .error f) :
    (r.order name o).2 = r := by
  cases hi : r.instances.get? name with
  | none => rw [order_unknown hi]
  | some i =>
    cases o with
    | start =>
      by_cases hs : i.standing.status = .notStarted
      · cases (attemptStart_of_notStarted hi hs).symm.trans h
      · rw [order_start_again hi hs]
    | finish =>
      by_cases hs : i.standing.status = .notStarted
      · rw [order_finish_early hi hs]
      · cases (order_finish_started hi hs).symm.trans h
    | tryTerminate =>
      obtain ⟨ended, he⟩ := order_tryTerminate_known hi
      cases he.symm.trans h
    | terminate => cases (order_terminate_known hi).symm.trans h

end Orders

/-- The orders to a name fail for one reason only if no phase has it: it is unknown. A phase that has
it refuses a start unless it has not started, a finish if it has not, and nothing else. Whatever is
refused leaves the runner as it was, with all its phases, groups, loops and notices. -/
theorem refusals (r : Runner) (name : String) :
    (∀ o, (r.order name o).1 = .error (.unknownPhase name) ↔ r.instances.get? name = none) ∧
    (∀ i, r.instances.get? name = some i →
      (∀ f, (r.order name .start).1 = .error f ↔ i.standing.status ≠ .notStarted ∧
        f = .invalidTransition name i.standing.status .running) ∧
      (∀ f, (r.order name .finish).1 = .error f ↔ i.standing.status = .notStarted ∧
        f = .invalidTransition name .notStarted .finished) ∧
      (∀ f, (r.order name .tryTerminate).1 ≠ .error f) ∧
      ∀ f, (r.order name .terminate).1 ≠ .error f) ∧
    ∀ o f, (r.order name o).1 = .error f → (r.order name o).2 = r := by
  have started : ∀ i, r.instances.get? name = some i → ∀ f,
      (r.order name .start).1 = .error f ↔ i.standing.status ≠ .notStarted ∧
        f = .invalidTransition name i.standing.status .running := by
    intro i hi f
    by_cases hs : i.standing.status = .notStarted
    · rw [show (r.order name .start).1 = .ok none from attemptStart_of_notStarted hi hs]
      simp [hs]
    · rw [order_start_again hi hs]
      simp [hs, eq_comm]
  have finished : ∀ i, r.instances.get? name = some i → ∀ f,
      (r.order name .finish).1 = .error f ↔ i.standing.status = .notStarted ∧
        f = .invalidTransition name .notStarted .finished := by
    intro i hi f
    by_cases hs : i.standing.status = .notStarted
    · rw [order_finish_early hi hs]
      simp [hs, eq_comm]
    · rw [order_finish_started hi hs]
      simp [hs]
  have tried : ∀ i, r.instances.get? name = some i → ∀ f,
      (r.order name .tryTerminate).1 ≠ .error f := by
    intro i hi f h
    obtain ⟨ended, he⟩ := order_tryTerminate_known hi
    cases he.symm.trans h
  have terminated : ∀ i, r.instances.get? name = some i → ∀ f,
      (r.order name .terminate).1 ≠ .error f :=
    fun i hi f h => nomatch (order_terminate_known hi).symm.trans h
  refine ⟨fun o => ⟨fun h => ?_, fun h => by rw [order_unknown h]⟩,
    fun i hi => ⟨started i hi, finished i hi, tried i hi, terminated i hi⟩,
    fun o f => order_refused⟩
  cases hi : r.instances.get? name with
  | none => rfl
  | some i =>
    cases o with
    | start => cases ((started i hi _).mp h).2
    | finish => cases ((finished i hi _).mp h).2
    | tryTerminate => exact absurd h (tried i hi _)
    | terminate => exact absurd h (terminated i hi _)

end LoadGen.Runner
