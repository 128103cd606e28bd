import LoadGen.Proofs.Demand
import LoadGen.Proofs.Onsets

namespace LoadGen.Runner

variable {r r₁ r' : Runner} {log log' : List Milestone} {run : Run}

section Happenings

theorem follows_resumes {here : Option Nat} {id : Nat} {told : List Occurrence} (hn : r.Numbered)
    (h : Resumes here id r told r') : Follows r (milestonesIn told) r' := by
  rcases comesTo_resumes h with ⟨none, rfl⟩ | ⟨run, found, _, came⟩
  · rw [none]
    exact .still hn (.refl _)
  · exact came.follows hn found

theorem follows_carryOut (hn : r.Numbered) {here : Option Nat} {d : Deed}
    (h : r.carryOut here d = .ok r') : Follows r (r.milestones (.deed here d)) r' := by
  cases does h with
  | begin h => exact .still hn (keepsWork_begin h).toSameRuns
  | finish | tryTerminate | terminate => exact .still hn (routine_moveIf ..).keepsWork.toSameRuns
  | fail => exact .still hn (routine_failPhase ..).keepsWork.toSameRuns
  | enroll phase => exact (admits_asks phase r).follows hn
  | @complete run found =>
    rw [milestones_complete here found]
    refine (moves_unwind here hn found.mem).follows (List.forall_mem_singleton.mpr rfl) ?_
    rw [found.station]
    exact .one (.stopped (Station.ofRun_cases run) (.inr rfl))

theorem follows_turn (hn : r.Numbered) {loop : Nat} (h : r.step? loop = some r') :
    Follows r (r.milestones (.turn loop)) r' := by
  obtain ⟨t, loops, hl, rfl⟩ := step?_eq_some h
  have taken : SameRuns r { r with loops := loops } := ⟨rfl, rfl⟩
  have after : ∀ {log} {q : Runner}, Follows { r with loops := loops } log q → Follows r log q :=
    fun k => (Follows.still hn taken).trans k
  simp only [milestones, occurrences_of_next hl]
  cases t with
  | resume id => exact after (follows_resumes (taken.numbered hn) (resumes (some loop) id _))
  | pace phase => exact after ((admits_paces (paces phase _)).follows (taken.numbered hn))
  | expire request => exact .still hn (taken.trans (onRequests_expire ..).sameRuns)
  | stamp | «seal» | announce | read | prune =>
    exact .still hn (taken.trans (routine_perform loop _ rfl).keepsWork.toSameRuns)

theorem follows_openGate (hn : r.Numbered) (hi : (r.runs.map (·.id)).Nodup) {session : Nat}
    {f : Option Failure} (h : r.openGate session f = some r') : Follows r [] r' := by
  obtain ⟨run, hm, _, rest, waits, rfl⟩ := openGate_eq_some h
  have found := finds_of_mem hi hm
  have opened := moves_setPoint hn found (.opened f rest)
  have stands : r.station run.id = .working run.core := by
    rw [found.station, Station.ofRun, waits]
  have path : Station.Path (r.station run.id) [] (.working run.core) := stands ▸ .refl _
  exact (opened.follows (List.forall_mem_nil _) path).trans (.still opened.numbered ⟨rfl, rfl⟩)

theorem follows_after (hn : r.Numbered) (hi : (r.runs.map (·.id)).Nodup) {e : Happening}
    (h : r.after? e = some r') : Follows r (r.milestones e) r' := by
  cases e with
  | deed here d => exact follows_carryOut hn (toOption_eq_some.mp h)
  | pace phase => cases h; exact .still hn (routine_startPacer r phase).keepsWork.toSameRuns
  | exceedLimit phase =>
    obtain ⟨i, _, hi⟩ := bind_eq_ok.mp (toOption_eq_some.mp h)
    cases hi
    exact .still hn ⟨rfl, rfl⟩
  | turn loop => exact follows_turn hn h
  | openGate session f => exact follows_openGate hn hi h
  | openConnections => cases h; exact .still hn (routine_openConnections r).keepsWork.toSameRuns
  | command id c => exact .still hn (onRequests_command (toOption_eq_some.mp h)).sameRuns
  | beginSurvey recent => cases h; exact .still hn (routine_beginSurvey r recent).keepsTime.sameRuns
  | beginPruning => cases h; exact .still hn (routine_beginPruning r).keepsTime.sameRuns
  | phasePoolStats phase =>
    obtain ⟨⟨stats, r₁⟩, hs, he⟩ := Option.map_eq_some_iff.mp h
    cases he
    exact .still hn (keepsTime_phasePoolStats (toOption_eq_some.mp hs)).sameRuns
  | advance | clock | createRequest | letGo | addConnection | poolStats =>
    cases h
    exact .still hn ⟨rfl, rfl⟩

end Happenings

section Declared

/-- The phases stand where a run comes to a turning point as they stood at the beginning of the
turn. -/
theorem instances_works {here : Option Nat} {early : Bool} {actions : List Action}
    {told : List Occurrence} (h : Works here run early actions r told r') :
    ∀ m, .comes m ∈ told → m.runner.instances = r.instances := by
  induction h with
  | waits => exact fun _ hm => by cases hm
  | fails h | ends h | putsOff h =>
    intro m hm
    cases List.mem_singleton.mp hm
    exact h.routine.instances
  | again h _ _ ih =>
    intro m hm
    simp only [List.mem_cons, Occurrence.comes.injEq] at hm
    rcases hm with rfl | rfl | hm
    · exact h.routine.instances
    · exact h.routine.instances
    · exact (ih m hm).trans h.routine.instances

theorem instances_resumes {here : Option Nat} {id : Nat} {told : List Occurrence}
    (h : Resumes here id r told r') : ∀ m, .comes m ∈ told → m.runner.instances = r.instances := by
  cases h with
  | nobody => exact fun _ hm => by cases hm
  | stays => exact fun _ hm => by cases hm
  | interrupted | fails =>
    intro m hm
    cases List.mem_singleton.mp hm
    rfl
  | begins _ _ _ h =>
    intro m hm
    rcases List.mem_cons.mp hm with same | hm
    · cases same
      rfl
    · exact instances_works h m hm
  | carriesOn _ _ h => exact instances_works h

theorem instances_milestones {e : Happening} {m : Milestone} (h : m ∈ r.milestones e)
    (hj : m.juncture ≠ .admitted) : m.runner.instances = r.instances := by
  have comes := (mem_milestonesIn h).resolve_left hj
  cases e with
  | deed here d =>
    cases d with
    | complete id =>
      obtain ⟨_, _, he⟩ := Option.map_eq_some_iff.mp (Option.mem_toList.mp comes)
      cases he
      rfl
    | enroll phase => cases List.mem_singleton.mp comes
    | _ => cases comes
  | turn loop =>
    obtain ⟨id, loops, _, resumed⟩ := resumes_of_comes comes
    exact instances_resumes resumed m comes
  | _ => cases comes

end Declared

section Courses
variable {r₀ : Runner} {es : List Happening}

theorem Course.follows (h₀ : r₀.Initial) (h : Course r₀ es r) :
    Follows r₀ (r₀.trail milestones es) r := by
  have owned₀ := (Course.refl (r := r₀)).owned h₀
  induction h with
  | refl => exact .still owned₀.numbered (.refl r₀)
  | next hc _ he ih =>
    rw [hc.trail_next milestones he]
    exact ih.trans (follows_after ih.numbered (hc.owned h₀).ids he)

theorem Course.story (h₀ : r₀.Initial) (h : Course r₀ es r) (id : Nat) :
    Station.Path .unborn (storyOf id (r₀.trail milestones es)) (r.station id) := by
  have path := (h.follows h₀).path id
  have unborn : r₀.station id = .unborn := by
    simp [station, (fresh_of_initial h₀).runs, (unused_of_initial h₀).2]
  rwa [unborn] at path

/-- Whether a phase is declared to repeat its iterations. -/
def repeated (phases : List Phase) (name : String) : Bool :=
  (phases.find? (·.name == name)).any (·.model.repeats)

theorem Course.goesOn (h₀ : r₀.Initial) (h : Course r₀ es r) {m : Milestone}
    (hm : m ∈ r₀.trail milestones es) (hj : m.juncture ≠ .admitted)
    (hg : m.runner.goesOn m.run = true) : repeated r₀.phases m.run.phase = true := by
  induction h with
  | refl => cases hm
  | @next es e q q' hc _ he ih =>
    rw [hc.trail_next milestones he] at hm
    rcases List.mem_append.mp hm with hm | hm
    · exact ih hm
    · unfold Runner.goesOn at hg
      rw [instances_milestones hm hj] at hg
      split at hg
      · rename_i i hi
        rw [repeated, (hc.declared h₀).listed _ i hi]
        exact (Bool.and_eq_true_iff.mp hg).1
      · cases hg

/-- How many iterations of a run have begun. -/
def begun (id : Nat) (log : List Milestone) : Nat := (storyOf id log).countP (·.juncture = .begins)

def Undisturbed (id : Nat) (log : List Milestone) : Prop :=
  ∀ m ∈ storyOf id log, m.juncture ≠ .interrupted ∧ m.juncture ≠ .dropped

/-- Sessions are admitted and iterations begin as they should, where the phases were declared like
this. -/
structure Orderly (phases : List Phase) (r : Runner) (log : List Milestone) : Prop where
  /-- Only a running phase admits a session. -/
  admitted : ∀ m ∈ log, m.juncture = .admitted → m.runner.status? m.run.phase = some .running
  /-- Nobody has a run who was not admitted. -/
  manned : ∀ run ∈ r.runs, ∃ m ∈ log, m.juncture = .admitted ∧ m.run.core = run.core
  /-- No iteration begins when its phase is terminating, or terminated. -/
  begins : ∀ m ∈ log, m.juncture = .begins →
    ∀ s, m.runner.status? m.run.phase = some s → s.isTerminating = false
  /-- A run of a phase that does not repeat begins one iteration at most. -/
  once : ∀ m ∈ log, repeated phases m.run.phase = false → begun m.run.id log ≤ 1
  /-- When it has come to its own end, it has begun one. -/
  ended : ∀ m ∈ log, repeated phases m.run.phase = false →
    (∀ run ∈ r.runs, run.id ≠ m.run.id) → Undisturbed m.run.id log → begun m.run.id log = 1
  /-- An iteration is the first one of its run, or comes after one that succeeded while the phase
  was running, which repeats its iterations. -/
  again : ∀ earlier m later, log = earlier ++ m :: later → m.juncture = .begins →
    ∃ last, (storyOf m.run.id earlier).getLast? = some last ∧ last.run.core = m.run.core ∧
      (last.juncture = .admitted ∨ (last.juncture = .succeeds ∧
        last.runner.status? m.run.phase = some .running ∧ repeated phases m.run.phase = true))

theorem mem_storyOf {id : Nat} {m : Milestone} : m ∈ storyOf id log ↔ m ∈ log ∧ m.run.id = id := by
  simp [storyOf]

theorem Course.core_eq (h₀ : r₀.Initial) (h : Course r₀ es r) {a b : Milestone}
    (ha : a ∈ r₀.trail milestones es) (hb : b ∈ r₀.trail milestones es)
    (hid : a.run.id = b.run.id) : a.run.core = b.run.core := by
  have ha := mem_storyOf.mpr ⟨ha, hid⟩
  have hb := mem_storyOf.mpr ⟨hb, rfl⟩
  rcases (h.story h₀ b.run.id).admission with ⟨none, _⟩ | ⟨first, _, _, _, same, _⟩
  · rw [none] at ha
    cases ha
  · rw [same a ha, same b hb]

theorem Course.once (h₀ : r₀.Initial) (h : Course r₀ es r) {m : Milestone}
    (hm : m ∈ r₀.trail milestones es) (hr : repeated r₀.phases m.run.phase = false) :
    ∀ x ∈ storyOf m.run.id (r₀.trail milestones es), x.juncture = .succeeds →
      x.runner.goesOn x.run = false := by
  intro x hx hj
  obtain ⟨hx, hid⟩ := mem_storyOf.mp hx
  refine Bool.eq_false_iff.mpr fun hg => ?_
  obtain ⟨_, _, phase⟩ := Run.core_eq (h.core_eq h₀ hx hm hid)
  have again := h.goesOn h₀ hx (by rw [hj]; decide) hg
  rw [phase, hr] at again
  cases again

/-- The run that begins an iteration was just admitted, or an iteration of it has just succeeded. -/
theorem Course.previous (h₀ : r₀.Initial) (h : Course r₀ es r) {earlier later : List Milestone}
    {m : Milestone} (hl : r₀.trail milestones es = earlier ++ m :: later)
    (hj : m.juncture = .begins) :
    ∃ last, (storyOf m.run.id earlier).getLast? = some last ∧ last.run.core = m.run.core ∧
      (last.juncture = .admitted ∨ (last.juncture = .succeeds ∧
        last.runner.status? m.run.phase = some .running ∧
          repeated r₀.phases m.run.phase = true)) := by
  have split : storyOf m.run.id (r₀.trail milestones es) =
      storyOf m.run.id earlier ++ m :: storyOf m.run.id later := by
    rw [hl, storyOf_append]
    simp [storyOf]
  have story := h.story h₀ m.run.id
  rw [split] at story
  rcases (story.ready_of_begins hj).readied with ⟨_, no⟩ | ⟨init, last, he, hlast⟩
  · cases no
  · have mine : last ∈ storyOf m.run.id earlier := by
      rw [he]
      exact List.mem_append_right _ (List.mem_singleton_self last)
    obtain ⟨there, hid⟩ := mem_storyOf.mp mine
    have there : last ∈ r₀.trail milestones es := hl ▸ List.mem_append_left _ there
    have here : m ∈ r₀.trail milestones es := by
      rw [hl]
      exact List.mem_append_right _ List.mem_cons_self
    have core := h.core_eq h₀ there here hid
    obtain ⟨_, _, phase⟩ := Run.core_eq core
    refine ⟨last, by rw [he, List.getLast?_concat], core, hlast.imp_right fun ⟨hs, hg⟩ => ?_⟩
    rw [← phase]
    exact ⟨hs, goesOn_running hg, h.goesOn h₀ there (by rw [hs]; decide) hg⟩

/-- Whatever happens to a runner, only running phases admit sessions, no iteration begins in a phase
that is terminating, and a run begins one iteration, or another one only if its phase repeats them
and was running when the last one succeeded. -/
theorem iterations_admitted (h₀ : r₀.Initial) (h : Course r₀ es r) :
    Orderly r₀.phases r (r₀.trail milestones es) where
  admitted := fun m hm => ((h.story h₀ m.run.id).guarded m (mem_storyOf.mpr ⟨hm, rfl⟩)).1
  manned := by
    intro run hm
    have stands := (finds_of_mem (h.owned h₀).ids hm).station
    rcases (h.story h₀ run.id).admission with ⟨_, unborn⟩ | ⟨a, rest, he, ha, _, last⟩
    · rw [stands, Station.ofRun] at unborn
      split at unborn <;> cases unborn
    · have there : a ∈ storyOf run.id (r₀.trail milestones es) := he ▸ List.mem_cons_self
      refine ⟨a, (mem_storyOf.mp there).1, ha, ?_⟩
      rw [stands, Station.ofRun] at last
      have same : run.core = a.run.core := by split at last <;> simpa using last
      exact same.symm
  begins := by
    intro m hm hj s hs
    have calm := ((h.story h₀ m.run.id).guarded m (mem_storyOf.mpr ⟨hm, rfl⟩)).2 hj
    rwa [hs] at calm
  once := by
    intro m hm hr
    exact Nat.le_trans (Nat.le_add_right ..) ((h.story h₀ m.run.id).begun (h.once h₀ hm hr)).1
  ended := by
    intro m hm hr gone calm
    have count := ((h.story h₀ m.run.id).begun (h.once h₀ hm hr)).2 calm
    have nobody : r.runs.find? (·.id == m.run.id) = none :=
      List.find?_eq_none.mpr fun run hrun => by simpa using gone run hrun
    rcases (h.story h₀ m.run.id).admission with ⟨none, _⟩ | ⟨a, _, _, _, _, last⟩
    · have there := mem_storyOf.mpr ⟨hm, rfl⟩
      rw [none] at there
      cases there
    · have past : r.station m.run.id = .past := by
        rw [station, nobody] at last ⊢
        dsimp only at last ⊢
        split at last
        · rw [if_pos ‹_›]
        · rcases last with last | last | last <;> cases last
      rw [past] at count
      exact count
  again := fun _ _ _ hl hj => h.previous h₀ hl hj

/-- A session waits at its gate, goes on when the gate is opened, and waits again when the phase is
finished. -/
theorem gate_iterations_admitted : ∃ es r, Course gateRunner es r ∧
    (gateRunner.trail milestones es).map (·.juncture) =
      [.admitted, .begins, .succeeds, .begins, .succeeds] ∧ r.runs.length = 0 ∧
    Orderly gateRunner.phases r (gateRunner.trail milestones es) := by
  have h := (Course.refl (r := gateRunner)).next (e := .deed none (.begin "login")) trivial rfl
  have h := h.next (e := .deed none (.enroll "login")) trivial rfl
  have h := h.next (e := .turn 0) (fun _ _ hl => by cases hl) rfl
  have h := h.next (e := .turn 0) (fun _ _ hl => by cases hl) rfl
  have h := h.next (e := .openGate 0 none) trivial rfl
  have h := h.next (e := .turn 0) (fun _ _ hl => by cases hl) rfl
  have h := h.next (e := .deed none (.finish "login")) trivial rfl
  have h := h.next (e := .openGate 0 none) trivial rfl
  have h := h.next (e := .turn 0) (fun _ _ hl => by cases hl) rfl
  exact ⟨_, _, h, rfl, rfl, iterations_admitted gateRunner_initial h⟩

end Courses

end LoadGen.Runner
