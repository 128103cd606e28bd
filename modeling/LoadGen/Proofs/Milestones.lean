import LoadGen.Proofs.Frames

namespace LoadGen.Runner

/-- A phase asks for a session: the run that it gets, if it gets one. -/
def admissions (r : Runner) (phase : String) : List Milestone :=
  ((r.startSession phase).2.runs.drop r.runs.length).map fun run => ⟨run, .admitted, r⟩

/-- The milestones among what comes to pass. -/
def milestonesIn (log : List Occurrence) : List Milestone :=
  log.flatMap fun
    | .asks phase r => r.admissions phase
    | .comes m => [m]

/-- The milestones that a happening brings, in order. -/
def milestones (r : Runner) (e : Happening) : List Milestone := milestonesIn (r.occurrences e)

theorem milestonesIn_append (log later : List Occurrence) :
    milestonesIn (log ++ later) = milestonesIn log ++ milestonesIn later := List.flatMap_append ..

theorem milestonesIn_asks (phase : String) (r : Runner) :
    milestonesIn [.asks phase r] = r.admissions phase := List.append_nil _

theorem milestonesIn_comes (m : Milestone) (log : List Occurrence) :
    milestonesIn (.comes m :: log) = m :: milestonesIn log := rfl

theorem mem_milestonesIn {log : List Occurrence} {m : Milestone} (h : m ∈ milestonesIn log) :
    m.juncture = .admitted ∨ .comes m ∈ log := by
  obtain ⟨o, ho, hm⟩ := List.mem_flatMap.mp h
  cases o with
  | asks phase r =>
    obtain ⟨_, _, rfl⟩ := List.mem_map.mp hm
    exact .inl rfl
  | comes m' =>
    cases List.mem_singleton.mp hm
    exact .inr ho

/-- Where a run stands between two happenings, without regard to what it waits for. -/
inductive Station
  /-- There is no such run yet. -/
  | unborn
  /-- An iteration is to begin. -/
  | ready (core : Run)
  /-- An iteration is under way. -/
  | working (core : Run)
  | past

def Station.ofRun (run : Run) : Station :=
  match run.point with
  | .fresh => .ready run.core
  | _ => .working run.core

def station (r : Runner) (id : Nat) : Station :=
  match r.runs.find? (·.id == id) with
  | some run => .ofRun run
  | none => if id < r.runCount then .past else .unborn

namespace Station

/-- What a milestone does to a run. -/
inductive Next : Station → Milestone → Station → Prop
  | admitted {run : Run} {r : Runner} :
      r.status? run.phase = some .running → Next .unborn ⟨run, .admitted, r⟩ (.ready run.core)
  | begins {run : Run} {r : Runner} :
      (r.status? run.phase).any Status.isTerminating = false →
        Next (.ready run.core) ⟨run, .begins, r⟩ (.working run.core)
  /-- The run goes on with another iteration. -/
  | again {run : Run} {r : Runner} :
      r.goesOn run = true → Next (.working run.core) ⟨run, .succeeds, r⟩ (.ready run.core)
  | succeeds {run : Run} {r : Runner} :
      r.goesOn run = false → Next (.working run.core) ⟨run, .succeeds, r⟩ .past
  | fails {run : Run} {f : Failure} {r : Runner} :
      Next (.working run.core) ⟨run, .fails f, r⟩ .past
  | stopped {s : Station} {run : Run} {j : Juncture} {r : Runner} :
      s = .ready run.core ∨ s = .working run.core → j = .interrupted ∨ j = .dropped →
        Next s ⟨run, j, r⟩ .past

/-- Milestones take a run from one station to another. -/
inductive Path : Station → List Milestone → Station → Prop
  | refl (s : Station) : Path s [] s
  | step {s s₁ s' : Station} {m : Milestone} {ms : List Milestone} :
      Next s m s₁ → Path s₁ ms s' → Path s (m :: ms) s'

/-- How many iterations may begin if none is repeated. -/
def budget : Station → Nat
  | unborn => 1
  | ready _ => 1
  | working _ => 0
  | past => 0

variable {s s₁ s' : Station} {m : Milestone} {ms ms' : List Milestone} {c : Run}

theorem Path.one (h : Next s m s') : Path s [m] s' := .step h (.refl s')

theorem Path.trans (h : Path s ms s₁) (k : Path s₁ ms' s') : Path s (ms ++ ms') s' := by
  induction h with
  | refl => exact k
  | step hn _ ih => exact .step hn (ih k)

theorem Path.of_past (h : Path .past ms s') : ms = [] := by
  cases h with
  | refl => rfl
  | step hn _ =>
    cases hn with
    | stopped hs => rcases hs with hs | hs <;> cases hs

/-- A run at one of its stations comes to a milestone of its own, and then to a station of its own
or to its end. -/
theorem Next.core (h : Next s m s') (hs : s = .ready c ∨ s = .working c) :
    m.run.core = c ∧ (s' = .ready c ∨ s' = .working c ∨ s' = .past) := by
  cases h with
  | admitted => rcases hs with hs | hs <;> cases hs
  | begins =>
    obtain hs | hs := hs <;> cases hs
    exact ⟨rfl, .inr (.inl rfl)⟩
  | again =>
    obtain hs | hs := hs <;> cases hs
    exact ⟨rfl, .inl rfl⟩
  | succeeds | fails =>
    obtain hs | hs := hs <;> cases hs
    exact ⟨rfl, .inr (.inr rfl)⟩
  | stopped held =>
    refine ⟨?_, .inr (.inr rfl)⟩
    obtain rfl | rfl := hs <;> obtain hs | hs := held <;> cases hs <;> rfl

theorem Path.core (h : Path s ms s') (hs : s = .ready c ∨ s = .working c) :
    (∀ m ∈ ms, m.run.core = c) ∧ (s' = .ready c ∨ s' = .working c ∨ s' = .past) := by
  induction h with
  | refl => exact ⟨fun _ hm => absurd hm List.not_mem_nil, hs.imp_right .inl⟩
  | @step s s₁ s' m ms hn k ih =>
    obtain ⟨hm, after⟩ := hn.core hs
    rcases after with rfl | rfl | rfl
    · obtain ⟨rest, last⟩ := ih (.inl rfl)
      exact ⟨List.forall_mem_cons.mpr ⟨hm, rest⟩, last⟩
    · obtain ⟨rest, last⟩ := ih (.inr rfl)
      exact ⟨List.forall_mem_cons.mpr ⟨hm, rest⟩, last⟩
    · obtain rfl := k.of_past
      cases k
      exact ⟨List.forall_mem_singleton.mpr hm, .inr (.inr rfl)⟩

theorem Path.admission (h : Path .unborn ms s') :
    (ms = [] ∧ s' = .unborn) ∨ ∃ a rest, ms = a :: rest ∧ a.juncture = .admitted ∧
      (∀ m ∈ ms, m.run.core = a.run.core) ∧
        (s' = .ready a.run.core ∨ s' = .working a.run.core ∨ s' = .past) := by
  cases h with
  | refl => exact .inl ⟨rfl, rfl⟩
  | step hn k =>
    cases hn with
    | @admitted run r _ =>
      obtain ⟨rest, last⟩ := k.core (c := run.core) (.inl rfl)
      exact .inr ⟨_, _, rfl, rfl, List.forall_mem_cons.mpr ⟨rfl, rest⟩, last⟩
    | stopped hs => rcases hs with hs | hs <;> cases hs

theorem Path.guarded (h : Path s ms s') : ∀ m ∈ ms,
    (m.juncture = .admitted → m.runner.status? m.run.phase = some .running) ∧
      (m.juncture = .begins → (m.runner.status? m.run.phase).any Status.isTerminating = false) := by
  induction h with
  | refl => exact fun _ hm => absurd hm List.not_mem_nil
  | step hn _ ih =>
    refine List.forall_mem_cons.mpr ⟨?_, ih⟩
    cases hn with
    | admitted hr => exact ⟨fun _ => hr, nofun⟩
    | begins hr => exact ⟨nofun, fun _ => hr⟩
    | again | succeeds | fails => exact ⟨nofun, nofun⟩
    | stopped _ hj => rcases hj with rfl | rfl <;> exact ⟨nofun, nofun⟩

/-- A run that does not repeat begins one iteration at most, and one exactly if nothing stops it. -/
theorem Path.begun (h : Path s ms s')
    (once : ∀ m ∈ ms, m.juncture = .succeeds → m.runner.goesOn m.run = false) :
    ms.countP (·.juncture = .begins) + s'.budget ≤ s.budget ∧
      ((∀ m ∈ ms, m.juncture ≠ .interrupted ∧ m.juncture ≠ .dropped) →
        ms.countP (·.juncture = .begins) + s'.budget = s.budget) := by
  induction h with
  | refl => exact ⟨by simp, fun _ => by simp⟩
  | @step s s₁ s' m ms hn k ih =>
    obtain ⟨first, rest⟩ := List.forall_mem_cons.mp once
    obtain ⟨le, eq⟩ := ih rest
    rw [List.countP_cons]
    cases hn with
    | admitted =>
      refine ⟨by simpa [budget] using le, fun calm => ?_⟩
      simpa [budget] using eq (List.forall_mem_cons.mp calm).2
    | begins =>
      simp only [budget] at le eq ⊢
      refine ⟨by simp only [decide_true, if_true]; omega, fun calm => ?_⟩
      have eq := eq (List.forall_mem_cons.mp calm).2
      simp only [decide_true, if_true]
      omega
    | again hg => exact absurd hg (by simpa using first rfl)
    | succeeds | fails =>
      refine ⟨by simpa [budget] using le, fun calm => ?_⟩
      simpa [budget] using eq (List.forall_mem_cons.mp calm).2
    | stopped hs hj =>
      obtain rfl := k.of_past
      cases k
      refine ⟨by rcases hj with rfl | rfl <;> simp [budget], fun calm => ?_⟩
      obtain ⟨⟨ni, nd⟩, _⟩ := List.forall_mem_cons.mp calm
      exact (hj.elim ni nd).elim

/-- A run is ready for an iteration because it was just admitted, or because it goes on. -/
theorem Path.readied (h : Path s ms (.ready c)) : (ms = [] ∧ s = .ready c) ∨
    ∃ init m, ms = init ++ [m] ∧ (m.juncture = .admitted ∨
      (m.juncture = .succeeds ∧ m.runner.goesOn m.run = true)) := by
  generalize he : Station.ready c = s' at h
  induction h with
  | refl =>
    subst he
    exact .inl ⟨rfl, rfl⟩
  | @step s s₁ s' m ms hn k ih =>
    right
    rcases ih he with ⟨rfl, rfl⟩ | ⟨init, last, rfl, hl⟩
    · refine ⟨[], m, rfl, ?_⟩
      subst he
      cases hn with
      | admitted => exact .inl rfl
      | again hg => exact .inr ⟨rfl, hg⟩
    · exact ⟨m :: init, last, rfl, hl⟩

theorem Path.ready_of_begins (h : Path s (ms ++ m :: ms') s') (hm : m.juncture = .begins) :
    Path s ms (.ready m.run.core) := by
  induction ms generalizing s with
  | nil =>
    cases h with
    | step hn _ =>
      cases hn with
      | begins => exact .refl _
      | stopped _ hj =>
        subst hm
        rcases hj with hj | hj <;> cases hj
      | _ => cases hm
  | cons a ms ih =>
    cases h with
    | step hn k => exact .step hn (ih k)

end Station

end LoadGen.Runner
