import LoadGen.Proofs.RunPositions

namespace LoadGen.Runner

variable {r r₁ r' : Runner} {log log' : List Milestone}

/-- There may be more sessions and more runs. A session that is new has nothing in flight. -/
structure Grows (r r' : Runner) : Prop where
  requests : r'.requests = r.requests
  inFlight : ∀ i, r'.inFlight? i = r.inFlight? i ∨
    (r.inFlight? i = none ∧ r'.inFlight? i = some [])
  runs : ∀ run ∈ r.runs, run ∈ r'.runs
  runCount : r.runCount ≤ r'.runCount

/-- Sessions are admitted, each with a run of its own. -/
structure Admits (r : Runner) (log : List Milestone) (r' : Runner) : Prop extends Grows r r' where
  admitted : ∀ m ∈ log, m.juncture = .admitted
  news : ∀ m ∈ log, r.runCount ≤ m.run.id
  follows : r.Numbered → Follows r log r'

theorem KeepsWork.grows (h : KeepsWork r r') : Grows r r' where
  requests := h.requests
  inFlight := fun i => .inl (h.inFlight i)
  runs := fun run hm => by rw [h.runs]; exact hm
  runCount := Nat.le_of_eq h.runCount.symm

theorem KeepsWork.admits (h : KeepsWork r r') : Admits r [] r' :=
  { h.grows with
    admitted := fun _ hm => absurd hm List.not_mem_nil
    news := fun _ hm => absurd hm List.not_mem_nil
    follows := fun hn => .still hn h.toSameRuns }

namespace Grows

theorem trans (h : Grows r r₁) (k : Grows r₁ r') : Grows r r' where
  requests := k.requests.trans h.requests
  inFlight := by
    intro i
    rcases k.inFlight i with same | ⟨gone, new⟩
    · rw [same]
      exact h.inFlight i
    · rcases h.inFlight i with same | ⟨_, no⟩
      · exact .inr ⟨same ▸ gone, new⟩
      · cases gone.symm.trans no
  runs := fun run hm => k.runs run (h.runs run hm)
  runCount := Nat.le_trans h.runCount k.runCount

theorem inStep {started : Nat → Prop} (k : Grows r r') (h : InStep r started) :
    InStep r' started := by
  have requests : ∀ id, r'.request? id = r.request? id := fun id => by
    rw [request?, k.requests]
    rfl
  have owner : ∀ id, r'.owner? id = r.owner? id := fun id => by rw [owner?, owner?, requests]
  refine ⟨fun id i ho => ?_, fun i l hl => ?_, fun i l hl id => ?_, fun id hs => ?_⟩
  · have there := h.placed id i ((owner id).symm.trans ho)
    rcases k.inFlight i with same | ⟨_, new⟩
    · rwa [same]
    · rw [new]
      rfl
  · rcases k.inFlight i with same | ⟨_, new⟩
    · exact h.nodup i l (same ▸ hl)
    · cases new.symm.trans hl
      exact List.nodup_nil
  · rw [owner]
    rcases k.inFlight i with same | ⟨gone, new⟩
    · exact h.mem_iff i l (same ▸ hl) id
    · cases new.symm.trans hl
      refine iff_of_false List.not_mem_nil fun owned => ?_
      have there := h.placed id i owned.1
      rw [gone] at there
      cases there
  · rw [requests]
    exact h.active id hs

end Grows

theorem Admits.trans (h : Admits r log r₁) (k : Admits r₁ log' r') : Admits r (log ++ log') r' :=
  { h.toGrows.trans k.toGrows with
    admitted := List.forall_mem_append.mpr ⟨h.admitted, k.admitted⟩
    news := List.forall_mem_append.mpr
      ⟨h.news, fun m hm => Nat.le_trans h.runCount (k.news m hm)⟩
    follows := fun hn => (h.follows hn).trans (k.follows (h.follows hn).numbered) }

theorem grows_newSession (r : Runner) {s : Session} (hs : s.inFlight = []) :
    Grows r { r with sessions := r.sessions ++ [s] } :=
  { (KeepsWork.refl r).grows with
    inFlight := by
      intro i
      simp only [inFlight?, session?]
      rcases Nat.lt_trichotomy i r.sessions.length with hlt | rfl | hgt
      · rw [List.getElem?_append_left hlt]
        exact .inl rfl
      · simp [hs]
      · rw [List.getElem?_eq_none (by simpa using Nat.succ_le_of_lt hgt),
          List.getElem?_eq_none (Nat.le_of_lt hgt)]
        exact .inl rfl }

theorem grows_acquire {key : String} {got : Option Nat} (h : r.acquire key = (got, r')) :
    Grows r r' := by
  have taken : ∀ pool, KeepsWork r (r.modifyGroup key fun g => { g with pool := pool }) :=
    fun _ => .elsewhere rfl rfl rfl rfl
  cases acquires h with
  | nowhere => exact (KeepsWork.refl r).grows
  | never => exact ((taken _).trans (routine_depleted ..).keepsWork).grows
  | anew => exact (taken _).grows.trans (grows_newSession _ rfl)
  | again => exact (taken _).grows

theorem grows_spawn (r : Runner) (session : Nat) (phase : String) :
    Grows r (r.spawn session phase) := by
  unfold spawn
  dsimp only
  split
  · exact { (KeepsWork.refl r).grows with
      runs := fun run hm => List.mem_append_left _ hm
      runCount := Nat.le_succ _ }
  · exact (KeepsWork.refl r).grows

theorem grows_answers {a : Answer} {phase : String} (h : Answers r phase a r') : Grows r r' := by
  cases h with
  | refused => exact (KeepsWork.refl r).grows
  | short _ _ _ ha => exact grows_acquire ha
  | @granted _ _ _ session r₁ _ _ _ ha =>
    have joined : KeepsWork r₁ (r₁.modifyInstance phase fun i =>
        { i with standing := i.standing.join }) := .elsewhere rfl rfl rfl rfl
    have bound := joined.trans (.modifySession _ session
      (f := fun s => { s with phase := some phase }) fun _ => rfl)
    exact (grows_acquire ha).trans (bound.grows.trans (grows_spawn ..))

/-- A phase gets no session, or one more run: then it runs, and the run is the next one. -/
theorem answers_cases {a : Answer} {phase : String} (h : Answers r phase a r') :
    SameRuns r r' ∨ ∃ run, r.status? phase = some .running ∧ run.id = r.runCount ∧
      run.phase = phase ∧ run.point = .fresh ∧ r'.runs = r.runs ++ [run] ∧
        r'.runCount = r.runCount + 1 := by
  cases h with
  | refused => exact .inl (.refl r)
  | short _ _ _ ha => exact .inl (keepsTime_acquire ha).sameRuns
  | @granted _ _ _ session r₁ hi _ running ha =>
    have taken := (keepsTime_acquire ha).sameRuns
    unfold employ spawn
    dsimp only
    split
    · refine .inr ⟨{ id := r.runCount, session := session, phase := phase }, ?_, rfl, rfl, rfl,
        ?_, ?_⟩
      · rw [status?, hi, ← running]
        rfl
      · rw [← taken.runs, ← taken.runCount]
        rfl
      · rw [← taken.runCount]
        rfl
    · exact .inl (taken.trans ⟨rfl, rfl⟩)

theorem moves_born {run : Run} (hn : r.Numbered) (hid : run.id = r.runCount)
    (fresh : run.point = .fresh) (runs : r'.runs = r.runs ++ [run])
    (count : r'.runCount = r.runCount + 1) : Moves run (.ready run.core) r r' where
  numbered := by
    intro other hm
    rw [runs] at hm
    rw [count]
    rcases List.mem_append.mp hm with hm | hm
    · exact Nat.lt_succ_of_lt (hn other hm)
    · rw [List.mem_singleton.mp hm, hid]
      exact Nat.lt_succ_self _
  mine := by
    rw [station, runs, List.find?_append, hid, hn.nobody]
    simp [Station.ofRun, fresh, hid]
  others := by
    intro id hne
    rw [station, station, runs, count, List.find?_append]
    have other : [run].find? (·.id == id) = none := by simpa using Ne.symm hne
    rw [other, Option.or_none]
    split
    · rfl
    · have le : id < r.runCount + 1 ↔ id < r.runCount := by omega
      simp only [le]

theorem admits_asks (phase : String) (r : Runner) :
    Admits r (milestonesIn [.asks phase r]) (r.startSession phase).2 := by
  rw [milestonesIn_asks]
  have grown := grows_answers (answers r phase)
  rcases answers_cases (answers r phase) with same | ⟨run, running, hid, rfl, fresh, runs, count⟩
  · have none : r.admissions phase = [] := by
      rw [admissions, same.runs, List.drop_length]
      rfl
    rw [none]
    exact { grown with
      admitted := fun _ hm => absurd hm List.not_mem_nil
      news := fun _ hm => absurd hm List.not_mem_nil
      follows := fun hn => .still hn same }
  · have one : r.admissions run.phase = [⟨run, .admitted, r⟩] := by
      rw [admissions, runs, List.drop_left]
      rfl
    rw [one]
    refine { grown with
      admitted := List.forall_mem_singleton.mpr rfl
      news := List.forall_mem_singleton.mpr (Nat.le_of_eq hid.symm)
      follows := fun hn => ?_ }
    refine (moves_born hn hid fresh runs count).follows (List.forall_mem_singleton.mpr rfl) ?_
    rw [hid, hn.unborn]
    exact .one (.admitted running)

theorem admits_hires {name : String} {log : List Occurrence} (h : Hires name r log r') :
    Admits r (milestonesIn log) r' := by
  induction h with
  | refl => exact (KeepsWork.refl _).admits
  | asks => exact admits_asks ..
  | sets => exact KeepsWork.admits (.elsewhere rfl rfl rfl rfl)
  | calls => exact KeepsWork.admits (.elsewhere rfl rfl rfl rfl)
  | arms => exact KeepsWork.admits (.elsewhere rfl rfl rfl rfl)
  | trans _ _ ih later =>
    rw [milestonesIn_append]
    exact ih.trans later

theorem admits_paces {phase : String} {log : List Occurrence} (h : Paces phase r log r') :
    Admits r (milestonesIn log) r' := by
  cases h with
  | idle => exact (KeepsWork.refl r).admits
  | stops => exact KeepsWork.admits (.elsewhere rfl rfl rfl rfl)
  | hires _ _ h => exact admits_hires h

end LoadGen.Runner
