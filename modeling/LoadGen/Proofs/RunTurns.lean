import LoadGen.Proofs.ElementaryChanges

namespace LoadGen.Runner

variable {r r' q : Runner} {run : Run} {here : Option Nat} {actions : List Action} {e : TurnEnd}

/-- The run is under way, and stands where it is said to stand. -/
abbrev Finds (r : Runner) (run : Run) : Prop := r.runs.find? (·.id == run.id) = some run

/-- A run does actions until they end like this. It is under way all the time. -/
structure Acts (run : Run) (actions : List Action) (r : Runner) (e : TurnEnd) (q : Runner) :
    Prop where
  came : actAll run actions r = (e, q)
  before : r.Finds run
  after : q.Finds run

/-- What becomes of a run that does actions in its turn. If it is early, another iteration may begin
at once; else that is put off. -/
inductive Works (here : Option Nat) (run : Run) :
    Bool → List Action → Runner → List Occurrence → Runner → Prop
  | waits {early : Bool} {actions : List Action} {r q : Runner} {p : Point} :
      Acts run actions r (.waits p) q → Works here run early actions r [] (q.setPoint run p)
  | fails {early : Bool} {actions : List Action} {r q : Runner} {f : Failure} :
      Acts run actions r (.failed f) q →
        Works here run early actions r [.comes ⟨run, .fails f, q⟩]
          ((q.failPhase here run.phase f).unwind here run)
  | ends {early : Bool} {actions : List Action} {r q : Runner} :
      Acts run actions r .finished q → q.goesOn run = false →
        Works here run early actions r [.comes ⟨run, .succeeds, q⟩] (q.unwind here run)
  | putsOff {actions : List Action} {r q : Runner} :
      Acts run actions r .finished q → q.goesOn run = true →
        Works here run false actions r [.comes ⟨run, .succeeds, q⟩] (putOff run q)
  | again {actions : List Action} {r q r' : Runner} {log : List Occurrence} :
      Acts run actions r .finished q → q.goesOn run = true →
        Works here run false (q.actionsOf run) (q.modifySession run.session (·.reset)) log r' →
          Works here run true actions r (.comes ⟨run, .succeeds, q⟩ ::
            .comes ⟨run, .begins, q.modifySession run.session (·.reset)⟩ :: log) r'

/-- What comes of the turn of a run: there is no such run, it stays at its gate, its phase
interrupts it, or it goes to work. -/
inductive Resumes (here : Option Nat) : Nat → Runner → List Occurrence → Runner → Prop
  | nobody {id : Nat} {r : Runner} :
      r.runs.find? (·.id == id) = none → Resumes here id r [] r
  | stays {run : Run} {r : Runner} {rest : List Action} :
      r.Finds run → run.point = .gate rest → Resumes here run.id r [] r
  | interrupted {run : Run} {r : Runner} :
      r.Finds run → (r.status? run.phase).any Status.isTerminating = true →
        Resumes here run.id r [.comes ⟨run, .interrupted, r⟩] ((r.breakOff run).unwind here run)
  | begins {run : Run} {r r' : Runner} {log : List Occurrence} :
      r.Finds run → (r.status? run.phase).any Status.isTerminating = false → run.point = .fresh →
        Works here run false (r.actionsOf run) (r.modifySession run.session (·.reset)) log r' →
          Resumes here run.id r
            (.comes ⟨run, .begins, r.modifySession run.session (·.reset)⟩ :: log) r'
  | carriesOn {run : Run} {r r' : Runner} {rest : List Action} {log : List Occurrence} :
      r.Finds run → (run.point = .opened none rest ∨ ∃ timer, run.point = .pause timer rest) →
        Works here run true rest r log r' → Resumes here run.id r log r'
  | fails {run : Run} {r : Runner} {f : Failure} {rest : List Action} :
      r.Finds run → run.point = .opened (some f) rest →
        Resumes here run.id r [.comes ⟨run, .fails f, r⟩]
          ((r.failPhase here run.phase f).unwind here run)

/-- What comes of a phase counting out the session of a run that has ended. -/
inductive Leaves (here : Option Nat) (run : Run) (i : Instance) (r : Runner) : Runner → Prop
  | stands : (i.standing.leave r.now).status = i.standing.status →
      Leaves here run i r (r.modifyInstance run.phase fun i' =>
        { i' with standing := i.standing.leave r.now })
  | moves : (i.standing.leave r.now).status ≠ i.standing.status →
      Leaves here run i r (r.move here run.phase (i.standing.leave r.now))

/-- What comes of the end of a run, after its session was stopped. -/
inductive Unwinds (here : Option Nat) (run : Run) (r : Runner) : Runner → Prop
  | nowhere : Unwinds here run r r
  | keeps {i : Instance} {r' : Runner} :
      r.instances.get? run.phase = some i → Leaves here run i r r' → Unwinds here run r r'
  | givesBack {i : Instance} {key : String} {r' : Runner} :
      r.instances.get? run.phase = some i →
        Leaves here run i (r.giveBack key run.session) r' → Unwinds here run r r'

section Actions

theorem found_id {id : Nat} (h : r.runs.find? (·.id == id) = some run) : run.id = id := by
  simpa using List.find?_some h

theorem Finds.mem (h : r.Finds run) : run ∈ r.runs := List.mem_of_find?_eq_some h

theorem Finds.keep (h : r.Finds run) (hr : q.runs = r.runs) : q.Finds run := by
  rw [Finds, hr]
  exact h

theorem occurrences_complete (here : Option Nat) (h : r.Finds run) :
    r.occurrences (.deed here (.complete run.id)) = [.comes ⟨run, .dropped, r⟩] := by
  simp only [occurrences, h, Option.map_some, Option.toList_some]

theorem runs_takeStep (r : Runner) (run : Run) (step : Step) :
    (r.takeStep run step).2.runs = r.runs := by
  cases step <;> rfl

theorem runs_measureTimes (b : BucketRef) (stamp : Nat) (e : Event) (n : Nat) (r : Runner) :
    (measureTimes b stamp e n r).runs = r.runs := by
  induction n generalizing r with
  | zero => rfl
  | succ n ih => exact ih _

theorem runs_modifyQueuesOf (r : Runner) (session : Nat) (f : Queues → Queues) :
    (r.modifyQueuesOf session f).runs = r.runs := by
  unfold modifyQueuesOf
  split <;> rfl

theorem runs_act (r : Runner) (run : Run) (a : Action) : (r.act run a).2.runs = r.runs := by
  cases a with
  | run step => exact runs_takeStep r run step
  | build tag params =>
    simp only [act]
    split
    · exact runs_takeStep ..
    · rfl
  | push | pushId => exact runs_modifyQueuesOf ..
  | pull key => exact runs_modifyQueuesOf ..
  | measure metric stamp event times =>
    simp only [act]
    split
    · rename_i b q h
      obtain ⟨s, phase, _, _, _, rfl⟩ := bucketFor_ok h
      exact runs_measureTimes ..
    · rfl
  | failIn session f =>
    simp only [act]
    split <;> rfl
  | get | unset | bound | fail | gate => rfl

/-- What each action does, and one after the other, is what a run does as long as it acts. -/
theorem actAll_induction {P : Runner → Runner → Prop} (refl : ∀ r, P r r)
    (trans : ∀ {r₁ r₂ r₃}, P r₁ r₂ → P r₂ r₃ → P r₁ r₃) (act : ∀ r a, P r (r.act run a).2)
    (actions : List Action) (r : Runner) : P r (actAll run actions r).2 := by
  induction actions generalizing r with
  | nil => exact refl r
  | cons a rest ih =>
    have once := act r a
    simp only [actAll]
    split <;> rename_i q h <;> rw [h] at once
    · exact trans once (ih q)
    all_goals exact once

theorem runs_actAll (run : Run) (actions : List Action) (r : Runner) :
    (actAll run actions r).2.runs = r.runs := by
  apply actAll_induction (P := fun r q => q.runs = r.runs)
  · exact fun _ => rfl
  · exact fun h k => k.trans h
  · exact fun r a => runs_act r run a

theorem Finds.acts (h : r.Finds run) (actions : List Action) :
    Acts run actions r (actAll run actions r).1 (actAll run actions r).2 :=
  ⟨rfl, h, h.keep (runs_actAll run actions r)⟩

theorem Acts.induction {P : Runner → Runner → Prop} (h : Acts run actions r e q)
    (refl : ∀ r, P r r) (trans : ∀ {r₁ r₂ r₃}, P r₁ r₂ → P r₂ r₃ → P r₁ r₃)
    (act : ∀ r a, P r (r.act run a).2) : P r q := by
  have acted := actAll_induction refl trans act actions r
  rwa [h.came] at acted

end Actions

section Turns

theorem unwinds (here : Option Nat) (run : Run) (r : Runner) :
    Unwinds here run (stopSession { r with runs := r.runs.filter (·.id != run.id) } run.session)
      (r.unwind here run) := by
  unfold unwind
  dsimp only
  generalize stopSession _ run.session = q
  split
  · exact .nowhere
  · rename_i i hi
    have leaves : ∀ q : Runner, Leaves here run i q
        (if (i.standing.leave q.now).status = i.standing.status then
          q.modifyInstance run.phase fun i' => { i' with standing := i.standing.leave q.now }
        else q.move here run.phase (i.standing.leave q.now)) := by
      intro q
      split
      · exact .stands ‹_›
      · exact .moves ‹_›
    cases i.phase.key with
    | none => exact .keeps hi (leaves _)
    | some key => exact .givesBack hi (leaves _)

theorem works_late (here : Option Nat) (h : r.Finds run) (actions : List Action) :
    Works here run false actions r
      (Telling.endTurn here run (fun q => ([], putOff run q)) (actAll run actions r)).1
      (Telling.endTurn here run (fun q => ([], putOff run q)) (actAll run actions r)).2 := by
  have acts := h.acts actions
  generalize actAll run actions r = t at acts ⊢
  obtain ⟨e, q⟩ := t
  cases e with
  | waits p => exact .waits acts
  | failed f => exact .fails acts
  | finished =>
    simp only [Telling.endTurn]
    split
    · rename_i on
      exact .putsOff acts on
    · rename_i off
      exact .ends acts (by simpa using off)

theorem works_early (here : Option Nat) (h : r.Finds run) (rest : List Action) :
    Works here run true rest r (Telling.carryOn here run rest r).1
      (Telling.carryOn here run rest r).2 := by
  have acts := h.acts rest
  unfold Telling.carryOn
  generalize actAll run rest r = t at acts ⊢
  obtain ⟨e, q⟩ := t
  cases e with
  | waits p => exact .waits acts
  | failed f => exact .fails acts
  | finished =>
    simp only [Telling.endTurn]
    split
    · rename_i on
      have ready : (q.modifySession run.session (·.reset)).Finds run := acts.after
      exact .again acts on (works_late here ready _)
    · rename_i off
      exact .ends acts (by simpa using off)

theorem resumes (here : Option Nat) (id : Nat) (r : Runner) :
    Resumes here id r (Telling.resume here id r).1 (r.resume here id) := by
  unfold resume Telling.resume
  split
  · rename_i nobody
    exact .nobody nobody
  · rename_i run found
    obtain rfl := found_id found
    have found : r.Finds run := found
    split
    · rename_i ends
      exact .interrupted found ends
    · rename_i calm
      split <;> rename_i stands
      · have ready : (r.modifySession run.session (·.reset)).Finds run := found
        exact .begins found (by simpa using calm) stands (works_late here ready _)
      · exact .stays found stands
      · exact .carriesOn found (.inl stands) (works_early here found _)
      · exact .fails found stands
      · exact .carriesOn found (.inr ⟨_, stands⟩) (works_early here found _)

theorem Works.mem {early : Bool} {log : List Occurrence}
    (h : Works here run early actions r log r') : ∀ o ∈ log, ∃ j q, o = .comes ⟨run, j, q⟩ := by
  induction h with
  | waits => exact List.forall_mem_nil _
  | fails | ends | putsOff => exact List.forall_mem_singleton.mpr ⟨_, _, rfl⟩
  | again _ _ _ ih =>
    exact List.forall_mem_cons.mpr ⟨⟨_, _, rfl⟩, List.forall_mem_cons.mpr ⟨⟨_, _, rfl⟩, ih⟩⟩

/-- Whatever comes to pass in the turn of a run, it is the run that comes to it. -/
theorem Resumes.mem {id : Nat} {log : List Occurrence} (h : Resumes here id r log r') :
    ∀ o ∈ log, ∃ run ∈ r.runs, ∃ j q, o = .comes ⟨run, j, q⟩ := by
  cases h with
  | nobody => exact List.forall_mem_nil _
  | stays => exact List.forall_mem_nil _
  | interrupted found => exact List.forall_mem_singleton.mpr ⟨_, found.mem, _, _, rfl⟩
  | begins found _ _ h =>
    refine List.forall_mem_cons.mpr ⟨⟨_, found.mem, _, _, rfl⟩, fun o ho => ?_⟩
    exact ⟨_, found.mem, h.mem o ho⟩
  | carriesOn found _ h => exact fun o ho => ⟨_, found.mem, h.mem o ho⟩
  | fails found => exact List.forall_mem_singleton.mpr ⟨_, found.mem, _, _, rfl⟩

/-- A loop that brings a run to a turning point gives a run its turn. -/
theorem resumes_of_comes {loop : Nat} {m : Milestone}
    (h : .comes m ∈ r.occurrences (.turn loop)) : ∃ id loops,
      r.loops.next? loop = some (.resume id, loops) ∧
        Resumes (some loop) id { r with loops := loops } (r.occurrences (.turn loop))
          ({ r with loops := loops }.resume (some loop) id) := by
  cases hn : r.loops.next? loop with
  | none =>
    simp only [occurrences, Telling.step?, hn] at h
    cases h
  | some next =>
    obtain ⟨t, loops⟩ := next
    rw [occurrences_of_next hn] at h ⊢
    cases t with
    | resume id => exact ⟨id, loops, rfl, resumes (some loop) id _⟩
    | pace phase =>
      obtain ⟨_, _, no⟩ := (paces phase _).mem _ h
      cases no
    | _ => cases h

end Turns

end LoadGen.Runner
