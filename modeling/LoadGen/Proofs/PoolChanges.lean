import LoadGen.Proofs.PoolFrames
import LoadGen.Proofs.ReachableRunners

namespace LoadGen

/-- What one stroke can do to what a group has at stake. -/
inductive Stake.Next (s : Stake) : Stake → Prop
  | rests : Next s s
  | enters (phase : String) : Next s { s with current := some phase }
  | leaves : Next s { s with current := none }
  | asked (make : Nat → Nat) : Next s { s with pool := (s.pool.acquire make).2 }
  | back (session : Nat) : Next s { s with pool := s.pool.release session }

/-- A look at the pools, of all groups or of one phase. -/
def Happening.isLook : Happening → Bool
  | .poolStats => true
  | .phasePoolStats _ => true
  | _ => false

namespace Runner

/-- Each group is the same, or one stroke on. -/
structure Stroke (r r' : Runner) : Prop where
  next : ∀ key s', r'.stake? key = some s' → ∃ s, r.stake? key = some s ∧ s.Next s'

/-- Any number of strokes, one after the other. -/
abbrev Strokes : Runner → Runner → Prop := Relation.ReflTransGen Stroke

variable {r r₁ r' : Runner}

theorem SameStakes.stroke (h : SameStakes r r') : Stroke r r' :=
  ⟨fun key s' hs => ⟨s', h.stakes key ▸ hs, .rests⟩⟩

theorem SameStakes.strokes (h : SameStakes r r') : Strokes r r' := .single h.stroke

theorem Stroke.elsewhere (hg : r'.groups = r.groups) : Stroke r r' :=
  SameStakes.stroke (.elsewhere hg)

theorem Strokes.elsewhere (hg : r'.groups = r.groups) : Strokes r r' := .single (.elsewhere hg)

theorem stroke_modifyGroup {key : String} {f : Group → Group}
    (h : ∀ g, r.groups.get? key = some g → g.stake.Next (f g).stake) :
    Stroke r (r.modifyGroup key f) := by
  refine ⟨fun other s' hs => ?_⟩
  obtain ⟨g', hg', rfl⟩ := Option.map_eq_some_iff.mp hs
  rcases Dict.eq_of_get?_modify hg' with ⟨rfl, g, hg, rfl⟩ | ⟨_, hg'⟩
  · exact ⟨g.stake, by rw [stake?, hg]; rfl, h g hg⟩
  · exact ⟨g'.stake, by rw [stake?, hg']; rfl, .rests⟩

section Sessions

theorem strokes_acquire {key : String} {got : Option Nat} (h : r.acquire key = (got, r')) :
    Strokes r r' := by
  have asked : ∀ {g : Group}, r.groups.get? key = some g → Stroke r (r.modifyGroup key fun h =>
      { h with pool := (g.pool.acquire fun _ => r.sessions.length).2 }) := by
    intro g hg
    refine stroke_modifyGroup fun g' hg' => ?_
    cases hg.symm.trans hg'
    exact .asked _
  cases acquires h with
  | nowhere => exact .refl
  | never group => exact .tail (.single (asked group)) (routine_depleted ..).stakes.stroke
  | anew group =>
    exact .tail (.single (asked group)) (.elsewhere rfl)
  | again group => exact .single (asked group)

theorem stroke_giveBack (r : Runner) (key : String) (session : Nat) :
    Stroke r (r.giveBack key session) := stroke_modifyGroup fun _ _ => .back session

theorem strokes_answers {a : Answer} {phase : String} (h : Answers r phase a r') :
    Strokes r r' := by
  cases h with
  | refused => exact .refl
  | short _ _ _ ha => exact strokes_acquire ha
  | granted _ _ _ ha => exact (strokes_acquire ha).tail (stakes_employ _ _ phase).stroke

theorem strokes_hires {name : String} {log : List Occurrence} (h : Hires name r log r') :
    Strokes r r' := by
  induction h with
  | refl => exact .refl
  | asks => exact strokes_answers (answers ..)
  | sets | calls | arms => exact Strokes.elsewhere rfl
  | trans _ _ ih later => exact ih.trans later

theorem strokes_paces {phase : String} {log : List Occurrence} (h : Paces phase r log r') :
    Strokes r r' := by
  cases h with
  | idle => exact .refl
  | stops => exact Strokes.elsewhere rfl
  | hires _ _ h => exact strokes_hires h

end Sessions

section Turns

/-- The session of a run that ends goes back to its pool, and nothing else does. -/
theorem strokes_unwind (here : Option Nat) (run : Run) (r : Runner) :
    Strokes r (r.unwind here run) := by
  have left : SameStakes r { r with runs := r.runs.filter (·.id != run.id) } := .elsewhere rfl
  have stopped := (left.trans (onRequests_stopSession _ run.session).toSameStakes).strokes
  have ended := unwinds here run r
  generalize r.unwind here run = r' at ended ⊢
  cases ended with
  | nowhere => exact stopped
  | keeps _ left => exact stopped.trans left.routine.stakes.strokes
  | givesBack _ left =>
    exact (stopped.tail (stroke_giveBack ..)).trans left.routine.stakes.strokes

theorem strokes_reset (r : Runner) (session : Nat) :
    Strokes r (r.modifySession session (·.reset)) := Strokes.elsewhere rfl

theorem strokes_fails (here : Option Nat) (run : Run) (f : Failure) (r : Runner) :
    Strokes r ((r.failPhase here run.phase f).unwind here run) :=
  (routine_failPhase here run.phase f r).stakes.strokes.trans (strokes_unwind ..)

theorem strokes_works {here : Option Nat} {run : Run} {early : Bool} {actions : List Action}
    {log : List Occurrence} (h : Works here run early actions r log r') : Strokes r r' := by
  induction h with
  | waits h => exact h.routine.stakes.strokes.trans (Strokes.elsewhere rfl)
  | fails h => exact h.routine.stakes.strokes.trans (strokes_fails ..)
  | ends h => exact h.routine.stakes.strokes.trans (strokes_unwind ..)
  | putsOff h => exact h.routine.stakes.strokes.trans (Strokes.elsewhere rfl)
  | again h _ _ ih => exact h.routine.stakes.strokes.trans ((strokes_reset ..).trans ih)

theorem strokes_resumes {here : Option Nat} {id : Nat} {log : List Occurrence}
    (h : Resumes here id r log r') : Strokes r r' := by
  cases h with
  | nobody => exact .refl
  | stays => exact .refl
  | interrupted => exact (stakes_breakOff ..).strokes.trans (strokes_unwind ..)
  | begins _ _ _ h => exact (strokes_reset ..).trans (strokes_works h)
  | carriesOn _ _ h => exact strokes_works h
  | fails => exact strokes_fails ..

theorem strokes_perform (loop : Nat) (r : Runner) (t : Task) : Strokes r (r.perform loop t) := by
  cases t with
  | stamp | prune => exact (SameStakes.modifyBoard ..).strokes
  | «seal» fence => exact (routine_sealed loop fence r).stakes.strokes
  | announce fence => exact (routine_announce fence r).stakes.strokes
  | resume run => exact strokes_resumes (resumes (some loop) run r)
  | pace phase => exact strokes_paces (paces phase r)
  | read survey slot key => exact (routine_read loop survey slot key r).stakes.strokes
  | expire request => exact (onRequests_expire r request).toSameStakes.strokes

theorem strokes_turn {loop : Nat} (h : r.step? loop = some r') : Strokes r r' := by
  obtain ⟨t, loops, _, rfl⟩ := step?_eq_some h
  have taken : SameStakes r { r with loops := loops } := .elsewhere rfl
  exact taken.strokes.trans (strokes_perform loop _ t)

end Turns

section Phases

theorem strokes_enterGroup (r : Runner) (key name : String) :
    Strokes r (r.enterGroup key name) := by
  obtain ⟨loops, he⟩ := enterGroup_eq r key name
  have entered : Stroke r (r.modifyGroup key fun g => { g with current := some name }) :=
    stroke_modifyGroup fun _ _ => .enters name
  rw [he]
  exact .tail (.single entered) (.elsewhere rfl)

theorem strokes_begin {phase : String} (h : r.begin phase = .ok r') : Strokes r r' := by
  obtain ⟨i, s, r₁, _, _, ⟨key, _, rfl⟩ | rfl, rfl⟩ := begin_cases h
  · exact (strokes_enterGroup r key phase).tail (routine_move ..).stakes.stroke
  · exact (routine_move ..).stakes.strokes

theorem strokes_carryOut {here : Option Nat} {d : Deed} (h : r.carryOut here d = .ok r') :
    Strokes r r' := by
  cases does h with
  | begin h => exact strokes_begin h
  | finish | tryTerminate | terminate => exact (routine_moveIf ..).stakes.strokes
  | fail => exact (routine_failPhase ..).stakes.strokes
  | enroll phase => exact strokes_answers (answers r phase)
  | complete => exact strokes_unwind ..

theorem strokes_attemptFinish (r : Runner) (name : String) :
    Strokes r (r.attemptFinish name).2 := by
  unfold attemptFinish
  split
  · exact .refl
  · split
    · exact .refl
    · exact (routine_moveIf ..).stakes.strokes

theorem strokes_attemptRun (r : Runner) (name : String) : Strokes r (r.attemptRun name).2 := by
  unfold attemptRun
  split
  · exact .refl
  · rename_i i _
    split
    · exact .refl
    · rename_i s _
      refine (routine_move none name s r).stakes.strokes.trans ?_
      unfold attemptLaunch
      split
      · exact .refl
      · exact (strokes_hires (hires_startSessions ..)).trans (strokes_attemptFinish ..)
      · exact strokes_hires (hires_startSessions ..)
      · exact (routine_startPacer ..).stakes.strokes

theorem strokes_order (r : Runner) (name : String) (o : Order) :
    Strokes r (r.order name o).2 := by
  cases o with
  | start =>
    simp only [order, attemptStart]
    split
    · exact .refl
    · split
      · split
        · exact (strokes_enterGroup ..).trans (strokes_attemptRun ..)
        · exact strokes_attemptRun ..
      · exact .refl
  | finish => exact strokes_attemptFinish r name
  | tryTerminate =>
    simp only [order, attemptTryTerminate]
    split
    · exact .refl
    · split
      · exact (routine_move ..).stakes.strokes
      · exact .refl
  | terminate =>
    simp only [order, attemptTerminate]
    split
    · exact .refl
    · exact (routine_moveIf ..).stakes.strokes

end Phases

section Shutdown

theorem strokes_runFor (n : Nat) (r : Runner) : Strokes r (runFor n r) := by
  induction n generalizing r with
  | zero => exact .refl
  | succ n ih =>
    simp only [runFor]
    split
    · exact .refl
    · split
      · exact .refl
      · rename_i r' hs
        exact (strokes_turn hs).trans (ih r')

theorem strokes_advanceTogether (time : Duration) (r : Runner) :
    Strokes r (r.advanceTogether time) := by
  have later : Strokes r { r with loops := r.loops.advanceAll time } := Strokes.elsewhere rfl
  exact later.trans (strokes_runFor _ _)

theorem strokes_runOut (left : Nat) (r : Runner) : Strokes r (runOut left r) := by
  induction left using Nat.strongRecOn generalizing r with
  | ind left ih =>
    have idle : SameStakes r r.closeIdle := .elsewhere rfl
    rw [runOut]
    split
    · exact idle.strokes
    · rename_i n _
      split
      · have later := idle.strokes.trans (strokes_advanceTogether (.ofMillis (n + 1)) r.closeIdle)
        exact later.trans (ih (left - (n + 1)) (by omega) _)
      · exact idle.strokes

theorem strokes_shutdown (r : Runner) : Strokes r r.shutdown := by
  have left : ∀ q : Runner, Stroke q
      { q with groups := q.groups.map fun g => { g with current := none } } := by
    refine fun q => ⟨fun key s' hs => ?_⟩
    rw [stake?, Dict.get?_map, Option.map_map] at hs
    obtain ⟨g, hg, rfl⟩ := Option.map_eq_some_iff.mp hs
    exact ⟨g.stake, by rw [stake?, hg]; rfl, .leaves⟩
  unfold Runner.shutdown
  split
  · exact .refl
  · have halted : ∀ clients, Strokes r { r with
        stopped := true, watchdog := none, clients := clients } := fun _ => Strokes.elsewhere rfl
    have ran := (halted (r.clients.map fun c => { c with shutdowns := c.shutdowns + 1 })).trans
      (strokes_runOut r.settings.shutdownTimeout _)
    dsimp only
    generalize runOut _ _ = q at ran ⊢
    exact (ran.tail (left q)).tail (.elsewhere rfl)

end Shutdown

section Steps

theorem strokes_after {e : Happening} (hl : e.isLook = false) (h : r.after? e = some r') :
    Strokes r r' := by
  cases e with
  | deed here d => exact strokes_carryOut (toOption_eq_some.mp h)
  | pace phase =>
    cases h
    exact (routine_startPacer r phase).stakes.strokes
  | exceedLimit phase =>
    obtain ⟨i, _, h⟩ := bind_eq_ok.mp (toOption_eq_some.mp h)
    cases h
    exact Strokes.elsewhere rfl
  | turn loop => exact strokes_turn h
  | openGate session f => exact (stakes_openGate h).strokes
  | openConnections =>
    cases h
    exact (routine_openConnections r).stakes.strokes
  | command request c => exact (onRequests_command (toOption_eq_some.mp h)).toSameStakes.strokes
  | beginSurvey recent =>
    cases h
    exact (routine_beginSurvey r recent).stakes.strokes
  | beginPruning =>
    cases h
    exact (routine_beginPruning r).stakes.strokes
  | advance | clock | createRequest | letGo | addConnection =>
    cases h
    exact Strokes.elsewhere rfl
  | poolStats => cases hl
  | phasePoolStats phase => cases hl

/-- The pools whose marks are set by a look. -/
def looked (r : Runner) : Happening → String → Bool
  | .poolStats, key => (r.current? key).isSome
  | .phasePoolStats phase, key => r.keyOf phase == some key
  | _, _ => false

/-- A look sets the marks of the pools that it is at, and changes nothing else. -/
theorem stake?_look {e : Happening} (hl : e.isLook = true) (h : r.after? e = some r')
    (key : String) : r'.stake? key = (r.stake? key).map fun s =>
      if r.looked e key then { s with pool := s.pool.resetMarks } else s := by
  cases e with
  | poolStats =>
    cases h
    simp only [stake?, poolStats, Dict.get?_map, Option.map_map]
    cases hg : r.groups.get? key with
    | none => rfl
    | some g =>
      have seen : r.looked .poolStats key = g.current.isSome := by simp [looked, current?, hg]
      simp only [Option.map_some, Function.comp, seen]
      split <;> rfl
  | phasePoolStats phase =>
    obtain ⟨⟨stats, q⟩, ho, rfl⟩ := Option.map_eq_some_iff.mp h
    obtain ⟨i, hi, h⟩ := bind_eq_ok.mp (toOption_eq_some.mp ho)
    have asked : r.keyOf phase = i.phase.key := by rw [keyOf, instance?_eq_ok.mp hi]; rfl
    simp only [looked, asked, beq_iff_eq]
    split at h
    · rename_i nowhere
      cases h
      split
      · rename_i hk
        have none : r.groups.get? key = none := by simpa [groupOf?, hk] using nowhere
        rw [stake?, none]
        rfl
      · rw [Option.map_id']
    · rename_i other g hg
      cases h
      obtain ⟨hk, _⟩ := groupOf?_eq_some.mp hg
      rw [hk, stake?, modifyGroup, Dict.get?_modify, stake?]
      by_cases he : key = other
      · subst he
        cases r.groups.get? key <;> simp [Group.stake, resetMarks]
      · simp only [he, Ne.symm he, Option.some.injEq, if_false, Option.map_id']
  | _ => cases hl

end Steps

end Runner
end LoadGen
