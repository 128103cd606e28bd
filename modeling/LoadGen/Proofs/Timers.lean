import LoadGen.Proofs.TimerOwnership

namespace LoadGen.Runner

variable {r r' r₁ : Runner} {id other : Nat} {base : Nat → Nat} {given set set' : Prop} {q : Request}

section Sessions

theorem minded_spawn (h : Minded id base given set r) {session : Nat} (hs : session < r.sessions.length)
    (phase : String) : Minded id base given set (r.spawn session phase) := by
  unfold spawn
  dsimp only
  split
  · refine KeepsTime.minded (.push _ _ rfl) ?_
    refine { h with bound := ?_, ids := ?_, numbered := ?_, pauses := ?_ }
    · intro run hm
      rcases List.mem_append.mp hm with hm | hm
      · exact h.bound run hm
      · rw [List.mem_singleton.mp hm]
        exact hs
    · rw [List.map_append, List.nodup_append]
      refine ⟨h.ids, List.nodup_singleton _, fun i hi j hj => ?_⟩
      obtain ⟨run, hm, rfl⟩ := List.mem_map.mp hi
      rw [List.mem_singleton.mp hj]
      exact Nat.ne_of_lt (h.numbered run hm)
    · intro run hm
      rcases List.mem_append.mp hm with hm | hm
      · exact Nat.lt_succ_of_lt (h.numbered run hm)
      · rw [List.mem_singleton.mp hm]
        exact Nat.lt_succ_self _
    · intro run hm t rest hp
      rcases List.mem_append.mp hm with hm | hm
      · exact h.pauses run hm t rest hp
      · rw [List.mem_singleton.mp hm] at hp
        cases hp
  · exact h

theorem minded_answers {a : Answer} {phase : String} (h : Minded id base given set r)
    (k : Answers r phase a r') : Minded id base given set r' := by
  cases k with
  | refused => exact h
  | short _ _ _ ha => exact (keepsTime_acquire ha).minded h
  | @granted _ _ _ session r₁ _ _ _ ha =>
    have joined : KeepsTime r₁ (r₁.modifyInstance phase fun i =>
        { i with standing := i.standing.join }) := .elsewhere rfl rfl rfl rfl rfl rfl
    have bound := joined.trans (.modifySession _ session
      (f := fun s => { s with phase := some phase }) fun _ => rfl)
    have there := Nat.lt_of_lt_of_le (acquire_lt h.stocked ha) bound.length_le
    exact minded_spawn (bound.minded ((keepsTime_acquire ha).minded h)) there phase

theorem keepsTime_pacers (r : Runner) (pacers : Dict Pacer) :
    KeepsTime r { r with pacers := pacers } := .elsewhere rfl rfl rfl rfl rfl rfl

theorem minded_hires {name : String} {log : List Occurrence} (h : Minded id base given set r)
    (k : Hires name r log r') : Minded id base given set r' := by
  induction k with
  | refl => exact h
  | asks => exact minded_answers h (answers ..)
  | sets => exact (keepsTime_pacers ..).minded h
  | calls => exact KeepsTime.minded (.push _ 0 rfl) h
  | arms due => exact KeepsTime.minded (.onLoops _ (.armAt _ 0 due rfl)) h
  | trans _ _ ih later => exact later (ih h)

theorem minded_paces {phase : String} {log : List Occurrence} (h : Minded id base given set r)
    (k : Paces phase r log r') : Minded id base given set r' := by
  cases k with
  | idle => exact h
  | stops => exact (keepsTime_pacers ..).minded h
  | hires _ _ k => exact minded_hires h k

end Sessions

section Runs
variable {run : Run}

theorem minded_setPoint (h : Minded id base given set r) (hm : run ∈ r.runs) {p : Point}
    (hp : ∀ t rest, p = .pause t rest → r.WaitsOnly (r.executorOf run.session) t fun _ => False) :
    Minded id base given set (r.setPoint run p) := by
  have old : ∀ other ∈ (r.setPoint run p).runs, ∃ o ∈ r.runs, other.id = o.id ∧
      other.session = o.session ∧ (other.point = o.point ∨ o = run ∧ other.point = p) := by
    intro other hother
    obtain ⟨o, ho, rfl⟩ := List.mem_map.mp hother
    refine ⟨o, ho, ?_⟩
    split
    · rename_i he
      exact ⟨rfl, rfl, .inr ⟨List.inj_on_of_nodup_map h.ids ho hm he, rfl⟩⟩
    · exact ⟨rfl, rfl, .inl rfl⟩
  refine { h with bound := ?_, ids := ?_, numbered := ?_, pauses := ?_ }
  · intro other hother
    obtain ⟨o, ho, _, hs, _⟩ := old other hother
    rw [hs]
    exact h.bound o ho
  · have same : (r.setPoint run p).runs.map (·.id) = r.runs.map (·.id) := by
      simp only [setPoint, List.map_map]
      refine List.map_congr_left fun other _ => ?_
      simp only [Function.comp]
      split <;> rfl
    rw [same]
    exact h.ids
  · intro other hother
    obtain ⟨o, ho, hid, _⟩ := old other hother
    rw [hid]
    exact h.numbered o ho
  · intro other hother t rest hpoint
    obtain ⟨o, ho, _, hs, same | ⟨rfl, new⟩⟩ := old other hother
    · rw [hs]
      exact h.pauses o ho t rest (same ▸ hpoint)
    · rw [hs]
      exact hp t rest (new ▸ hpoint)

theorem minded_leave (h : Minded id base given set r) (keep : Run → Bool) :
    Minded id base given set { r with runs := r.runs.filter keep } :=
  { h with
    bound := fun run hm => h.bound run (List.mem_filter.mp hm).1
    ids := h.ids.sublist (List.filter_sublist.map _)
    numbered := fun run hm => h.numbered run (List.mem_filter.mp hm).1
    pauses := fun run hm => h.pauses run (List.mem_filter.mp hm).1 }

theorem minded_unwind (h : Minded id base given set r) (here : Option Nat) (hm : run ∈ r.runs) :
    Minded id base given set (r.unwind here run) := by
  have stopped := minded_stopSession (minded_leave h (·.id != run.id)) run.session
  have there : run.session < (stopSession { r with runs := r.runs.filter (·.id != run.id) }
      run.session).sessions.length := by
    rw [(@aside_stopSession nobody _ run.session).holders.population]
    exact h.bound run hm
  have ended := unwinds here run r
  generalize r.unwind here run = r' at ended ⊢
  cases ended with
  | nowhere => exact stopped
  | keeps _ left => exact left.routine.keepsTime.minded stopped
  | givesBack _ left =>
    exact left.routine.keepsTime.minded ((keepsTime_giveBack _ _ there).minded stopped)

theorem executorOf_lt (g : Geared r) {session : Nat} (h : session < r.sessions.length) :
    r.executorOf session < r.loops.size := by
  have hs : r.session? session = some r.sessions[session] := List.getElem?_eq_getElem h
  rw [executorOf, hs]
  exact g.seated.2 _ (List.mem_map_of_mem (List.getElem_mem h))

theorem takeStep_pause (g : Geared r) (hm : run ∈ r.runs) {step : Step} {t : Nat}
    (h : r.takeStep run step = (.pause t, r')) :
    r'.WaitsOnly (r'.executorOf run.session) t fun _ => False := by
  have keeps := (routine_takeStep r run step).keepsTime
  rw [h] at keeps
  cases step with
  | log => cases h
  | set => cases h
  | pause time =>
    obtain ⟨number, next⟩ := LoopGroup.arm_fst (executorOf_lt g (g.bound run hm)) time (.resume run.id)
    simp only [takeStep, Prod.mk.injEq, Outcome.pause.injEq] at h
    obtain ⟨rfl, rfl⟩ := h
    rw [keeps.executorOf (g.bound run hm), number]
    refine ⟨?_, fun id hw => ?_⟩
    · rw [next]
      exact Nat.lt_succ_self _
    · exact Nat.lt_irrefl _ (g.dated _ id _ ((keeps.waits _ id).subset hw))

theorem act_pause (g : Geared r) (hm : run ∈ r.runs) {a : Action} {t : Nat}
    (h : r.act run a = (.pause t, r')) :
    r'.WaitsOnly (r'.executorOf run.session) t fun _ => False := by
  cases a with
  | run step => exact takeStep_pause g hm h
  | build tag params =>
    simp only [act] at h
    split at h
    · exact takeStep_pause g hm h
    · cases h
  | measure | failIn =>
    simp only [act] at h
    split at h <;> cases h
  | _ => cases h

theorem actAll_pause (g : Geared r) (hm : run ∈ r.runs) {actions rest : List Action} {t : Nat}
    (h : actAll run actions r = (.waits (.pause t rest), r')) :
    r'.WaitsOnly (r'.executorOf run.session) t fun _ => False := by
  induction actions generalizing r with
  | nil => cases h
  | cons a actions ih =>
    have keeps := (routine_act r run a).keepsTime
    simp only [actAll] at h
    split at h <;> rename_i r₁ ha
    · rw [ha] at keeps
      exact ih (keeps.geared g) (keeps.runs ▸ hm) h
    · cases h
    · cases h
    · cases h
      exact act_pause g hm ha

theorem keepsTime_breakOff (g : Geared r) (hm : run ∈ r.runs) : KeepsTime r (r.breakOff run) := by
  unfold breakOff
  split
  · exact .modifySession r _ fun _ => rfl
  · rename_i t rest hp
    refine .onLoops r (.disarm _ _ fun u hu hw => ?_)
    cases u with
    | expire id => exact (g.pauses run hm t rest hp).2 id hw
    | _ => cases hu
  · exact .refl r

theorem minded_putOff (h : Minded id base given set r) (hm : run ∈ r.runs) :
    Minded id base given set (putOff run r) :=
  KeepsTime.minded (.push _ _ rfl) (minded_setPoint h hm fun _ _ => nofun)

theorem minded_fails (h : Minded id base given set r) (here : Option Nat) (hm : run ∈ r.runs)
    (f : Failure) : Minded id base given set ((r.failPhase here run.phase f).unwind here run) := by
  have failed := (routine_failPhase here run.phase f r).keepsTime
  exact minded_unwind (failed.minded h) here (failed.runs ▸ hm)

theorem minded_reset (h : Minded id base given set r) (session : Nat) :
    Minded id base given set (r.modifySession session (·.reset)) :=
  KeepsTime.minded (.modifySession r _ fun _ => rfl) h

theorem minded_works {here : Option Nat} {early : Bool} {actions : List Action}
    {log : List Occurrence} (h : Minded id base given set r)
    (k : Works here run early actions r log r') : Minded id base given set r' := by
  induction k with
  | waits k =>
    refine minded_setPoint (k.routine.keepsTime.minded h) k.after.mem fun t rest he => ?_
    subst he
    exact actAll_pause h.toGeared k.before.mem k.came
  | fails k => exact minded_fails (k.routine.keepsTime.minded h) here k.after.mem _
  | ends k => exact minded_unwind (k.routine.keepsTime.minded h) here k.after.mem
  | putsOff k => exact minded_putOff (k.routine.keepsTime.minded h) k.after.mem
  | again k _ _ ih => exact ih (minded_reset (k.routine.keepsTime.minded h) run.session)

theorem minded_resumes {here : Option Nat} {run : Nat} {log : List Occurrence}
    (h : Minded id base given set r) (k : Resumes here run r log r') :
    Minded id base given set r' := by
  cases k with
  | nobody => exact h
  | stays => exact h
  | interrupted found =>
    have broken := keepsTime_breakOff h.toGeared found.mem
    exact minded_unwind (broken.minded h) here (broken.runs ▸ found.mem)
  | begins _ _ _ k => exact minded_works (minded_reset h _) k
  | carriesOn _ _ k => exact minded_works h k
  | fails found => exact minded_fails h here found.mem _

end Runs

section Happenings

theorem minded_openGate (h : Minded id base given set r) {session : Nat} {f : Option Failure}
    (hg : r.openGate session f = some r') : Minded id base given set r' := by
  obtain ⟨run, hm, _, rest, _, rfl⟩ := openGate_eq_some hg
  have opened := minded_setPoint h hm (p := .opened f rest) fun _ _ => nofun
  exact KeepsTime.minded (.push _ _ rfl) opened

theorem minded_carryOut (h : Minded id base given set r) {here : Option Nat} {d : Deed}
    (hd : r.carryOut here d = .ok r') : Minded id base given set r' := by
  cases does hd with
  | begin hd => exact (keepsTime_begin hd).minded h
  | finish | tryTerminate | terminate => exact (routine_moveIf ..).keepsTime.minded h
  | fail => exact (routine_failPhase ..).keepsTime.minded h
  | enroll phase => exact minded_answers h (answers r phase)
  | complete found => exact minded_unwind h here found.mem

theorem minded_turn_of_loop (h : Minded id base given set r) {loop : Nat}
    (ht : r.step? loop = some r') (hk : given → r.Guarded id) :
    Minded id base given set r' := by
  obtain ⟨t, loops, hl, rfl⟩ := step?_eq_some ht
  have taken : t.isExpire = false → Minded id base given set { r with loops := loops } :=
    fun hn => KeepsTime.minded (.onLoops r (.take hl hn)) h
  cases t with
  | expire other => exact minded_expire h hl hk
  | resume run => exact minded_resumes (taken rfl) (resumes (some loop) run _)
  | pace phase => exact minded_paces (taken rfl) (paces phase _)
  | stamp | «seal» | announce | read | prune => exact (routine_perform loop _ rfl).keepsTime.minded (taken rfl)

theorem doAll_advance {l l' : EventLoop Task} {rest : List (EventLoop Task)} {time : Duration}
    (hl : r.loops = ⟨l :: rest⟩) (ha : l.advance time = l') (ds : List Doing) :
    r.doAll (.happens (.advance 0 time) :: ds) =
      ({ r with loops := ⟨l' :: rest⟩ } : Runner).doAll ds := by
  subst ha
  have passed : r.loops.advance 0 time = ⟨l.advance time :: rest⟩ := by
    rw [hl]
    rfl
  rw [← passed]
  rfl

end Happenings

/-- The request has no timer that it knows of. -/
def Untimed (r : Runner) (id : Nat) : Prop := ∀ q, r.request? id = some q → q.timer = none

/-- Somebody has the request, and it is not said to have timed out while it has a timer. The runner
is not shut down. -/
def Tends (r : Runner) (id : Nat) : Doing → Prop
  | .happens (.command other .timeOut) => other = id → r.Untimed id
  | .happens (.letGo other) => other ≠ id
  | .fires other => other = id → r.Untimed id
  | .shutdown | .dismiss => False
  | .happens _ | .stop _ => True

/-- What was done around a request, in order. -/
inductive Tended (id : Nat) (r : Runner) : List Doing → Runner → Prop
  | refl : Tended id r [] r
  | next {ds : List Doing} {d : Doing} {r₁ r₂ : Runner} :
      Tended id r ds r₁ → r₁.Tends id d → r₁.done? d = some r₂ → Tended id r (ds ++ [d]) r₂

def Sets (id : Nat) (d : Doing) : Prop := ∃ delay, d = .happens (.command id (.setTimeout delay))

/-- A request has no timer when it is said to have timed out. If it is given away, somebody else has
it while it has a timer. -/
theorem minded_after (h : Minded id base given set r) {e : Happening} (he : r.after? e = some r')
    (hu : e = .command id .timeOut → r.Untimed id) (hg : e = .letGo id → given)
    (hk : given → r.Guarded id) (hs : Sets id (.happens e) → set') (hm : set → set') :
    Minded id base given set' r' := by
  have kept : Minded id base given set r' → Minded id base given set' r' := fun h => h.mono hm
  cases e with
  | deed here d => exact kept (minded_carryOut h (toOption_eq_some.mp he))
  | pace phase => cases he; exact kept ((routine_startPacer r phase).keepsTime.minded h)
  | exceedLimit phase =>
    obtain ⟨i, _, hi⟩ := bind_eq_ok.mp (toOption_eq_some.mp he)
    cases hi
    exact kept (h.elsewhere rfl rfl rfl rfl rfl rfl)
  | turn loop => exact kept (minded_turn_of_loop h he hk)
  | advance loop time => cases he; exact kept (KeepsTime.minded (.onLoops r (.advance ..)) h)
  | openGate session f => exact kept (minded_openGate h he)
  | openConnections => cases he; exact kept ((routine_openConnections r).keepsTime.minded h)
  | createRequest session recovery => cases he; exact kept (minded_createRequest h ..)
  | command other c =>
    refine minded_applyCommand h (command_applied (toOption_eq_some.mp he)) (fun ho hc => ?_)
      (fun ho hc => hs ?_) hm
    · exact hu (by rw [ho, hc])
    · obtain ⟨delay, rfl⟩ := hc
      exact ⟨delay, by rw [ho]⟩
  | letGo other => cases he; exact kept (minded_letGo h fun ho => hg (by rw [ho]))
  | beginSurvey recent => cases he; exact kept ((routine_beginSurvey r recent).keepsTime.minded h)
  | beginPruning => cases he; exact kept ((routine_beginPruning r).keepsTime.minded h)
  | poolStats => cases he; exact kept ((keepsTime_poolStats r).minded h)
  | phasePoolStats phase =>
    obtain ⟨⟨stats, r₁⟩, hp, hr⟩ := Option.map_eq_some_iff.mp he
    cases hr
    exact kept ((keepsTime_phasePoolStats (toOption_eq_some.mp hp)).minded h)
  | clock | addConnection =>
    cases he
    exact kept (h.elsewhere rfl rfl rfl rfl rfl rfl)

theorem minded_done (h : Minded id base False set r) {d : Doing} (hd : r.done? d = some r')
    (ht : r.Tends id d) (hs : Sets id d → set') (hm : set → set') : Minded id base False set' r' := by
  cases d with
  | happens e =>
    refine minded_after h hd (fun he => ?_) (fun he => ?_) False.elim hs hm
    · subst he
      exact ht rfl
    · subst he
      exact ht rfl
  | stop session => cases hd; exact (minded_stopSession h session).mono hm
  | fires other =>
    cases hd
    unfold expire
    split
    · exact h.mono hm
    · rename_i q hq
      split
      · exact (minded_timeOut hq (minded_forget h hq fun he => ht he q (he ▸ hq))).mono hm
      · exact h.mono hm
  | shutdown => exact ht.elim
  | dismiss => exact ht.elim

theorem Tended.minded {ds : List Doing} (k : Tended id r ds r') (h : Minded id base False set r) :
    Minded id base False (set ∨ ∃ d ∈ ds, Sets id d) r' := by
  induction k with
  | refl => exact h.mono .inl
  | next _ ht hd ih =>
    refine minded_done ih hd ht (fun hs => .inr ?_) fun hs => hs.imp_right ?_
    · exact ⟨_, List.mem_append_right _ (List.mem_singleton_self _), hs⟩
    · rintro ⟨d, hm, hs⟩
      exact ⟨d, List.mem_append_left _ hm, hs⟩

theorem minded_of_initial (h : r.Initial) (id : Nat) : Minded id (fun _ => 0) given False r := by
  have fresh := fresh_of_initial h
  have none : ∀ id, r.request? id = none := fun id => by
    rw [request?, (unused_of_initial h).1]
    rfl
  have idle : ∀ loop t, r.loops.waits loop t = [] := by
    intro loop t
    rw [LoopGroup.waits]
    cases hl : r.loops.loops[loop]? with
    | none => rfl
    | some l =>
      rw [fresh.loops l (List.mem_of_getElem? hl)]
      rfl
  exact {
    seated := ⟨fresh.size, by simp [fresh.sessions]⟩
    stocked := by
      intro key g hg session hm
      rw [fresh.groups key g hg] at hm
      cases hm
    running := fresh.owned.running
    bound := by simp [fresh.runs]
    ids := by simp [fresh.runs]
    numbered := by simp [fresh.runs]
    pauses := by simp [fresh.runs]
    dated := by
      intro loop id t hm
      rw [waits, idle] at hm
      cases hm
    timers := by
      intro id q t hq
      rw [none] at hq
      cases hq
    knows := fun loop => by rw [waits, idle, known_of_none (none id)]
    held := by
      intro q hq
      rw [none] at hq
      cases hq
    since := fun _ => Nat.zero_le _
    late := by
      intro q t hq
      rw [none] at hq
      cases hq }

/-- The timers of a request that wait, each with its loop. -/
def timersOf (r : Runner) (id : Nat) : List (Nat × Option Nat) :=
  (List.range r.loops.size).flatMap fun loop => (r.waits loop id).map (loop, ·)

theorem flatMap_range_single {α : Type} (n i : Nat) (l : List α) :
    ((List.range n).flatMap fun j => if j = i then l else []) = if i < n then l else [] := by
  induction n with
  | zero => rfl
  | succ n ih =>
    rw [List.range_succ, List.flatMap_append, ih]
    rcases Nat.lt_trichotomy i n with hlt | rfl | hgt
    · simp [hlt, Nat.lt_succ_of_lt hlt, Nat.ne_of_gt hlt]
    · simp
    · simp [Nat.not_lt_of_gt hgt, Nat.ne_of_lt hgt, Nat.not_lt.mpr hgt]

namespace Minded

theorem timersOf_eq (h : Minded id base given set r) (hq : r.request? id = some q) :
    r.timersOf id = (q.timer.map fun t => (r.executorOf q.session, some t)).toList := by
  have known : ∀ loop, (r.waits loop id).map (loop, ·) = if loop = r.executorOf q.session then
      (q.timer.map fun t => (r.executorOf q.session, some t)).toList else [] := by
    intro loop
    rw [h.knows, known_of_some hq]
    split
    · rename_i he
      rw [he]
      cases q.timer <;> rfl
    · rfl
  simp only [timersOf, known, flatMap_range_single]
  cases ht : q.timer with
  | none => simp
  | some t => rw [if_pos (executorOf_lt h.toGeared (h.timers id q t hq ht).1)]

theorem late_of_mem (h : Minded id base given set r) {timer : Nat × Option Nat}
    (hm : timer ∈ r.timersOf id) : ∃ t, timer.2 = some t ∧ base timer.1 ≤ t ∧ set := by
  cases hq : r.request? id with
  | none => simp [timersOf, h.knows, known_of_none hq] at hm
  | some q =>
    rw [h.timersOf_eq hq, Option.mem_toList] at hm
    obtain ⟨t, ht, rfl⟩ := Option.map_eq_some_iff.mp hm
    exact ⟨t, rfl, h.late q t hq ht⟩

theorem untimed (h : Minded id base given set r) (hu : r.Untimed id) :
    Minded id (fun loop => r.loops.armed loop) given False r :=
  { h with
    since := fun _ => Nat.le_refl _
    late := by
      intro q t hq ht
      rw [hu q hq] at ht
      cases ht }

theorem silent (h : Minded id base given set r) (hu : r.Untimed id) : r.timersOf id = [] := by
  refine List.eq_nil_iff_forall_not_mem.mpr fun timer hm => ?_
  obtain ⟨_, _, _, no⟩ := (h.untimed hu).late_of_mem hm
  exact no

end Minded

section Untimed

theorem untimed_completeRequest (r : Runner) (id : Nat) : (r.completeRequest id).Untimed id := by
  intro q hq
  rw [request?_completeRequest, if_pos rfl] at hq
  obtain ⟨_, _, rfl⟩ := Option.map_eq_some_iff.mp hq
  rfl

theorem untimed_releaseRequest (r : Runner) (id : Nat) : (r.releaseRequest id).Untimed id := by
  intro q hq
  rw [releaseRequest, request?_modifyRequest, if_pos rfl] at hq
  obtain ⟨_, _, rfl⟩ := Option.map_eq_some_iff.mp hq
  rfl

theorem untimed_stopSession {session : Nat} {s : Session} (hs : r.session? session = some s)
    (hm : id ∈ s.inFlight) : (r.stopSession session).Untimed id := by
  intro q hq
  rw [stopSession, hs] at hq
  change (s.inFlight.foldl completeRequest _).request? id = some q at hq
  rw [request?_foldl_completeRequest, if_pos hm] at hq
  obtain ⟨_, _, rfl⟩ := Option.map_eq_some_iff.mp hq
  rfl

end Untimed

end LoadGen.Runner
