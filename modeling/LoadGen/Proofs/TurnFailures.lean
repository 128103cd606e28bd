import LoadGen.Proofs.EndTimes
import LoadGen.Proofs.Incidents

namespace LoadGen.Runner

variable {r q r' : Runner}

section Runs

theorem hush_act (r : Runner) (run : Run) (a : Action) : Hush r (r.act run a).2 := by
  have step : ∀ step, Hush r (r.takeStep run step).2 := fun step =>
    (@aside_takeStep (fun _ => True) r run trivial step).record.hushed
      (routine_takeStep r run step).instances
  have found : ∀ q e, Entry.notice? e = none → Hush q (q.log e) := fun q e he =>
    (@Aside.log nobody q e he).record.hushed rfl
  have queued : ∀ q f, Hush q (q.modifyQueuesOf run.session f) := fun q f =>
    (@aside_modifyQueuesOf nobody q run.session f).record.hushed
      (routine_modifyQueuesOf q run.session f).instances
  cases a with
  | run s => exact step s
  | build tag params =>
    simp only [act]
    split
    · exact step _
    · exact .refl r
  | get var => exact found r _ rfl
  | unset var => exact (found r _ rfl).trans (.elsewhere rfl rfl rfl rfl)
  | push key value => exact queued r _
  | pushId key => exact queued r _
  | pull key => exact (found r _ rfl).trans (queued _ _)
  | measure metric stamp event times =>
    simp only [act]
    split
    · rename_i b r' h
      obtain ⟨s, phase, _, _, _, rfl⟩ := bucketFor_ok h
      have each : ∀ n q, Hush q (measureTimes b (stamp.getD r.now) event n q) := by
        intro n
        induction n with
        | zero => exact fun q => .refl q
        | succ n ih => exact fun q => (Hush.modifyBoard q ..).trans (ih _)
      exact (Hush.modifyBoard r ..).trans (each _ _)
    · exact .refl r
  | bound => exact found r _ rfl
  | fail f => exact .refl r
  | failIn session f =>
    simp only [act]
    split <;> exact .refl r
  | gate => exact .refl r

theorem Acts.hush {run : Run} {actions : List Action} {e : TurnEnd} {r r' : Runner}
    (h : Acts run actions r e r') : Hush r r' :=
  h.induction .refl .trans fun r a => hush_act r run a

theorem beats_unwind (here : Option Nat) (run : Run) (r : Runner) :
    Beats r [] (r.unwind here run) := by
  have removed : SameRecord r { r with runs := r.runs.filter (·.id != run.id) } :=
    .elsewhere rfl rfl rfl rfl rfl rfl rfl rfl
  have stopped := (removed.trans (@aside_stopSession nobody _ run.session).record).hushed
    (onRequests_stopSession ..).instances
  have counted : ∀ {i q r'}, Hush r q → q.instances.get? run.phase = some i →
      Leaves here run i q r' → Beats r [] r' := by
    intro i q r' h hq left
    have notes := i.standing.notes_leave q.now
    cases left with
    | stands he => exact (h.trans (.stand hq (Standing.notice_eq he notes))).beats
    | moves hne => exact h.beats.tail (.move here hq (Standing.leave_rank hne) notes)
  have ended := unwinds here run r
  generalize r.unwind here run = r' at ended ⊢
  cases ended with
  | nowhere => exact stopped.beats
  | keeps hi left => exact counted stopped hi left
  | givesBack hi left => exact counted (stopped.trans ((record_giveBack ..).hushed rfl)) hi left

theorem hush_putOff (run : Run) (r : Runner) : Hush r (putOff run r) := .elsewhere rfl rfl rfl rfl

theorem hush_reset (r : Runner) (session : Nat) :
    Hush r (r.modifySession session (·.reset)) := .elsewhere rfl rfl rfl rfl

theorem hush_setPoint (r : Runner) (run : Run) (p : Point) : Hush r (r.setPoint run p) :=
  .elsewhere rfl rfl rfl rfl

theorem episode_works {here : Option Nat} {run : Run} {early : Bool} {actions : List Action}
    {log : List Occurrence} (h : Works here run early actions r log r') :
    Episode r (incidentsIn log) r' := by
  induction h with
  | waits h => exact .after h.hush (hush_setPoint ..).beats.calm
  | fails h => exact .fails here run.phase _ h.hush (beats_unwind here run _)
  | ends h => exact .after h.hush (beats_unwind here run _).calm
  | putsOff h => exact .after h.hush (hush_putOff ..).beats.calm
  | again h _ _ ih => exact .after (h.hush.trans (hush_reset ..)) ih

theorem episode_resumes {here : Option Nat} {id : Nat} {log : List Occurrence}
    (h : Resumes here id r log r') : Episode r (incidentsIn log) r' := by
  cases h with
  | nobody => exact Beats.refl.calm
  | stays => exact Beats.refl.calm
  | @interrupted run =>
    have broken := (@aside_breakOff nobody r run).record.hushed (spares_breakOff r run).instances
    exact (broken.beats.trans (beats_unwind here run _)).calm
  | begins _ _ _ h =>
    have works := episode_works h
    exact .after (hush_reset ..) works
  | carriesOn _ _ h => exact episode_works h
  | fails => exact .fails here _ _ (.refl r) (beats_unwind here _ _)

end Runs

section Happenings

theorem failed_not_mem {log : List Occurrence} (h : ∀ o ∈ log, ∃ name q, o = .asks name q)
    (phase : String) (f : Failure) : .failed phase f ∉ incidentsIn log := by
  intro hm
  rcases mem_incidentsIn hm with ⟨_, _, _, no⟩ | ⟨_, _, _, ho, _⟩
  · cases no
  · obtain ⟨_, _, no⟩ := h _ ho
    cases no

/-- An order is carried out in silence, unless it is to announce something. -/
theorem hush_perform (loop : Nat) (r : Runner) {t : Task} (ht : t.isOrder = true)
    (hn : ∀ fence, t ≠ .announce fence) : Hush r (r.perform loop t) := by
  have views := (routine_perform loop r ht).instances
  have causes := causes_perform loop r ht
  cases t with
  | stamp | prune => exact .modifyBoard ..
  | «seal» fence =>
    refine ⟨view?_congr views, (SameDates.sealed r loop fence).currents, ?_, causes⟩
    simp only [perform, Telling.perform, Runner.sealed]
    split
    · rfl
    · split <;> rfl
  | announce fence => exact absurd rfl (hn fence)
  | read survey slot key =>
    refine ⟨view?_congr views, (SameDates.read loop survey slot key r).currents, ?_, causes⟩
    simp only [perform, Telling.perform, read]
    split
    · split <;> rfl
    · rfl
  | resume => cases ht
  | pace => cases ht
  | expire => cases ht

theorem episode_turn {loop : Nat} (ha : r.Allowed (.turn loop))
    (he : r.after? (.turn loop) = some r') : Episode r (r.incidents (.turn loop)) r' := by
  obtain ⟨t, loops, hl, rfl⟩ := step?_eq_some he
  have taken : Hush r { r with loops := loops } := .elsewhere rfl rfl rfl rfl
  have silent : ∀ {q : Runner}, Hush { r with loops := loops } q → Episode r [] q :=
    fun h => (taken.trans h).beats.calm
  simp only [incidents, occurrences_of_next hl]
  cases t with
  | resume id => exact (episode_resumes (resumes (some loop) id _)).after taken
  | pace phase =>
    have paced := paces phase { r with loops := loops }
    exact .after taken (.calm (failed_not_mem paced.mem) (beats_paces paced))
  | announce fence => exact (taken.beats.tail (.announce fence)).calm
  | expire id =>
    have quiet := (shifts_expire { r with loops := loops } id (ha id loops hl)).hush
      (fun _ no => no) (onRequests_expire ..).instances
    exact silent quiet
  | stamp | «seal» | read | prune =>
    exact silent (hush_perform loop _ rfl fun _ => nofun)

theorem beats_begin (o : r.Owned) {phase : String} (h : r.begin phase = .ok r') :
    Beats r [.begun phase] r' := by
  obtain ⟨i, hi, h⟩ := bind_eq_ok.mp h
  obtain ⟨s, hs, h⟩ := bind_eq_ok.mp h
  have hi := instance?_eq_ok.mp hi
  obtain ⟨_, _, hn, hrun, _⟩ := Standing.start_lawful (o.lawful phase i hi) hs
  have rank : i.standing.status.rank < s.status.rank := by
    rw [hn, hrun]
    decide
  have keyed : r.keyOf phase = i.phase.key := by rw [keyOf, hi]; rfl
  cases hk : i.phase.key with
  | none =>
    have alone : r.groupOf? i.phase = none := by simp [groupOf?, hk]
    rw [alone] at h
    cases h
    exact (Beat.alone (keyed.trans hk)).beats.tail (.move none hi rank (Standing.notes_start hs))
  | some key =>
    have there := o.grouped phase key (keyed.trans hk)
    obtain ⟨g, hg⟩ := Option.isSome_iff_exists.mp there
    rw [groupOf?_eq_some.mpr ⟨hk, hg⟩] at h
    cases h
    have hi' : (r.enterGroup key phase).instances.get? phase = some i := by
      rw [(spares_enterGroup r key phase).instances]
      exact hi
    exact (Beat.enter (keyed.trans hk) there).beats.tail
      (.move none hi' rank (Standing.notes_start hs))

theorem episode_deed (o : r.Owned) {here : Option Nat} {d : Deed}
    (he : r.carryOut here d = .ok r') : Episode r (r.incidents (.deed here d)) r' := by
  cases does he with
  | begin h => exact .calm (by simp [incidents]) (beats_begin o h)
  | finish hi ends | tryTerminate hi ends | terminate hi ends =>
    exact (beats_moveIf here hi fun _ hs => ⟨(ends.onward hs).rank, ends.notes hs⟩).calm
  | fail phase f => exact .fails here phase f (.refl r) .refl
  | enroll phase =>
    exact .calm (failed_not_mem (List.forall_mem_singleton.mpr ⟨_, _, rfl⟩)) (beats_asks phase r)
  | complete found =>
    simp only [incidents, occurrences_complete here found]
    exact (beats_unwind ..).calm

theorem episode_after (o : r.Owned) {e : Happening} (ha : r.Allowed e)
    (he : r.after? e = some r') : Episode r (r.incidents e) r' := by
  have still : Hush r r' → Episode r [] r' := fun h => h.beats.calm
  have quiet : ∀ {q : Runner}, SameRecord r q → q.instances = r.instances → Episode r [] q :=
    fun h hi => (h.hushed hi).beats.calm
  cases e with
  | deed here d => exact episode_deed o (toOption_eq_some.mp he)
  | pace phase =>
    cases he
    exact quiet (@aside_startPacer nobody r phase).record (routine_startPacer r phase).instances
  | exceedLimit phase =>
    obtain ⟨i, _, hi⟩ := bind_eq_ok.mp (toOption_eq_some.mp he)
    cases hi
    exact .calm (by simp [incidents]) (Beat.flag phase).beats
  | turn loop => exact episode_turn ha he
  | advance loop time =>
    cases he
    exact quiet (@Aside.advance nobody r loop time).record rfl
  | openGate session f =>
    exact quiet (@aside_openGate nobody _ _ _ _ he).record (spares_openGate he).instances
  | openConnections =>
    cases he
    exact quiet (@aside_openConnections nobody r).record (routine_openConnections r).instances
  | command id c =>
    have h := toOption_eq_some.mp he
    refine ((shifts_command ha h).hush (fun d hd => ?_) (onRequests_command h).instances).beats.calm
    cases c <;> cases hd
  | beginSurvey recent =>
    cases he
    obtain ⟨loops, hs⟩ := beginSurvey_eq r recent
    exact still (by rw [hs]; exact .elsewhere rfl rfl rfl rfl)
  | beginPruning =>
    cases he
    obtain ⟨loops, hs⟩ := beginPruning_eq r
    exact still (by rw [hs]; exact .elsewhere rfl rfl rfl rfl)
  | poolStats =>
    cases he
    exact quiet (@aside_poolStats nobody r).record rfl
  | phasePoolStats phase =>
    obtain ⟨⟨stats, r₁⟩, hs, he⟩ := Option.map_eq_some_iff.mp he
    cases he
    have h := toOption_eq_some.mp hs
    exact quiet (@aside_phasePoolStats nobody _ _ _ _ h).record (spares_phasePoolStats h).instances
  | clock | createRequest | letGo | addConnection =>
    cases he
    exact still (.elsewhere rfl rfl rfl rfl)

/-- Happenings come down to changes, and so does everything that comes to pass. -/
theorem Course.beats {r₀ : Runner} {es es' : List Happening} (h₀ : r₀.Initial)
    (h : Course r₀ es r) (k : Course r es' r') : Beats r (r.trail incidents es') r' := by
  induction k with
  | refl => exact .refl
  | next hc ha he ih =>
    rw [hc.trail_next incidents he]
    exact ih.trans (episode_after ((h.trans hc).owned h₀) ha he).beats

end Happenings

end LoadGen.Runner
