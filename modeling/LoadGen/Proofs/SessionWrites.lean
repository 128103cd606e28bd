import LoadGen.Proofs.Release
import LoadGen.Proofs.TurnFailures
import LoadGen.Proofs.WorkFrames
import LoadGen.Proofs.Writes

namespace LoadGen.Runner

variable {home : String → Option String} {R : Region} {held : List Nat} {r r₁ r' : Runner}
  {id session : Nat}

theorem Abides.measures (h : Abides r r') {b : BucketRef} (hb : r.Measures home session b) :
    r'.Measures home session b := ⟨hb.1, h.member hb.2⟩

section Requests

theorem owner_eq {q : Request} (ho : r.owner? id = some session) (hq : r.request? id = some q) :
    q.session = session := by
  rw [owner?, hq] at ho
  exact Option.some.inj ho

/-- A request of a session of the region changes, and is measured where it was. -/
theorem writes_modifyRequest (ho : r.owner? id = some session) (hs : r.Inside R session)
    {f : Request → Request} (hf : ∀ q, (f q).session = q.session)
    (hb : ∀ q b, (f q).bucket = some b → q.bucket = some b ∨ r.Measures home session b) :
    Writes home R held r (r.modifyRequest id f) := by
  refine .single (.request id fun q hq => ?_)
  rw [owner_eq ho hq]
  exact ⟨hs, hf q, hb q⟩

/-- A session of the region changes, and has no other requests than before. -/
theorem writes_modifySession (hs : r.Inside R session) {f : Session → Session}
    (hf : ∀ s, (f s).seat = s.seat ∧ (f s).phase = s.phase)
    (hi : ∀ s, ∀ request ∈ (f s).inFlight,
      request ∈ s.inFlight ∨ r.owner? request = some session) :
    Writes home R held r (r.modifySession session f) :=
  .single (.session session hs fun s _ =>
    ⟨(Prod.mk.inj (hf s).1).1, (Prod.mk.inj (hf s).1).2, (hf s).2, hi s⟩)

theorem writes_measure (hs : r.Inside R session) {b : BucketRef}
    (hb : r.Measures home session b) (stamp : Nat) (e : Event) :
    Writes home R held r (r.measure b stamp e) :=
  writes_sameBoard r b.executor (hs.keys hb.2) (fun _ => rfl) fun board =>
    Board.phaseNames_of_dates (board.dates_update b.phase b.metric fun _ => rfl)

theorem writes_measureTimes (hs : r.Inside R session) {b : BucketRef}
    (hb : r.Measures home session b) (stamp : Nat) (e : Event) (n : Nat) :
    Writes home R held r (measureTimes b stamp e n r) := by
  induction n generalizing r with
  | zero => exact .refl
  | succ n ih =>
    have once : Writes home R held r (r.measure b stamp e) := writes_measure hs hb stamp e
    exact once.trans (ih (once.abides.inside hs) (once.abides.measures hb))

theorem writes_measureIn (hs : r.Inside R session) {bucket : Option BucketRef}
    (hb : ∀ b, bucket = some b → r.Measures home session b) (stamp : Nat) (e : Event) :
    Writes home R held r (r.measureIn bucket stamp e) := by
  cases bucket with
  | none => exact .refl
  | some b => exact writes_measure hs (hb b rfl) stamp e

theorem writes_bucketFor (k : Keyed home r) (hs : r.Inside R session) {metric : String}
    {b : BucketRef} (h : r.bucketFor session metric = .ok (b, r')) :
    Writes home R held r r' ∧ r'.Measures home session b := by
  unfold bucketFor at h
  split at h
  · cases h
  · rename_i s hs'
    split at h
    · cases h
    · rename_i phase hp
      cases h
      have homed := k.bound session s phase hs' hp
      have there : session ∈ r.members s.group := mem_members.mpr ⟨s, hs', rfl⟩
      have made : Writes home R held r (r.modifyBoard s.group s.executor
          (·.ensure phase metric r.now)) := by
        refine writes_modifyBoard r s.executor (hs.keys there) fun _ board _ _ => ⟨rfl, ?_⟩
        intro other hm
        rcases Board.mem_phaseNames_ensure.mp hm with old | rfl
        · exact .inl old
        · exact .inr homed
      exact ⟨made, homed, made.abides.member there⟩

theorem owner?_getD (ho : r.owner? id = some session) :
    ((r.request? id).map (·.session)).getD 0 = session := by
  rw [owner?] at ho
  rw [ho]
  rfl

theorem writes_startRequest (ho : r.owner? id = some session) (hs : r.Inside R session)
    {b : BucketRef} (hb : r.Measures home session b) (sequence : Sequence) :
    Writes home R held r (r.startRequest id sequence b) := by
  unfold startRequest
  dsimp only
  rw [owner?_getD ho]
  have started : Writes home R held r
      (r.modifyRequest id (·.start r.now r.instant sequence b)) :=
    writes_modifyRequest ho hs (fun _ => rfl) fun q c hc => .inr (by cases hc; exact hb)
  have measured := started.trans (writes_measure (started.abides.inside hs)
    (started.abides.measures hb) r.now .request)
  refine measured.trans (writes_modifySession (measured.abides.inside hs) (fun s => ?_)
    fun s request hm => ?_)
  · unfold Session.track
    split <;> exact ⟨rfl, rfl⟩
  · unfold Session.track at hm
    split at hm
    · exact .inl hm
    · rcases List.mem_append.mp hm with hm | hm
      · exact .inl hm
      · rw [List.mem_singleton.mp hm]
        exact .inr (measured.abides.owner? ho)

theorem writes_beginRequest (k : Keyed home r) (ho : r.owner? id = some session)
    (hs : r.Inside R session) {sequence : Sequence} {metric : String}
    (h : r.beginRequest id sequence metric = .ok r') : Writes home R held r r' := by
  obtain ⟨⟨b, r₁⟩, hb, h⟩ := bind_eq_ok.mp h
  cases h
  rw [owner?_getD ho] at hb
  obtain ⟨made, measures⟩ : Writes home R held r r₁ ∧ _ := writes_bucketFor k hs hb
  exact made.trans (writes_startRequest (made.abides.owner? ho) (made.abides.inside hs) measures
    sequence)

theorem writes_disarmRequest (r : Runner) (q : Request) :
    Writes home R held r (r.disarmRequest q) := by
  unfold disarmRequest
  split
  · exact writes_disarm ..
  · exact .refl

theorem writes_completeRequest (ho : r.owner? id = some session) (hs : r.Inside R session) :
    Writes home R held r (r.completeRequest id) := by
  unfold completeRequest
  split
  · exact .refl
  · rename_i q hq
    rw [owner_eq ho hq]
    dsimp only
    have disarmed : Writes home R held r (r.disarmRequest q) := writes_disarmRequest r q
    have completed := disarmed.trans (writes_modifyRequest (f := (·.complete))
      (disarmed.abides.owner? ho) (disarmed.abides.inside hs) (fun _ => rfl) fun _ _ => .inl)
    exact completed.trans (writes_modifySession (completed.abides.inside hs) (fun _ => ⟨rfl, rfl⟩)
      fun _ _ hm => .inl (List.mem_of_mem_filter hm))

theorem writes_releaseRequest (ho : r.owner? id = some session) (hs : r.Inside R session) :
    Writes home R held r (r.releaseRequest id) := by
  have completed : Writes home R held r (r.completeRequest id) := writes_completeRequest ho hs
  exact completed.trans (writes_modifyRequest (completed.abides.owner? ho)
    (completed.abides.inside hs) (fun _ => rfl) fun _ _ hb => by cases hb)

theorem writes_recover (k : Keyed home r) (ho : r.owner? id = some session)
    (hs : r.Inside R session) (recovery : Recovery) :
    Writes home R held r (r.recover id recovery) := by
  cases recovery with
  | complete => exact writes_completeRequest ho hs
  | leave => exact .refl
  | release => exact writes_releaseRequest ho hs
  | markInvalid => exact writes_modifyRequest ho hs (fun _ => rfl) fun _ _ => .inl
  | restart sequence metric =>
    simp only [recover]
    split
    · rename_i r' h
      exact writes_beginRequest k ho hs h
    · exact .refl

theorem writes_timeOut (k : Keyed home r) (ho : r.owner? id = some session)
    (hs : r.Inside R session) : Writes home R held r (r.timeOut id) := by
  unfold timeOut
  split
  · exact .refl
  · rename_i q hq
    dsimp only
    have forgot : Writes home R held r (r.modifyRequest id fun q => { q with timer := none }) :=
      writes_modifyRequest ho hs (fun _ => rfl) fun _ _ => .inl
    split
    · exact forgot
    · have marked := forgot.trans (writes_modifyRequest (f := fun q =>
        { q with verdict := .timedOut, recoveries := q.recoveries + 1 })
        (forgot.abides.owner? ho) (forgot.abides.inside hs) (fun _ => rfl) fun _ _ => .inl)
      have buckets : ∀ b, q.bucket = some b → r.Measures home session b := fun b hb =>
        owner_eq ho hq ▸ k.buckets id q b hq hb
      have counted := marked.trans (writes_measureIn (marked.abides.inside hs)
        (fun b hb => marked.abides.measures (buckets b hb)) q.stamp .timeout)
      have recovered := counted.trans (writes_recover (counted.keyed k) (counted.abides.owner? ho)
        (counted.abides.inside hs) q.recovery)
      refine recovered.trans ?_
      cases q.connection with
      | none => exact .refl
      | some c => exact writes_notes rfl rfl rfl rfl rfl rfl rfl rfl rfl rfl rfl

theorem writes_expire (k : Keyed home r) (ho : r.owner? id = some session)
    (hs : r.Inside R session) : Writes home R held r (r.expire id) := by
  unfold Runner.expire
  split
  · exact .refl
  · split
    · exact writes_timeOut k ho hs
    · exact .refl

theorem writes_setTimeout (ho : r.owner? id = some session) (hs : r.Inside R session)
    (delay : Duration) : Writes home R held r (r.setTimeout id delay) := by
  unfold setTimeout
  split
  · exact .refl
  · rename_i q _
    split
    · exact .refl
    · rename_i s _
      dsimp only
      have armed : Writes home R held r
          { r with loops := (r.loops.arm s.executor delay (.expire id)).2 } :=
        writes_arm r s.executor delay trivial
      have set := armed.trans (writes_disarmRequest _ q)
      exact set.trans (writes_modifyRequest (set.abides.owner? ho) (set.abides.inside hs)
        (fun _ => rfl) fun _ _ => .inl)

theorem writes_respond (k : Keyed home r) (ho : r.owner? id = some session)
    (hs : r.Inside R session) : Writes home R held r (r.respond id) := by
  unfold respond
  split
  · exact .refl
  · rename_i q hq
    split
    · rename_i b t hb _
      exact writes_measure hs (owner_eq ho hq ▸ k.buckets id q b hq hb) _ _
    · exact .refl

theorem writes_focus (ho : r.owner? id = some session) (hs : r.Inside R session) :
    Writes home R held r (r.enterRequest id) ∧ Writes home R held r (r.exitRequest id) := by
  unfold enterRequest exitRequest
  split
  · exact ⟨.refl, .refl⟩
  · rename_i q hq
    rw [owner_eq ho hq]
    exact ⟨writes_modifySession hs (fun _ => ⟨rfl, rfl⟩) fun _ _ => .inl,
      writes_modifySession hs (fun _ => ⟨rfl, rfl⟩) fun _ _ => .inl⟩

theorem writes_stopSession (k : Keyed home r) (hs : r.Inside R session) :
    Writes home R held r (r.stopSession session) := by
  unfold stopSession
  dsimp only
  generalize hl : ((r.session? session).map (·.inFlight)).getD [] = l
  have own : ∀ request ∈ l, r.owner? request = some session := by
    intro request hm
    cases hs' : r.session? session with
    | none =>
      rw [hs'] at hl
      subst hl
      cases hm
    | some s =>
      rw [hs'] at hl
      subst hl
      exact k.inFlight session s hs' request hm
  have emptied : Writes home R held r (r.modifySession session fun s => { s with inFlight := [] }) :=
    writes_modifySession hs (fun _ => ⟨rfl, rfl⟩) fun _ _ hm => by cases hm
  have completed : ∀ (l : List Nat) (q : Runner), q.Inside R session →
      (∀ request ∈ l, q.owner? request = some session) →
        Writes home R held q (l.foldl completeRequest q) := by
    intro l
    induction l with
    | nil => exact fun _ _ _ => .refl
    | cons request l ih =>
      intro q hq own
      have once : Writes home R held q (q.completeRequest request) :=
        writes_completeRequest (own request List.mem_cons_self) hq
      exact once.trans (ih _ (once.abides.inside hq) fun other hm =>
        once.abides.owner? (own other (List.mem_cons_of_mem _ hm)))
  have done := emptied.trans (completed l _ (emptied.abides.inside hs) fun request hm =>
    emptied.abides.owner? (own request hm))
  exact done.trans (writes_modifySession (done.abides.inside hs) (fun _ => ⟨rfl, rfl⟩)
    fun _ _ => .inl)

theorem writes_applyCommand (k : Keyed home r) (ho : r.owner? id = some session)
    (hs : r.Inside R session) {c : RequestCommand} (h : r.applyCommand id c = .ok r') :
    Writes home R held r r' := by
  have mark : ∀ f : Request → Request, (∀ q, (f q).session = q.session ∧ (f q).bucket = q.bucket) →
      Writes home R held r (r.modifyRequest id f) := fun f hf =>
    writes_modifyRequest ho hs (fun q => (hf q).1) fun q b hb => .inl ((hf q).2 ▸ hb)
  cases c with
  | begin metric sequence => exact writes_beginRequest k ho hs h
  | setTimeout delay => cases h; exact writes_setTimeout ho hs delay
  | timeOut => cases h; exact writes_timeOut k ho hs
  | respond => cases h; exact writes_respond k ho hs
  | complete => cases h; exact writes_completeRequest ho hs
  | release => cases h; exact writes_releaseRequest ho hs
  | enter => cases h; exact (writes_focus ho hs).1
  | exit => cases h; exact (writes_focus ho hs).2
  | look => cases h; exact .refl
  | attach | sent | completing | invalidate => cases h; exact mark _ fun _ => ⟨rfl, rfl⟩

theorem writes_command (k : Keyed home r) (ho : r.owner? id = some session)
    (hs : r.Inside R session) {c : RequestCommand} (h : r.command id c = .ok r') :
    Writes home R held r r' := by
  unfold command at h
  split at h
  · split at h
    · exact writes_applyCommand k ho hs h
    · cases h
  · exact writes_applyCommand k ho hs h

end Requests

section Steps

theorem writes_log (r : Runner) (e : Entry) : Writes home R held r (r.log e) :=
  writes_notes rfl rfl rfl rfl rfl rfl rfl rfl rfl rfl rfl

theorem writes_modifyQueuesOf (hs : r.Inside R session) (f : Queues → Queues) :
    Writes home R held r (r.modifyQueuesOf session f) := by
  unfold modifyQueuesOf
  split
  · rename_i s hs'
    exact writes_modifyQueues r s.executor f (hs.keys (mem_members.mpr ⟨s, hs', rfl⟩))
  · exact .refl

theorem writes_takeStep {run : Run} (hs : r.Inside R run.session) (step : Step) :
    Writes home R held r (r.takeStep run step).2 := by
  cases step with
  | log => exact writes_log ..
  | set => exact writes_modifySession hs (fun _ => ⟨rfl, rfl⟩) fun _ _ => .inl
  | pause time => exact writes_arm r _ time (t := .resume run.id) trivial

theorem writes_act {run : Run} (k : Keyed home r) (hs : r.Inside R run.session) (a : Action) :
    Writes home R held r (r.act run a).2 := by
  cases a with
  | run step => exact writes_takeStep hs step
  | build tag params =>
    simp only [act]
    split
    · exact writes_takeStep hs _
    · exact .refl
  | get | bound => exact writes_log ..
  | unset var =>
    have found : Writes home R held r
        (r.log (.found run.session (.value (r.var? run.session var)))) := writes_log ..
    exact found.trans (writes_modifySession (found.abides.inside hs) (fun _ => ⟨rfl, rfl⟩)
      fun _ _ => .inl)
  | push | pushId => exact writes_modifyQueuesOf hs _
  | pull key =>
    have found : Writes home R held r
        (r.log (.found run.session (.value ((r.queues run.session).pull key).1))) := writes_log ..
    exact found.trans (writes_modifyQueuesOf (found.abides.inside hs) _)
  | measure metric stamp event times =>
    simp only [act]
    split
    · rename_i b r' h
      obtain ⟨made, measures⟩ : Writes home R held r r' ∧ _ := writes_bucketFor k hs h
      exact made.trans (writes_measureTimes (made.abides.inside hs) measures _ event times)
    · exact .refl
  | failIn =>
    simp only [act]
    split <;> exact .refl
  | fail | gate => exact .refl

theorem writes_actAll {run : Run} (actions : List Action) (k : Keyed home r)
    (hs : r.Inside R run.session) : Writes home R held r (actAll run actions r).2 := by
  induction actions generalizing r with
  | nil => exact .refl
  | cons a rest ih =>
    have once : Writes home R held r (r.act run a).2 := writes_act k hs a
    simp only [actAll]
    split <;> rename_i r' h <;> rw [h] at once
    · exact once.trans (ih (once.keyed k) (once.abides.inside hs))
    · exact once
    · exact once
    · exact once

end Steps

section Turns
variable {run : Run}

theorem Keyed.inside (k : Keyed home r) (hc : R.Covers home run.phase) (hm : run ∈ r.runs) :
    r.Inside R run.session := by
  obtain ⟨key, hk, there⟩ := k.staffed run hm
  exact ⟨key, hc.keys key hk, there⟩

theorem writes_setPoint (k : Keyed home r) (hc : R.Covers home run.phase) (hm : run ∈ r.runs)
    (p : Point) : Writes home R held r (r.setPoint run p) := by
  refine .single (.points fun other ho => ?_)
  by_cases he : other.id = run.id
  · rw [if_pos he, List.inj_on_of_nodup_map k.ids ho hm he]
    exact ⟨rfl, .inr hc.self⟩
  · rw [if_neg he]
    exact ⟨rfl, .inl rfl⟩

theorem writes_retire {key : String} {i : Instance} (hc : R.Covers home run.phase)
    (hm : run ∈ r.runs) (hi : r.instances.get? run.phase = some i) (hk : home run.phase = some key)
    (there : run.session ∈ r.members key) (now : Nat) :
    Writes home R held r (r.retire run key (i.standing.leave now)) := by
  have parted : Touches home R (r, held)
      ({ r.modifyInstance run.phase fun j => { j with standing := i.standing.leave now } with
        runs := r.runs.filter (·.id != run.id) }, run.session :: held) := by
    refine .single (.part hm hc.self fun j hj => ?_)
    cases hi.symm.trans hj
    refine ⟨rfl, Standing.leave_active .., fun fresh => ?_⟩
    rw [Standing.leave_status] at fresh
    split at fresh
    · cases fresh
    · exact fresh
  have given : Touch home R
      ({ r.modifyInstance run.phase fun j => { j with standing := i.standing.leave now } with
        runs := r.runs.filter (·.id != run.id) }, run.session :: held)
      (r.retire run key (i.standing.leave now), (run.session :: held).erase run.session) :=
    .give (hc.keys key hk) List.mem_cons_self (parted.abides.member there)
  rw [List.erase_cons_head] at given
  exact parted.tail given

theorem writes_unwind (here : Option Nat) (k : Keyed home r) (hc : R.Covers home run.phase)
    (hm : run ∈ r.runs) : Writes home R held r (r.unwind here run) := by
  obtain ⟨key, hk, there⟩ := k.staffed run hm
  obtain ⟨i, hi, hkey⟩ : ∃ i, r.instances.get? run.phase = some i ∧ i.phase.key = some key := by
    have hk := hk
    rw [← k.declared] at hk
    exact Option.bind_eq_some_iff.mp hk
  have stopped : Writes home R held r (r.stopSession run.session) :=
    writes_stopSession k (k.inside hc hm)
  have hi' : (r.stopSession run.session).instances.get? run.phase = some i := by
    rw [(onRequests_stopSession ..).instances]
    exact hi
  have retired := stopped.trans (writes_retire hc ((stopSession_runs r run.session).symm ▸ hm)
    hi' hk (stopped.abides.member there) (r.stopSession run.session).now)
  have told := retired.trans (writes_told here hc
    (i.standing.leave (r.stopSession run.session).now).status.isTerminating (retired.keyed k))
  simp only [retire, stopSession_runs] at retired told
  unfold Runner.unwind
  dsimp only
  rw [stopSession_withRuns r (r.runs.filter (·.id != run.id)) run.session]
  dsimp only
  rw [hi']
  dsimp only
  rw [hkey]
  dsimp only
  split
  · exact retired
  · exact told

theorem writes_putOff (k : Keyed home r) (hc : R.Covers home run.phase) (hm : run ∈ r.runs) :
    Writes home R held r (putOff run r) :=
  (writes_setPoint k hc hm .fresh).trans (writes_push _ _ trivial)

theorem writes_fails (here : Option Nat) (f : Failure) (k : Keyed home r)
    (hc : R.Covers home run.phase) (hm : run ∈ r.runs) :
    Writes home R held r ((r.failPhase here run.phase f).unwind here run) := by
  have failed : Writes home R held r (r.failPhase here run.phase f) :=
    writes_failPhase here f hc k
  refine failed.trans (writes_unwind here (failed.keyed k) hc ?_)
  rw [(routine_failPhase here run.phase f r).keepsWork.runs]
  exact hm

theorem writes_acts (held : List Nat) {actions : List Action} {e : TurnEnd} (k : Keyed home r)
    (hc : R.Covers home run.phase) (h : Acts run actions r e r') : Writes home R held r r' := by
  have acted : Writes home R held r (actAll run actions r).2 :=
    writes_actAll actions k (k.inside hc h.before.mem)
  rwa [h.came] at acted

theorem writes_reset (held : List Nat) (k : Keyed home r) (hc : R.Covers home run.phase) (hm : run ∈ r.runs) :
    Writes home R held r (r.modifySession run.session (·.reset)) :=
  writes_modifySession (k.inside hc hm) (fun _ => ⟨rfl, rfl⟩) fun _ _ => .inl

/-- A run at work leaves the region alone that it is not of, however its turn ends. -/
theorem writes_works {here : Option Nat} {early : Bool} {actions : List Action}
    {log : List Occurrence} (k : Keyed home r) (hc : R.Covers home run.phase)
    (h : Works here run early actions r log r') : Writes home R held r r' := by
  induction h generalizing held with
  | waits h =>
    have acted := writes_acts held k hc h
    exact acted.trans (writes_setPoint (acted.keyed k) hc h.after.mem _)
  | fails h =>
    have acted := writes_acts held k hc h
    exact acted.trans (writes_fails here _ (acted.keyed k) hc h.after.mem)
  | ends h =>
    have acted := writes_acts held k hc h
    exact acted.trans (writes_unwind here (acted.keyed k) hc h.after.mem)
  | putsOff h =>
    have acted := writes_acts held k hc h
    exact acted.trans (writes_putOff (acted.keyed k) hc h.after.mem)
  | again h _ _ ih =>
    have acted := writes_acts held k hc h
    have ready := acted.trans (writes_reset held (acted.keyed k) hc h.after.mem)
    exact ready.trans (ih (ready.keyed k))

theorem writes_breakOff (hs : r.Inside R run.session) : Writes home R held r (r.breakOff run) := by
  unfold breakOff
  split
  · exact writes_modifySession hs (fun _ => ⟨rfl, rfl⟩) fun _ _ => .inl
  · exact writes_disarm ..
  · exact .refl

theorem writes_resumes {here : Option Nat} {id : Nat} {log : List Occurrence} (k : Keyed home r)
    (hc : ∀ run, r.runs.find? (·.id == id) = some run → R.Covers home run.phase)
    (h : Resumes here id r log r') : Writes home R held r r' := by
  cases h with
  | nobody => exact .refl
  | stays => exact .refl
  | @interrupted run _ found =>
    have covers := hc run found
    have broken : Writes home R held r (r.breakOff run) :=
      writes_breakOff (k.inside covers found.mem)
    refine broken.trans (writes_unwind here (broken.keyed k) covers ?_)
    rw [(keepsWork_breakOff r run).runs]
    exact found.mem
  | begins found _ _ h =>
    have ready := writes_reset held k (hc _ found) found.mem
    exact ready.trans (writes_works (ready.keyed k) (hc _ found) h)
  | carriesOn found _ h => exact writes_works k (hc _ found) h
  | fails found => exact writes_fails here _ k (hc _ found) found.mem

theorem writes_openGate {f : Option Failure} (k : Keyed home r) {key : String}
    (hm : session ∈ r.members key) (h : r.openGate session f = some r') :
    Writes home (.group home key) held r r' := by
  obtain ⟨run, there, rfl, rest, _, rfl⟩ := openGate_eq_some h
  obtain ⟨other, hk, ho⟩ := k.staffed run there
  obtain rfl := key_unique hm ho
  exact (writes_setPoint k (.group hk) there _).trans (writes_push _ _ trivial)

end Turns

end LoadGen.Runner
