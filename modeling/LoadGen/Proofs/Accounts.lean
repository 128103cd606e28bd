import LoadGen.Proofs.Iterations
import LoadGen.Proofs.Timers

namespace LoadGen.Runner

def Carries (r : Runner) (session id : Nat) : Prop := ∃ l, r.inFlight? session = some l ∧ id ∈ l

/-- The session of the request has an iteration that has begun and not returned. -/
def UnderWay (r : Runner) (id : Nat) : Prop :=
  ∃ run ∈ r.runs, r.owner? id = some run.session ∧ run.point ≠ .fresh

/-- The last thing that is told of the run is that it returned from an iteration, with the request in
flight. -/
def LeftBy (log : List Milestone) (run : Run) (id : Nat) : Prop :=
  ∃ last, (storyOf run.id log).getLast? = some last ∧ last.juncture = .succeeds ∧
    last.runner.Carries run.session id

/-- A happening treats the request as an iteration does. It begins while an iteration of its session
is under way, and it is set a timer while it is in flight; nobody says that it has timed out while a
timer waits. Requests are made for sessions that are there. -/
def Uses (r : Runner) (id : Nat) : Happening → Prop
  | .createRequest session _ => session < r.sessions.length
  | .command other (.begin ..) => other = id → r.UnderWay id
  | .command other (.setTimeout _) => other = id → ∃ session, r.Carries session id
  | .command other .timeOut => other = id → r.Untimed id ∧ r.UnderWay id
  | _ => True

/-- What happened while a request was used by iterations only. -/
inductive Used (id : Nat) (r : Runner) : List Happening → Runner → Prop
  | refl : Used id r [] r
  | next {es : List Happening} {e : Happening} {r₁ r₂ : Runner} :
      Used id r es r₁ → r₁.Allowed e → r₁.Uses id e → r₁.after? e = some r₂ →
        Used id r (es ++ [e]) r₂

variable {r r₁ r' : Runner} {log log' : List Milestone} {id other : Nat} {started : Nat → Prop}
  {run : Run} {q : Request} {base : Nat → Nat} {set : Prop}

theorem InStep.carries_iff (h : InStep r started) {i : Nat} :
    r.Carries i id ↔ r.owner? id = some i ∧ started id := by
  constructor
  · rintro ⟨l, hl, hm⟩
    exact (h.mem_iff i l hl id).mp hm
  · intro hs
    obtain ⟨l, hl⟩ := Option.isSome_iff_exists.mp (h.placed id i hs.1)
    exact ⟨l, hl, (h.mem_iff i l hl id).mpr hs⟩

section Owners

theorem KeepsTime.owner? (k : KeepsTime r r') (id : Nat) : r'.owner? id = r.owner? id := by
  have same := congrArg (Option.map Prod.fst) (k.requests id)
  rw [Option.map_map, Option.map_map] at same
  exact same

theorem owner?_releaseRequest (r : Runner) (other id : Nat) :
    (r.releaseRequest other).owner? id = r.owner? id :=
  (owner?_modifyRequest _ other id (f := Request.release) fun _ => rfl).trans
    (owner?_completeRequest r other id)

theorem owner?_timeOut (r : Runner) (other id : Nat) :
    (r.timeOut other).owner? id = r.owner? id := by
  cases hq : r.request? other with
  | none => simp only [timeOut, hq]
  | some q =>
    cases hc : q.isCompleted with
    | true =>
      simp only [timeOut, hq, hc, if_true]
      exact owner?_modifyRequest r other id fun _ => rfl
    | false =>
      rw [timeOut_eq hq hc, (routine_notifyConnection ..).spins.owner]
      have counted := (spins_timedOut r other q).owner id
      cases q.recovery with
      | complete => exact (owner?_completeRequest ..).trans counted
      | leave => exact counted
      | release => exact (owner?_releaseRequest ..).trans counted
      | markInvalid =>
        exact (owner?_modifyRequest _ other id (f := fun q => { q with verdict := .invalid })
          fun _ => rfl).trans counted
      | restart sequence metric =>
        simp only [recover]
        split
        · rename_i h
          exact ((keepsTime_beginRequest h).owner? id).trans counted
        · exact counted

theorem owner?_applyCommand {c : RequestCommand} (h : r.applyCommand other c = .ok r') (id : Nat) :
    r'.owner? id = r.owner? id := by
  cases c with
  | begin => exact (keepsTime_beginRequest h).owner? id
  | timeOut => cases h; exact owner?_timeOut r other id
  | complete => cases h; exact owner?_completeRequest r other id
  | release => cases h; exact owner?_releaseRequest r other id
  | attach | sent | completing | invalidate =>
    cases h
    exact owner?_modifyRequest r other id fun _ => rfl
  | setTimeout delay => cases h; exact (spins_setTimeout r other delay).owner id
  | respond => cases h; exact (routine_respond r other).spins.owner id
  | enter => cases h; exact (routine_enterRequest r other).spins.owner id
  | exit => cases h; exact (routine_exitRequest r other).spins.owner id
  | look => cases h; rfl

theorem owner?_stopSession (r : Runner) (session id : Nat) :
    (r.stopSession session).owner? id = r.owner? id := by
  have all : ∀ (l : List Nat) (r : Runner), (l.foldl completeRequest r).owner? id = r.owner? id := by
    intro l
    induction l with
    | nil => exact fun _ => rfl
    | cons other l ih => exact fun r => (ih _).trans (owner?_completeRequest r other id)
  exact all _ (r.modifySession session fun s => { s with inFlight := [] })

theorem applyCommand_of_gone {c : RequestCommand} (hq : r.request? other = none)
    (hb : ∀ metric sequence, c ≠ .begin metric sequence) (h : r.applyCommand other c = .ok r') :
    r' = r := by
  have gone : ∀ f, r.modifyRequest other f = r := by
    intro f
    simp only [Runner.modifyRequest, List.modify_eq_self (List.getElem?_eq_none_iff.mp hq)]
  cases c with
  | begin metric sequence => exact absurd rfl (hb metric sequence)
  | _ =>
    cases h
    simp only [timeOut, setTimeout, respond, completeRequest, releaseRequest, enterRequest,
      exitRequest, hq, gone]

end Owners

section Silence

theorem KeepsTime.untimed (k : KeepsTime r r') (h : r.Untimed id) : r'.Untimed id := by
  intro q hq
  obtain ⟨q₀, h₀, _, timer, _⟩ := k.request_of hq
  rw [timer]
  exact h q₀ h₀

/-- A request that is said to have timed out has no timer, whatever is done about it. -/
theorem untimed_timeOut (r : Runner) (id : Nat) : (r.timeOut id).Untimed id := by
  cases hq : r.request? id with
  | none =>
    simp only [timeOut, hq]
    intro q hq'
    cases hq.symm.trans hq'
  | some q =>
    cases hc : q.isCompleted with
    | true =>
      simp only [timeOut, hq, hc, if_true]
      intro q' hq'
      rw [request?_modifyRequest, if_pos rfl, hq] at hq'
      cases hq'
      rfl
    | false =>
      rw [timeOut_eq hq hc]
      refine (routine_notifyConnection _ _).keepsTime.untimed ?_
      have forgot : (r.timedOut id q).Untimed id := by
        intro q' hq'
        cases (request?_timedOut hq).symm.trans hq'
        rfl
      cases q.recovery with
      | complete => exact untimed_completeRequest _ _
      | leave => exact forgot
      | release => exact untimed_releaseRequest _ _
      | markInvalid => exact KeepsTime.untimed (.modifyRequest _ _ fun _ _ => rfl) forgot
      | restart sequence metric =>
        simp only [recover]
        split
        · rename_i h
          exact (keepsTime_beginRequest h).untimed forgot
        · exact forgot

end Silence

/-- It is known which requests are started; this one is so only if a run of its session accounts for
it. -/
structure Traced (log : List Milestone) (id : Nat) (started : Nat → Prop) (r : Runner) : Prop where
  inStep : InStep r started
  accounted : started id → ∀ i, r.owner? id = some i →
    ∃ run ∈ r.runs, run.session = i ∧ (run.point ≠ .fresh ∨ LeftBy log run id)

/-- The request is traced later on. It has no timer any more if it was started and is no more. -/
def Retraced (log : List Milestone) (id : Nat) (started : Nat → Prop) (r' : Runner) : Prop :=
  ∃ started', Traced log id started' r' ∧ (started id → started' id ∨ r'.Untimed id)

section Accounts

theorem LeftBy.append (h : LeftBy log run id) (ho : ∀ m ∈ log', m.run.id ≠ run.id) :
    LeftBy (log ++ log') run id := by
  have none : storyOf run.id log' = [] :=
    List.filter_eq_nil_iff.mpr fun m hm => by simpa using ho m hm
  rw [LeftBy, storyOf_append, none, List.append_nil]
  exact h

theorem leftBy_concat (hc : r.Carries run.session id) :
    LeftBy (log ++ [⟨run, .succeeds, r⟩]) run id := by
  refine ⟨⟨run, .succeeds, r⟩, ?_, rfl, hc⟩
  rw [storyOf_append]
  simp [storyOf]

namespace Traced

theorem retraced (h : Traced log id started r) : Retraced log id started r := ⟨started, h, .inl⟩

theorem still (h : Traced log id started r) (s : SameRuns r r') (k : Spins r r') :
    Traced log id started r' where
  inStep := h.inStep.spins k
  accounted := by
    rw [s.runs]
    intro hs i ho
    exact h.accounted hs i ((k.owner id).symm.trans ho)

theorem keeps (h : Traced log id started r) (k : KeepsWork r r') : Traced log id started r' :=
  h.still k.toSameRuns k.spins

theorem aside (h : Traced log id started r) (k : KeepsWork r r') :
    Retraced (log ++ []) id started r' := by
  rw [List.append_nil]
  exact (h.keeps k).retraced

theorem marked {m : Option Mark} (h : Traced log id started r) (s : SameRuns r r')
    (k : InStep r' (marked started other m)) (ho : ∀ id, r'.owner? id = r.owner? id)
    (begun : other = id → m = some .started → r.UnderWay id ∨ started id)
    (ended : other = id → m = some .ended → r'.Untimed id) : Retraced log id started r' := by
  refine ⟨_, ⟨k, fun hs i hi => ?_⟩, fun hs => ?_⟩
  · rw [ho] at hi
    rw [s.runs]
    have under : r.UnderWay id ∨ started id := by
      unfold Runner.marked at hs
      split at hs
      · rename_i he
        cases m with
        | none => exact .inr (he ▸ hs)
        | some m => exact begun he.symm (congrArg some hs)
      · exact .inr hs
    rcases under with ⟨run, hm, hr, hp⟩ | hs
    · cases hr.symm.trans hi
      exact ⟨run, hm, rfl, .inl hp⟩
    · exact h.accounted hs i hi
  · unfold Runner.marked
    split
    · rename_i he
      cases m with
      | none => exact .inl (he ▸ hs)
      | some m =>
        cases m with
        | started => exact .inl rfl
        | ended => exact .inr (ended he.symm rfl)
    · exact .inl hs

theorem command {c : RequestCommand} (h : Traced log id started r)
    (ha : r.Allowed (.command other c)) (hu : r.Uses id (.command other c))
    (hc : r.command other c = .ok r') : Retraced log id started r' := by
  have applied := command_applied hc
  cases hq : r.request? other with
  | none =>
    have same : r' = r := applyCommand_of_gone hq (fun metric sequence he => by
      subst he
      obtain ⟨q, there, _⟩ := ha
      cases hq.symm.trans there) applied
    rw [same]
    exact h.retraced
  | some q =>
    have k := h.inStep.applyCommand hq c
    rw [applied] at k
    refine h.marked (onRequests_command hc).sameRuns k (owner?_applyCommand applied) (fun he hm => .inl ?_)
      fun he hm => ?_
    · subst he
      cases c with
      | begin => exact hu rfl
      | timeOut => exact (hu rfl).2
      | _ => cases hm
    · subst he
      cases c with
      | timeOut => cases applied; exact untimed_timeOut _ _
      | complete => cases applied; exact untimed_completeRequest _ _
      | release => cases applied; exact untimed_releaseRequest _ _
      | begin =>
        simp only [commandMark?] at hm
        split at hm <;> cases hm
      | _ => cases hm

theorem expire (h : Traced log id started r) (hs : other = id → started id) :
    Retraced log id started (r.expire other) := by
  cases hq : r.request? other with
  | none =>
    simp only [Runner.expire, hq]
    exact h.retraced
  | some q =>
    have owner : ∀ id, (r.expire other).owner? id = r.owner? id := by
      intro id
      simp only [Runner.expire, hq]
      split
      · exact owner?_timeOut ..
      · rfl
    refine h.marked (onRequests_expire r other).sameRuns (h.inStep.expire hq) owner
      (fun he _ => .inr (hs he)) fun he hm => ?_
    subst he
    split at hm
    · rename_i hk
      simp only [Runner.expire, hq, hk, if_true]
      exact untimed_timeOut _ _
    · cases hm

theorem admits (h : Traced log id started r) (hn : r.Numbered)
    (k : Admits r log' r') : Traced (log ++ log') id started r' where
  inStep := k.inStep h.inStep
  accounted := by
    intro hs i ho
    have same : r'.owner? id = r.owner? id := by rw [owner?, owner?, request?, k.requests]; rfl
    obtain ⟨run, hm, hi, acc⟩ := h.accounted hs i (same.symm.trans ho)
    refine ⟨run, k.runs run hm, hi, acc.imp_right fun left => left.append fun m hl => ?_⟩
    exact Nat.ne_of_gt (Nat.lt_of_lt_of_le (hn run hm) (k.news m hl))

/-- A run comes to another point. It accounts for what is in flight as it did before, if it has not
returned, and with its return if it has. -/
theorem setPoint (h : Traced log id started r) (hi : (r.runs.map (·.id)).Nodup) (hm : run ∈ r.runs)
    (hl : ∀ m ∈ log', m.run.id = run.id) {p : Point}
    (hp : r.Carries run.session id → p ≠ .fresh ∨ LeftBy (log ++ log') run id) :
    Traced (log ++ log') id started (r.setPoint run p) where
  inStep := h.inStep.spins (.elsewhere rfl rfl)
  accounted := by
    intro hs i ho
    obtain ⟨other, there, rfl, acc⟩ := h.accounted hs i ho
    by_cases he : other.id = run.id
    · cases List.inj_on_of_nodup_map hi there hm he
      have new : { run with point := p } ∈ (r.setPoint run p).runs :=
        List.mem_map.mpr ⟨run, hm, if_pos rfl⟩
      exact ⟨_, new, rfl, hp (h.inStep.carries_iff.mpr ⟨ho, hs⟩)⟩
    · have old : other ∈ (r.setPoint run p).runs := List.mem_map.mpr ⟨other, there, if_neg he⟩
      refine ⟨other, old, rfl, acc.imp_right fun left => left.append fun m hlm => ?_⟩
      rw [hl m hlm]
      exact Ne.symm he

theorem unwind (h : Traced log id started r) (here : Option Nat)
    (hi : (r.runs.map (·.id)).Nodup) (hm : run ∈ r.runs) (hl : ∀ m ∈ log', m.run.id = run.id) :
    Retraced (log ++ log') id started (r.unwind here run) := by
  have work := keepsWork_unwind here run r
  have left : InStep { r with runs := r.runs.filter (·.id != run.id) } started :=
    h.inStep.spins (.elsewhere rfl rfl)
  have owner : (r.unwind here run).owner? id = r.owner? id :=
    (work.spins.owner id).trans (owner?_stopSession _ run.session id)
  refine ⟨_, ⟨(left.stopSession run.session).spins work.spins, fun hs i ho => ?_⟩, fun hs => ?_⟩
  · rw [owner] at ho
    obtain ⟨other, there, rfl, acc⟩ := h.accounted hs.1 i ho
    have apart : other.id ≠ run.id := fun he => hs.2
      (List.inj_on_of_nodup_map hi there hm he ▸ ho)
    rw [(sameRuns_unwind here run r).runs]
    refine ⟨other, List.mem_filter.mpr ⟨there, by simpa using apart⟩, rfl,
      acc.imp_right fun left => left.append fun m hlm => ?_⟩
    rw [hl m hlm]
    exact Ne.symm apart
  · by_cases ho : r.owner? id = some run.session
    · obtain ⟨l, hf, there⟩ := h.inStep.carries_iff.mpr ⟨ho, hs⟩
      obtain ⟨s, hsession, rfl⟩ := Option.map_eq_some_iff.mp hf
      have silent : (stopSession { r with runs := r.runs.filter (·.id != run.id) }
          run.session).Untimed id := untimed_stopSession hsession there
      refine .inr fun q hq => silent q ?_
      rw [← hq, request?, request?, work.requests]
    · exact .inl ⟨hs, ho⟩

theorem comesTo {here : Option Nat} (h : Traced log id started r)
    (hi : (r.runs.map (·.id)).Nodup) (hm : run ∈ r.runs)
    (k : ComesTo here run (.ofRun run) r log' r') : Retraced (log ++ log') id started r' := by
  have hl := k.mine
  cases k with
  | waits w hp =>
    have begun := Station.ne_fresh hp
    exact ((h.keeps w).setPoint (w.runs ▸ hi) (w.runs ▸ hm) hl fun _ => .inl begun).retraced
  | @later log' q w =>
    have off := (h.keeps w).setPoint (w.runs ▸ hi) (w.runs ▸ hm) hl (p := .fresh) fun hc => by
      rw [← List.append_assoc]
      exact .inr (leftBy_concat hc)
    have pushed : KeepsWork (q.setPoint run .fresh) (putOff run q) := .elsewhere rfl rfl rfl rfl
    exact (off.keeps pushed).retraced
  | ends w => exact (h.keeps w).unwind here (w.runs ▸ hi) (w.runs ▸ hm) hl

end Traced

end Accounts

section Steps

namespace Traced

theorem resumes (h : Traced log id started r) (hi : (r.runs.map (·.id)).Nodup)
    {here : Option Nat} {run : Nat} {told : List Occurrence} (k : Resumes here run r told r') :
    Retraced (log ++ milestonesIn told) id started r' := by
  rcases comesTo_resumes k with ⟨none, rfl⟩ | ⟨run, found, _, came⟩
  · rw [none]
    exact h.aside (.refl _)
  · exact h.comesTo hi found.mem came

theorem carryOut (h : Traced log id started r) (o : r.Owned) {here : Option Nat} {d : Deed}
    (hd : r.carryOut here d = .ok r') :
    Retraced (log ++ r.milestones (.deed here d)) id started r' := by
  cases does hd with
  | begin hd => exact h.aside (keepsWork_begin hd)
  | finish | tryTerminate | terminate => exact h.aside (routine_moveIf ..).keepsWork
  | fail => exact h.aside (routine_failPhase ..).keepsWork
  | enroll phase => exact (h.admits o.numbered (admits_asks phase r)).retraced
  | @complete run found =>
    refine h.unwind here o.ids found.mem fun m hm => ?_
    rw [milestones_complete here found] at hm
    rw [List.mem_singleton.mp hm]

theorem turn (h : Traced log id started r) (o : r.Owned)
    (m : Minded id base True (started id) r)
    {loop : Nat} (ht : r.step? loop = some r') :
    Retraced (log ++ r.milestones (.turn loop)) id started r' := by
  obtain ⟨t, loops, hl, rfl⟩ := step?_eq_some ht
  have taken : Traced log id started { r with loops := loops } :=
    h.keeps (.elsewhere rfl rfl rfl rfl)
  simp only [milestones, occurrences_of_next hl]
  cases t with
  | resume run => exact taken.resumes o.ids (Runner.resumes (some loop) run _)
  | pace phase => exact (taken.admits o.numbered (admits_paces (paces phase _))).retraced
  | expire other =>
    have set : other = id → started id := fun he => by
      obtain ⟨q, t, hq, ht⟩ := m.timer_of_next? (he ▸ hl)
      exact (m.late q t hq ht).2
    have quiet := taken.expire set
    rw [← List.append_nil log] at quiet
    exact quiet
  | stamp | «seal» | announce | read | prune =>
    exact taken.aside (routine_perform loop _ rfl).keepsWork

theorem openGate (h : Traced log id started r) (hi : (r.runs.map (·.id)).Nodup) {session : Nat}
    {f : Option Failure} (ho : r.openGate session f = some r') :
    Retraced (log ++ []) id started r' := by
  obtain ⟨run, hm, _, rest, _, rfl⟩ := openGate_eq_some ho
  have nobody : ∀ m ∈ ([] : List Milestone), m.run.id = run.id := List.forall_mem_nil _
  have opened := h.setPoint hi hm nobody (p := .opened f rest) fun _ => .inl nofun
  have pushed : ∀ q : Runner, KeepsWork q (q.push (r.executorOf session) (.resume run.id)) :=
    fun _ => .elsewhere rfl rfl rfl rfl
  exact (opened.keeps (pushed _)).retraced

theorem createRequest (h : Traced log id started r) {session : Nat}
    (hs : session < r.sessions.length) (recovery : Recovery) :
    Traced log id started (r.createRequest session recovery).2 where
  inStep := h.inStep.createRequest (by simpa [inFlight?, session?] using hs) recovery
  accounted := by
    intro on i ho
    obtain ⟨q, hq, _⟩ := h.inStep.active id on
    have old : (r.createRequest session recovery).2.request? id = r.request? id :=
      List.getElem?_append_left (List.getElem?_eq_some_iff.mp hq).1
    rw [owner?, old] at ho
    exact h.accounted on i ho

theorem after (h : Traced log id started r) (o : r.Owned)
    (m : Minded id base True (started id) r) {e : Happening} (ha : r.Allowed e) (hu : r.Uses id e)
    (he : r.after? e = some r') : Retraced (log ++ r.milestones e) id started r' := by
  have quiet : Retraced log id started r' → Retraced (log ++ []) id started r' := by
    rw [List.append_nil]
    exact fun k => k
  have elsewhere : r'.requests = r.requests → r'.sessions = r.sessions → SameRuns r r' →
      Retraced (log ++ []) id started r' :=
    fun hr hs s => quiet (h.still s (.elsewhere hr hs)).retraced
  cases e with
  | deed here d => exact h.carryOut o (toOption_eq_some.mp he)
  | pace phase => cases he; exact h.aside (routine_startPacer r phase).keepsWork
  | exceedLimit phase =>
    obtain ⟨i, _, hi⟩ := bind_eq_ok.mp (toOption_eq_some.mp he)
    cases hi
    exact elsewhere rfl rfl ⟨rfl, rfl⟩
  | turn loop => exact h.turn o m he
  | openGate session f => exact h.openGate o.ids he
  | openConnections => cases he; exact h.aside (routine_openConnections r).keepsWork
  | createRequest session recovery => cases he; exact quiet (h.createRequest hu recovery).retraced
  | command other c => exact quiet (h.command ha hu (toOption_eq_some.mp he))
  | letGo other =>
    cases he
    have given : Spins r (r.letGo other) := .modifyRequest r other (fun _ => rfl) fun _ _ hc => hc
    have same : SameRuns r (r.letGo other) := ⟨rfl, rfl⟩
    exact quiet (h.still same given).retraced
  | beginSurvey recent =>
    cases he
    obtain ⟨loops, same⟩ := beginSurvey_eq r recent
    rw [same]
    exact h.aside (.elsewhere rfl rfl rfl rfl)
  | beginPruning =>
    cases he
    obtain ⟨loops, same⟩ := beginPruning_eq r
    rw [same]
    exact h.aside (.elsewhere rfl rfl rfl rfl)
  | phasePoolStats phase =>
    obtain ⟨⟨stats, r₁⟩, hs, hr⟩ := Option.map_eq_some_iff.mp he
    cases hr
    obtain ⟨i, _, hi⟩ := bind_eq_ok.mp (toOption_eq_some.mp hs)
    split at hi <;> cases hi <;> exact elsewhere rfl rfl ⟨rfl, rfl⟩
  | advance | clock | addConnection | poolStats =>
    cases he
    exact elsewhere rfl rfl ⟨rfl, rfl⟩

end Traced

end Steps

section Courses
variable {r₀ : Runner} {es : List Happening}

theorem Used.course (h : Used id r₀ es r) : Course r₀ es r := by
  induction h with
  | refl => exact .refl
  | next _ ha _ he ih => exact ih.next ha he

theorem Traced.guarded (t : Traced log id started r) (k : Minded id base True (started id) r) :
    r.Guarded id := by
  intro q timer hq ht
  have owned : r.owner? id = some q.session := by rw [owner?, hq]; rfl
  obtain ⟨l, hl, hm⟩ := t.inStep.carries_iff.mpr ⟨owned, (k.late q timer hq ht).2⟩
  obtain ⟨s, hs, rfl⟩ := Option.map_eq_some_iff.mp hl
  have tracked : (s.inFlight.contains id || s.current == some id) = true := by simp [hm]
  simp only [isKept, Bool.or_eq_true, List.any_eq_true]
  exact .inr ⟨s, List.mem_of_getElem? hs, by simpa using tracked⟩

theorem Uses.minded {set' : Prop} {e : Happening} (hu : r.Uses id e) (g : r.Guarded id)
    (k : Minded id base True set r) (he : r.after? e = some r')
    (hs : Sets id (.happens e) → set') (hm : set → set') : Minded id base True set' r' := by
  refine minded_after k he (fun hc => ?_) (fun _ => trivial) (fun _ => g) hs hm
  subst hc
  exact (hu rfl).1

theorem Used.traced (h₀ : r₀.Initial) (h : Used id r₀ es r) : ∃ started,
    Traced (r₀.trail milestones es) id started r ∧
      Minded id (fun _ => 0) True (started id) r := by
  induction h with
  | refl =>
    have fresh := fresh_of_initial h₀
    have idle : InStep r₀ fun _ => False := by
      refine ⟨fun id i ho => ?_, fun i l hl => ?_, fun i l hl id => ?_, fun _ no => no.elim⟩
      · rw [owner?, request?, (unused_of_initial h₀).1] at ho
        cases ho
      all_goals
        rw [inFlight?, session?, fresh.sessions] at hl
        cases hl
    exact ⟨_, ⟨idle, False.elim⟩, minded_of_initial h₀ id⟩
  | @next es e r₁ r₂ hu ha huse he ih =>
    obtain ⟨started, traced, minded⟩ := ih
    have owned := hu.course.owned h₀
    obtain ⟨started', after, lost⟩ := traced.after owned minded ha huse he
    rw [← hu.course.trail_next milestones he] at after
    have set : Sets id (.happens e) → started id := by
      rintro ⟨delay, hs⟩
      cases hs
      obtain ⟨session, carries⟩ := huse rfl
      exact (traced.inStep.carries_iff.mp carries).2
    have kept := huse.minded (traced.guarded minded) minded he set fun hs => hs
    refine ⟨started', after, ?_⟩
    by_cases hs : started id → started' id
    · exact kept.mono hs
    · obtain ⟨on, off⟩ := Classical.not_imp.mp hs
      have silent := (lost on).resolve_left off
      exact { kept with
        late := fun q t hq ht => by
          rw [silent q hq] at ht
          cases ht }

end Courses

end LoadGen.Runner
