import LoadGen.Proofs.Counts
import LoadGen.Proofs.Initial
import LoadGen.Runner.Shutdown

namespace LoadGen

/-- What can be done around requests, in any order: whatever can happen to a runner, allowed or not,
and what its scripts and its controller can do besides. -/
inductive Doing
  | happens (e : Happening)
  /-- A session gives up what it has in flight. -/
  | stop (session : Nat)
  /-- The timer of a request fires. -/
  | fires (request : Nat)
  | shutdown
  | dismiss

/-- The request is started, or said to be about to complete. -/
def Doing.Reopens (id : Nat) : Doing → Prop
  | .happens (.command other (.begin ..)) => other = id
  | .happens (.command other .completing) => other = id
  | _ => False

namespace Runner

def done? (r : Runner) : Doing → Option Runner
  | .happens e => r.after? e
  | .stop session => some (r.stopSession session)
  | .fires id => some (r.expire id)
  | .shutdown => some r.shutdown
  | .dismiss => some r.dismiss

/-- Does one thing after the other, unless one of them is refused. -/
def doAll (r : Runner) (ds : List Doing) : Option Runner := ds.foldlM done? r

/-- The request is there, and neither runs nor is about to complete. -/
def Completed (r : Runner) (id : Nat) : Prop := ∃ q, r.request? id = some q ∧ q.isCompleted = true

/-- Whether its timer fires or it is said to have timed out, the request forgets its timer at most,
and nothing else changes: no count, no connection and no recovery, neither progress nor verdict. -/
structure Deaf (r : Runner) (id : Nat) : Prop where
  timeOut : r.timeOut id = r.modifyRequest id fun q => { q with timer := none }
  expire : r.expire id = r ∨ r.expire id = r.modifyRequest id fun q => { q with timer := none }

variable {r r' : Runner} {id : Nat}

theorem completed_completeRequest {q : Request} (h : r.request? id = some q) :
    (r.completeRequest id).Completed id := by
  refine ⟨q.complete, ?_, q.isCompleted_complete⟩
  have there : ∀ t : Runner, t.requests = r.requests →
      (t.modifyRequest id (·.complete)).request? id = some q.complete := by
    intro t ht
    have hq : r.requests[id]? = some q := h
    simp [request?, Runner.modifyRequest, ht, hq]
  have disarmed : (r.disarmRequest q).requests = r.requests := by
    unfold disarmRequest
    split <;> rfl
  simp only [completeRequest, h]
  exact there _ disarmed

namespace Completed

theorem not_restarts (h : r.Completed id) : ¬ r.Restarts id := by
  intro again
  obtain ⟨q, hq, hc⟩ := h
  obtain ⟨q', hq', hn, _⟩ := again
  cases hq.symm.trans hq'
  rw [hc] at hn
  cases hn

theorem continues (h : r.Completed id) (k : Continues False id r r') : r'.Completed id := by
  obtain ⟨q, hq, hc⟩ := h
  obtain ⟨q', hq', kept⟩ := k.kept q hq
  exact ⟨q', hq', (kept.completed hc).resolve_right fun no => no⟩

theorem unstarted (h : r.Completed id) {e : Happening}
    (hn : ¬ (Doing.happens e).Reopens id) (metric : String) : (id, metric) ∉ r.starts e := by
  intro hm
  obtain ⟨c, hh, hs⟩ := mem_starts.mp hm
  have again : r.restart? id ≠ some metric := fun hr => h.not_restarts (restarts_iff.mpr ⟨metric, hr⟩)
  rcases handled_cases hh with rfl | ⟨rfl, _⟩
  · cases c with
    | begin => exact hn rfl
    | timeOut => exact again hs
    | _ => cases hs
  · exact again hs

theorem after (h : r.Completed id) {e : Happening} (he : r.after? e = some r')
    (hn : ¬ (Doing.happens e).Reopens id) : r'.Completed id := by
  refine h.continues ((continues_after he (h.unstarted hn)).mono fun ho => ?_)
  subst ho
  exact hn rfl

theorem runFor (h : r.Completed id) (n : Nat) : (runFor n r).Completed id := by
  induction n generalizing r with
  | zero => exact h
  | succ n ih =>
    simp only [Runner.runFor]
    split
    · exact h
    · rename_i loop _
      split
      · exact h
      · rename_i r' hs
        exact ih (h.after (e := .turn loop) hs fun no => no)

theorem runOut (h : r.Completed id) (left : Nat) : (runOut left r).Completed id := by
  induction left using Nat.strongRecOn generalizing r with
  | ind left ih =>
    have idle : r.closeIdle.Completed id := h
    rw [Runner.runOut]
    split
    · exact idle
    · rename_i n _
      split
      · have later : ({ r.closeIdle with
            loops := r.closeIdle.loops.advanceAll (.ofMillis (n + 1)) } : Runner).Completed id := idle
        exact ih (left - (n + 1)) (by omega) (later.runFor _)
      · exact idle

theorem shutdown (h : r.Completed id) : r.shutdown.Completed id := by
  unfold Runner.shutdown
  split
  · exact h
  · have stopped : ∀ clients, ({ r with
        stopped := true, watchdog := none, clients := clients } : Runner).Completed id := fun _ => h
    exact (stopped _).runOut _

/-- A request that has completed has completed ever after, until it is told otherwise. -/
theorem done (h : r.Completed id) {d : Doing} (hd : r.done? d = some r') (hn : ¬ d.Reopens id) :
    r'.Completed id := by
  cases d with
  | happens e => exact h.after hd hn
  | stop session =>
    cases hd
    exact h.continues (continues_stopSession r session)
  | fires other =>
    cases hd
    exact h.continues (continues_expire r other fun _ => h.not_restarts)
  | shutdown =>
    cases hd
    exact h.shutdown
  | dismiss =>
    cases hd
    exact h.shutdown

theorem doAll {ds : List Doing} (h : r.Completed id) (hd : r.doAll ds = some r')
    (hn : ∀ d ∈ ds, ¬ d.Reopens id) : r'.Completed id := by
  induction ds generalizing r with
  | nil =>
    cases hd
    exact h
  | cons d ds ih =>
    obtain ⟨q, hq, rest⟩ := Option.bind_eq_some_iff.mp hd
    exact ih (h.done hq (hn d List.mem_cons_self)) rest
      fun d' hm => hn d' (List.mem_cons_of_mem _ hm)

theorem deaf (h : r.Completed id) : r.Deaf id := by
  obtain ⟨q, hq, hc⟩ := h
  have quiet : r.timeOut id = r.modifyRequest id fun q => { q with timer := none } := by
    simp only [timeOut, hq, hc, if_true]
  refine ⟨quiet, ?_⟩
  simp only [Runner.expire, hq]
  split
  · exact .inr quiet
  · exact .inl rfl

end Completed

/-- Once a request was completed, its time may be up as often as it likes, whatever is done in
between, until it is started again or is said to be about to complete. -/
theorem completion_silences_timeout (r : Runner) (id : Nat) :
    (∀ q, r.request? id = some q → (r.completeRequest id).Completed id) ∧
    (r.Completed id → ∀ ds r', r.doAll ds = some r' → (∀ d ∈ ds, ¬ d.Reopens id) → r'.Deaf id) :=
  ⟨fun _ => completed_completeRequest, fun h _ _ hd hn => (h.doAll hd hn).deaf⟩

/-- The time of a completed request is up after its response was measured and it was let go. -/
theorem completed_visit_deaf : ∃ r es r', Course gateRunner es r ∧
    (r.completeRequest 0).doAll [.happens (.command 0 .respond), .stop 0,
      .happens (.letGo 0)] = some r' ∧ r'.Deaf 0 := by
  have h := Course.one (r := gateRunner) (e := .deed none (.begin "login")) trivial rfl
  have h := h.next (e := .deed none (.enroll "login")) trivial rfl
  have h := h.next (e := .createRequest 0 .leave) trivial rfl
  have h := h.next (e := .command 0 (.begin "page" ⟨"visit", 0⟩))
    ⟨_, rfl, _, List.mem_singleton_self _, rfl⟩ rfl
  have deaf : ∀ {es r}, Course gateRunner es r → ∀ q, r.request? 0 = some q → ∀ r',
      (r.completeRequest 0).doAll [.happens (.command 0 .respond), .stop 0,
        .happens (.letGo 0)] = some r' → r'.Deaf 0 := by
    intro _ r _ q hq r' hd
    have done := (completion_silences_timeout r 0).1 q hq
    refine (completion_silences_timeout _ 0).2 done _ r' hd fun d hm => ?_
    simp only [List.mem_cons, List.not_mem_nil, or_false] at hm
    rcases hm with rfl | rfl | rfl <;> exact fun no => no
  exact ⟨_, _, _, h, rfl, deaf h _ rfl _ rfl⟩

/-- A completed request that is said to be about to complete runs again: its time is up, which is
counted and calls for its recovery. -/
theorem completing_reopens : ∃ r es q, Course gateRunner es r ∧
    (r.completeRequest 0).doAll [.happens (.command 0 .completing)] = some q ∧
      (r.completeRequest 0).Completed 0 ∧ ¬ q.Deaf 0 ∧
        ((q.bucket? ⟨"users", 0, "login", "page"⟩).map (·.total.timeouts)) = some 0 ∧
        (((q.timeOut 0).bucket? ⟨"users", 0, "login", "page"⟩).map (·.total.timeouts)) = some 1 ∧
        ((q.timeOut 0).request? 0).map (·.recoveries) = some 1 ∧
        ((q.timeOut 0).request? 0).map (·.verdict) = some .timedOut := by
  have h := Course.one (r := gateRunner) (e := .deed none (.begin "login")) trivial rfl
  have h := h.next (e := .deed none (.enroll "login")) trivial rfl
  have h := h.next (e := .createRequest 0 .leave) trivial rfl
  have h := h.next (e := .command 0 (.begin "page" ⟨"visit", 0⟩))
    ⟨_, rfl, _, List.mem_singleton_self _, rfl⟩ rfl
  refine ⟨_, _, _, h, rfl, ⟨_, rfl, rfl⟩, fun deaf => ?_, rfl, rfl, rfl, rfl⟩
  have silent : some 1 = some 0 :=
    congrArg (fun r => (r.request? 0).map (·.recoveries)) deaf.timeOut
  cases silent

end Runner
end LoadGen
