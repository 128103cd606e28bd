import LoadGen.Proofs.Accounts

namespace LoadGen.Runner

def completeTimes (id : Nat) : Nat → Runner → Runner
  | 0, r => r
  | n + 1, r => completeTimes id n (r.completeRequest id)

/-- Ends a request whose time is up, where it is left open what is done about it. -/
def timeOutBy (r : Runner) (id : Nat) (recovery : Runner → Runner) : Runner :=
  match r.request? id with
  | none => r
  | some q =>
    if q.isCompleted then r.modifyRequest id fun q => { q with timer := none }
    else (recovery (r.timedOut id q)).notifyConnection q.connection

/-- Nothing has been done about a request, nor about buckets and connections. -/
structure Bypasses (id : Nat) (r r' : Runner) : Prop where
  request : r'.request? id = r.request? id
  carries : ∀ session, r'.Carries session id → r.Carries session id
  buckets : SameBuckets r r'
  connections : r'.connections = r.connections

/-- A request is completed some times, with other things in between. -/
inductive Completes (id : Nat) : Nat → Runner → Runner → Prop
  | done {r : Runner} : Completes id 0 r r
  | besides {n : Nat} {r r₁ r' : Runner} :
      Bypasses id r r₁ → Completes id n r₁ r' → Completes id n r r'
  | again {n : Nat} {r r' : Runner} :
      Completes id n (r.completeRequest id) r' → Completes id (n + 1) r r'

/-- A request at work has timed out: it has completed, and its session has it in flight no more. The
timeout is counted with the start of the request, unless its bucket is gone. -/
structure EndedOnce (r : Runner) (id : Nat) (q : Request) (recovery : Runner → Runner) (r' : Runner) :
    Prop where
  request : r'.request? id = some { q with
    progress := .completed
    verdict := .timedOut
    timer := none
    connection := none
    recoveries := q.recoveries + 1 }
  dropped : ¬ r'.Carries q.session id
  counted : ∀ b, r'.bucket? b =
    if q.bucket = some b then (r.bucket? b).map (·.record q.stamp .timeout) else r.bucket? b
  told : r'.connections = (r.notifyConnection q.connection).connections
  /-- When the recovery is called for, the timeout was counted and the connection was not told. -/
  order : ∃ seen : Runner, seen.connections = r.connections ∧
    (∀ b, seen.bucket? b = r'.bucket? b) ∧
      (seen.request? id).map (·.recoveries) = some (q.recoveries + 1) ∧
        r' = (recovery seen).notifyConnection q.connection

variable {r r₁ r' : Runner} {id n : Nat} {q : Request} {session : Nat}

theorem timeOut_eq_timeOutBy (hq : r.request? id = some q) :
    r.timeOut id = r.timeOutBy id (·.recover id q.recovery) := by
  cases hc : q.isCompleted with
  | true => simp only [timeOut, timeOutBy, hq, hc, if_true]
  | false =>
    rw [timeOut_eq hq hc]
    simp only [timeOutBy, hq, hc, Bool.false_eq_true, if_false]

section Completion

theorem completeRequest_twice (r : Runner) (id : Nat) :
    (r.completeRequest id).completeRequest id = r.completeRequest id := by
  cases hq : r.request? id with
  | none => simp only [completeRequest, hq]
  | some q =>
    have again : (r.completeRequest id).request? id = some q.complete := by
      rw [request?_completeRequest, if_pos rfl, hq]
      rfl
    have second : (r.completeRequest id).completeRequest id =
        ((r.completeRequest id).modifyRequest id (·.complete)).modifySession q.session
          (·.untrack id) := by
      rw [completeRequest.eq_1 (r.completeRequest id), again]
      rfl
    rw [second]
    simp only [completeRequest, hq, modifyRequest, modifySession, List.modify_modify_eq]
    congr 2
    · funext s
      simp [Session.untrack]
    · funext q
      exact q.complete_complete

theorem completeTimes_succ (id n : Nat) (r : Runner) :
    completeTimes id (n + 1) r = r.completeRequest id := by
  induction n generalizing r with
  | zero => rfl
  | succ n ih => rw [completeTimes, ih, completeRequest_twice]

theorem completes_completeTimes (id n : Nat) (r : Runner) :
    Completes id n r (completeTimes id n r) := by
  induction n generalizing r with
  | zero => exact .done
  | succ n ih => exact .again (ih _)

theorem connections_completeRequest (r : Runner) (id : Nat) :
    (r.completeRequest id).connections = r.connections := by
  unfold completeRequest
  split
  · rfl
  · rename_i q _
    unfold disarmRequest
    cases q.timer <;> rfl

theorem not_carries_completeRequest (hq : r.request? id = some q) :
    ¬ (r.completeRequest id).Carries q.session id := by
  rintro ⟨l, hl, hm⟩
  rw [inFlight?_completeRequest hq, if_pos rfl] at hl
  obtain ⟨l₀, _, rfl⟩ := Option.map_eq_some_iff.mp hl
  simp at hm

theorem carries_completeRequest (h : (r.completeRequest id).Carries session id) :
    r.Carries session id := by
  obtain ⟨l, hl, hm⟩ := h
  cases hq : r.request? id with
  | none =>
    simp only [completeRequest, hq] at hl
    exact ⟨l, hl, hm⟩
  | some q =>
    rw [inFlight?_completeRequest hq] at hl
    split at hl
    · obtain ⟨l₀, hl₀, rfl⟩ := Option.map_eq_some_iff.mp hl
      exact ⟨l₀, hl₀, (List.mem_filter.mp hm).1⟩
    · exact ⟨l, hl, hm⟩

namespace Completes

theorem buckets (h : Completes id n r r') : SameBuckets r r' := by
  induction h with
  | done => exact fun _ => rfl
  | besides bypass _ ih => exact bypass.buckets.trans ih
  | again _ ih => exact ((@aside_completeRequest nobody _ id).record.buckets).trans ih

theorem connections (h : Completes id n r r') : r'.connections = r.connections := by
  induction h with
  | done => rfl
  | besides bypass _ ih => rw [ih, bypass.connections]
  | again _ ih => rw [ih, connections_completeRequest]

theorem carries (h : Completes id n r r') : r'.Carries session id → r.Carries session id := by
  induction h with
  | done => exact fun there => there
  | besides bypass _ ih => exact fun there => bypass.carries session (ih there)
  | again _ ih => exact fun there => carries_completeRequest (ih there)

theorem request (h : Completes id n r r') (hq : r.request? id = some q) :
    r'.request? id = some (if n = 0 then q else q.complete) := by
  induction h generalizing q with
  | done => exact hq
  | besides bypass _ ih => exact ih (bypass.request.trans hq)
  | @again n r r' _ ih =>
    have once : (r.completeRequest id).request? id = some q.complete := by
      rw [request?_completeRequest, if_pos rfl, hq]
      rfl
    rw [ih once, q.complete_complete]
    simp

theorem dropped (h : Completes id n r r') (pos : 0 < n) (hq : r.request? id = some q) :
    ¬ r'.Carries q.session id := by
  induction h generalizing q with
  | done => cases pos
  | besides bypass _ ih => exact ih pos (bypass.request.trans hq)
  | again later _ => exact fun there => not_carries_completeRequest hq (later.carries there)

end Completes
end Completion

section Timeout

theorem isCompleted_of_active (h : q.progress = .running ∨ q.progress = .completing) :
    q.isCompleted = false := by
  rcases h with h | h <;> simp [Request.isCompleted, h]

theorem connections_timedOut (r : Runner) (id : Nat) (q : Request) :
    (r.timedOut id q).connections = r.connections := by
  cases hb : q.bucket <;> simp only [timedOut, hb, measureIn] <;> rfl

theorem bucket?_timedOut (r : Runner) (id : Nat) (q : Request) (b : BucketRef) :
    (r.timedOut id q).bucket? b =
      if q.bucket = some b then (r.bucket? b).map (·.record q.stamp .timeout) else r.bucket? b := by
  cases hb : q.bucket with
  | none =>
    have none := (counts_timedOut (b := b) r id (.inr hb)).buckets b
    simpa [hb] using none
  | some own =>
    have one := (counts_timedOut r id (.inl hb)).buckets b
    simp only [hb, Option.isSome_some, if_true, List.foldl_cons, List.foldl_nil] at one
    rw [one]
    simp only [Option.some.injEq, eq_comm]

theorem endedOnce (hq : r.request? id = some q) (hc : q.isCompleted = false) (pos : 0 < n)
    {recovery : Runner → Runner}
    (h : Completes id n (r.timedOut id q) (recovery (r.timedOut id q))) :
    EndedOnce r id q recovery (r.timeOutBy id recovery) := by
  have late := request?_timedOut hq
  have told : r.timeOutBy id recovery =
      (recovery (r.timedOut id q)).notifyConnection q.connection := by
    simp only [timeOutBy, hq, hc, Bool.false_eq_true, if_false]
  have request : (r.timeOutBy id recovery).request? id =
      (recovery (r.timedOut id q)).request? id := by
    rw [told]
    cases q.connection <;> rfl
  have carries : ∀ session, (r.timeOutBy id recovery).Carries session id →
      (recovery (r.timedOut id q)).Carries session id := by
    rw [told]
    cases q.connection <;> exact fun _ there => there
  have buckets : SameBuckets (r.timedOut id q) (r.timeOutBy id recovery) := by
    rw [told]
    exact h.buckets.trans (buckets_notifyConnection _ _)
  refine ⟨?_, fun there => ?_, fun b => ?_, ?_, r.timedOut id q, ?_, fun b => (buckets b).symm, ?_,
    told⟩
  · rw [request, h.request late, if_neg (Nat.ne_of_gt pos), Request.complete]
    simp [show q.progress ≠ .idle from fun he => by simp [Request.isCompleted, he] at hc]
  · exact h.dropped pos late (carries _ there)
  · rw [buckets b, bucket?_timedOut]
  · rw [told]
    have same := h.connections.trans (connections_timedOut r id q)
    cases q.connection with
    | none => exact same
    | some c => simp only [notifyConnection, same]
  · exact connections_timedOut r id q
  · rw [late]
    rfl

end Timeout

/-- A request at work whose time is up ends once, if its recovery completes it, however often it does so.
The completion of a request any number of times is the same as one. -/
theorem timeout_ends_request_once (r : Runner) (id n : Nat) (pos : 0 < n) :
    (∀ q, r.request? id = some q → (q.progress = .running ∨ q.progress = .completing) →
      ∀ recovery : Runner → Runner, (∀ s, Completes id n s (recovery s)) →
        EndedOnce r id q recovery (r.timeOutBy id recovery)) ∧
    (∀ q, r.request? id = some q → q.recovery = .complete →
      r.timeOut id = r.timeOutBy id (completeTimes id n)) ∧
    completeTimes id n r = r.completeRequest id := by
  have once : ∀ s, completeTimes id n s = s.completeRequest id := by
    obtain ⟨m, rfl⟩ := Nat.exists_eq_succ_of_ne_zero (Nat.ne_of_gt pos)
    exact completeTimes_succ id m
  refine ⟨fun q hq active recovery completes => ?_, fun q hq hr => ?_, once r⟩
  · exact endedOnce hq (isCompleted_of_active active) pos (completes _)
  · rw [timeOut_eq_timeOutBy hq, hr, show completeTimes id n = _ from funext once]
    rfl

/-- A visit on a connection, about to complete, whose recovery completes it twice. -/
theorem visit_ends_once : ∃ es r q, Course gateRunner es r ∧ r.request? 0 = some q ∧
    q.progress = .completing ∧ q.connection = some 0 ∧
      EndedOnce r 0 q (completeTimes 0 2) (r.timeOutBy 0 (completeTimes 0 2)) ∧
        ((r.timeOutBy 0 (completeTimes 0 2)).bucket? ⟨"users", 0, "login", "page"⟩).map
          (·.total.timeouts) = some 1 ∧
        (r.timeOutBy 0 (completeTimes 0 2)).connections.map (·.timeouts) = [1] := by
  have h := Course.one (r := gateRunner) (e := .deed none (.begin "login")) trivial rfl
  have h := h.next (e := .deed none (.enroll "login")) trivial rfl
  have h := h.next (e := .createRequest 0 .complete) trivial rfl
  have h := h.next (e := .addConnection ⟨"Mock", false, true, 0⟩) trivial rfl
  have h := h.next (e := .command 0 (.begin "page" ⟨"visit", 0⟩))
    ⟨_, rfl, _, List.mem_singleton_self _, rfl⟩ rfl
  have h := h.next (e := .command 0 (.attach 0)) trivial rfl
  have h := h.next (e := .command 0 (.setTimeout ⟨1000⟩)) trivial rfl
  have h := h.next (e := .command 0 .completing) trivial rfl
  exact ⟨_, _, _, h, rfl, rfl, rfl, (timeout_ends_request_once _ 0 2 Nat.two_pos).1 _ rfl (.inr rfl) _
    fun s => completes_completeTimes 0 2 s, rfl, rfl⟩

end LoadGen.Runner
