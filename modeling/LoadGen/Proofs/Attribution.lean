import LoadGen.Proofs.Initial
import LoadGen.Proofs.Presence

namespace LoadGen

/-- What a request counts when something is done with it, apart from its start. -/
def Request.counts (q : Request) (instant : Nat) : Runner.RequestCommand → List Event
  | .timeOut => if q.isCompleted then [] else [.timeout]
  | .respond =>
    (q.started.map fun t =>
      .response (q.blockedTime t) ⟨instant - t⟩ (q.verdict == .valid)).toList
  | _ => []

namespace Runner

/-- What is counted when something is done with a request. One that was released counts nothing. -/
def counted (r : Runner) (id : Nat) (c : RequestCommand) : List Event :=
  match r.request? id with
  | some q => if q.bucket.isSome then q.counts r.instant c else []
  | none => []

/-- The runner in which something is done about a request that has timed out. -/
def timedOut (r : Runner) (id : Nat) (q : Request) : Runner :=
  let r := r.modifyRequest id fun q => { q with timer := none }
  let r := r.modifyRequest id fun q =>
    { q with verdict := .timedOut, recoveries := q.recoveries + 1 }
  r.measureIn q.bucket q.stamp .timeout

/-- Some events are counted in one bucket, unless it is gone. If the request is started again with
that, whatever that counts comes after it. -/
def Tallies (r r' : Runner) (id : Nat) (b : BucketRef) (stamp : Nat) (events : List Event) : Prop :=
  ∃ q, Counts r q b stamp events ∧
    (SameBuckets q r' ∨ ∃ sequence metric q', r.restart? id = some metric ∧
      q.beginRequest id sequence metric = .ok q' ∧ SameBuckets q' r')

/-- The request counts in that bucket only, and everything with the time of its start. -/
structure Attributed (r : Runner) (id : Nat) (b : BucketRef) (stamp : Nat) : Prop where
  held : ∃ q, r.request? id = some q ∧ q.stamp = stamp ∧ (q.bucket = some b ∨ q.bucket = none)
  tallies : ∀ e c r', r.handled e = some (id, c) → (∀ metric sequence, c ≠ .begin metric sequence) →
    r.after? e = some r' → Tallies r r' id b stamp (r.counted id c)

variable {r r' r₀ r₁ : Runner} {es es' : List Happening} {id : Nat} {b : BucketRef}

section Operations

theorem timeOut_eq {q : Request} (hq : r.request? id = some q) (hc : q.isCompleted = false) :
    r.timeOut id = ((r.timedOut id q).recover id q.recovery).notifyConnection q.connection := by
  simp only [timeOut, hq, hc, timedOut]
  rfl

theorem buckets_notifyConnection (r : Runner) (c : Option Nat) :
    SameBuckets r (r.notifyConnection c) := by
  cases c <;> exact sameBuckets_of_groups rfl

theorem counts_timedOut (r : Runner) (id : Nat) {q : Request}
    (hb : q.bucket = some b ∨ q.bucket = none) :
    Counts r (r.timedOut id q) b q.stamp (if q.bucket.isSome then [.timeout] else []) := by
  have marked : ∀ {q' : Runner}, q'.groups = r.groups → SameBuckets r q' := sameBuckets_of_groups
  rcases hb with hb | hb
  · simp only [timedOut, hb, measureIn, Option.isSome_some, if_true]
    refine .after ?_ (counts_measure _ b q.stamp .timeout)
    exact marked rfl
  · simp only [timedOut, hb, measureIn, Option.isSome_none, Bool.false_eq_true, if_false]
    refine SameBuckets.counts ?_ b q.stamp
    exact marked rfl

/-- What is done about a request that has timed out counts nothing, unless it starts it again. -/
theorem buckets_recover (r : Runner) (id : Nat) (recovery : Recovery) :
    SameBuckets r (r.recover id recovery) ∨ ∃ sequence metric r', recovery = .restart sequence metric ∧
      r.beginRequest id sequence metric = .ok r' ∧ r.recover id recovery = r' := by
  have aside : ∀ {q}, Aside nobody r q → SameBuckets r q := fun h => h.record.buckets
  cases recovery with
  | complete => exact .inl (aside (aside_completeRequest r id))
  | leave => exact .inl fun _ => rfl
  | release => exact .inl (aside (aside_releaseRequest r id))
  | markInvalid => exact .inl (sameBuckets_of_groups rfl)
  | restart sequence metric =>
    simp only [recover]
    split
    · rename_i r' h
      exact .inr ⟨sequence, metric, r', rfl, h, rfl⟩
    · exact .inl fun _ => rfl

theorem tallies_timeOut {q : Request} (hq : r.request? id = some q)
    (hb : q.bucket = some b ∨ q.bucket = none) :
    Tallies r (r.timeOut id) id b q.stamp (r.counted id .timeOut) := by
  simp only [counted, hq, Request.counts]
  cases hc : q.isCompleted with
  | true =>
    have same : SameBuckets r (r.timeOut id) := by
      simp only [timeOut, hq, hc, if_true]
      exact sameBuckets_of_groups rfl
    exact ⟨_, by simpa using same.counts b q.stamp, .inl fun _ => rfl⟩
  | false =>
    refine ⟨r.timedOut id q, by simpa using counts_timedOut r id hb, ?_⟩
    rw [timeOut_eq hq hc]
    have told := buckets_notifyConnection ((r.timedOut id q).recover id q.recovery) q.connection
    rcases buckets_recover (r.timedOut id q) id q.recovery with same | ⟨sequence, metric, q', hr, h, he⟩
    · exact .inl (same.trans told)
    · rw [he] at told ⊢
      exact .inr ⟨sequence, metric, q', by simp [restart?, hq, hc, hr], h, told⟩

theorem tallies_respond {q : Request} (hq : r.request? id = some q)
    (hb : q.bucket = some b ∨ q.bucket = none) :
    Tallies r (r.respond id) id b q.stamp (r.counted id .respond) := by
  refine ⟨_, ?_, .inl fun _ => rfl⟩
  have same : SameBuckets r r := fun _ => rfl
  simp only [counted, respond, hq, Request.counts]
  rcases hb with hb | hb
  · simp only [hb, Option.isSome_some, if_true]
    cases q.started with
    | none => exact same.counts b q.stamp
    | some t => exact counts_measure r b q.stamp _
  · simp only [hb, Option.isSome_none, Bool.false_eq_true, if_false]
    exact same.counts b q.stamp

theorem tallies_applyCommand {c : RequestCommand} {q : Request} (hq : r.request? id = some q)
    (hb : q.bucket = some b ∨ q.bucket = none) (hn : ∀ metric sequence, c ≠ .begin metric sequence)
    (h : r.applyCommand id c = .ok r') : Tallies r r' id b q.stamp (r.counted id c) := by
  have quiet : (∀ instant, q.counts instant c = []) → SameBuckets r r' →
      Tallies r r' id b q.stamp (r.counted id c) := by
    intro hc same
    refine ⟨r', ?_, .inl fun _ => rfl⟩
    simp only [counted, hq, hc, ite_self]
    exact same.counts b q.stamp
  have aside : ∀ {q'}, Aside nobody r q' → SameBuckets r q' := fun h => h.record.buckets
  cases c with
  | begin metric sequence => exact absurd rfl (hn metric sequence)
  | attach | sent | completing | invalidate | look =>
    cases h
    exact quiet (fun _ => rfl) (sameBuckets_of_groups rfl)
  | setTimeout delay => cases h; exact quiet (fun _ => rfl) (aside (aside_setTimeout ..))
  | timeOut => cases h; exact tallies_timeOut hq hb
  | respond => cases h; exact tallies_respond hq hb
  | complete => cases h; exact quiet (fun _ => rfl) (aside (aside_completeRequest ..))
  | release => cases h; exact quiet (fun _ => rfl) (aside (aside_releaseRequest ..))
  | enter =>
    cases h
    refine quiet (fun _ => rfl) ?_
    simp only [enterRequest, hq]
    exact sameBuckets_of_groups rfl
  | exit => cases h; exact quiet (fun _ => rfl) (aside (aside_exitRequest ..))

theorem tallies_command {c : RequestCommand} {q : Request} (hq : r.request? id = some q)
    (hb : q.bucket = some b ∨ q.bucket = none) (hn : ∀ metric sequence, c ≠ .begin metric sequence)
    (h : r.command id c = .ok r') : Tallies r r' id b q.stamp (r.counted id c) :=
  tallies_applyCommand hq hb hn (command_applied h)

/-- A request that has a bucket, or was released, counts in that bucket only. -/
theorem attributed {q : Request} (hq : r.request? id = some q)
    (hb : q.bucket = some b ∨ q.bucket = none) : r.Attributed id b q.stamp := by
  refine ⟨⟨q, hq, rfl, hb⟩, fun e c r' hh hn he => ?_⟩
  rcases handled_cases hh with rfl | ⟨rfl, loop, loops, rfl, _, late⟩
  · exact tallies_command hq hb hn (toOption_eq_some.mp he)
  · cases late.symm.trans he
    have taken : Runner.request? { r with loops := loops } id = some q := hq
    have same : SameBuckets r { r with loops := loops } := fun _ => rfl
    obtain ⟨q', counts, later⟩ := tallies_timeOut taken hb
    exact ⟨q', .after same counts, later⟩

end Operations

section Starts

/-- A request is started. It is counted in that bucket, after whatever is counted for it besides. -/
structure Begun (r r' : Runner) (id : Nat) (b : BucketRef) (events : List Event) : Prop where
  request : ∃ q, r'.request? id = some q ∧ q.stamp = r.now ∧ q.bucket = some b
  counted : ∃ old stamp q, Counts r q old stamp events ∧ CountsStart q r' b r.now

theorem beginRequest_eq {q : Request} {s : Session} {phase : String} (hq : r.request? id = some q)
    (hs : r.session? q.session = some s) (hp : s.phase = some phase) (sequence : Sequence)
    (metric : String) : r.beginRequest id sequence metric =
      .ok ((r.modifyBoard s.group s.executor (·.ensure phase metric r.now)).startRequest id sequence
        ⟨s.group, s.executor, phase, metric⟩) := by
  have found : r.bucketFor q.session metric = .ok (⟨s.group, s.executor, phase, metric⟩,
      r.modifyBoard s.group s.executor (·.ensure phase metric r.now)) := by
    simp only [bucketFor, hs, hp]
  simp only [beginRequest, hq, Option.map_some, Option.getD_some, found]
  rfl

theorem request?_startRequest {q : Request} (hq : r.request? id = some q) (sequence : Sequence)
    (b : BucketRef) : ∃ q', (r.startRequest id sequence b).request? id = some q' ∧
      q'.stamp = r.now ∧ q'.bucket = some b := by
  have there : r.requests[id]? = some q := hq
  refine ⟨q.start r.now r.instant sequence b, ?_, rfl, rfl⟩
  simp [startRequest, request?, Runner.modifyRequest, Runner.modifySession, measure,
    Runner.modifyBoard, Runner.modifyGroup, there]

theorem begun_begin {q : Request} {s : Session} {phase metric : String} {sequence : Sequence}
    (hq : r.request? id = some q) (hs : r.session? q.session = some s) (hp : s.phase = some phase)
    (hb : (r.board? s.group s.executor).isSome) (h : r.beginRequest id sequence metric = .ok r') :
    r.Begun r' id ⟨s.group, s.executor, phase, metric⟩ [] := by
  cases (beginRequest_eq hq hs hp sequence metric).symm.trans h
  have same : SameBuckets r r := fun _ => rfl
  exact ⟨request?_startRequest hq sequence _,
    ⟨s.group, s.executor, phase, metric⟩, 0, r, same.counts _ 0, countsStart_startRequest hb id sequence⟩

section TimedOut
variable {q : Request}

theorem request?_timedOut (hq : r.request? id = some q) : (r.timedOut id q).request? id =
    some { q with timer := none, verdict := .timedOut, recoveries := q.recoveries + 1 } := by
  have there : r.requests[id]? = some q := hq
  simp only [timedOut, request?, (routine_measureIn ..).requests]
  simp [Runner.modifyRequest, there]

theorem sessions_timedOut (r : Runner) (id : Nat) (q : Request) :
    (r.timedOut id q).sessions = r.sessions ∧ (r.timedOut id q).now = r.now := by
  cases hb : q.bucket <;> simp only [timedOut, hb, measureIn] <;> exact ⟨rfl, rfl⟩

theorem board?_isSome_timedOut (r : Runner) (id : Nat) (q : Request) (key : String) (loop : Nat) :
    ((r.timedOut id q).board? key loop).isSome = (r.board? key loop).isSome := by
  cases hb : q.bucket with
  | none =>
    simp only [timedOut, hb, measureIn]
    rfl
  | some old =>
    simp only [timedOut, hb, measureIn, measure, board?_isSome_modifyBoard]
    rfl

theorem counts_counted (hq : r.request? id = some q) (hc : q.isCompleted = false) :
    ∃ old, Counts r (r.timedOut id q) old q.stamp (r.counted id .timeOut) := by
  have made : r.counted id .timeOut = if q.bucket.isSome then [.timeout] else [] := by
    simp only [counted, hq, Request.counts, hc, Bool.false_eq_true, if_false]
  rw [made]
  cases hb : q.bucket with
  | none => exact ⟨⟨"", 0, "", ""⟩, by simpa [hb] using counts_timedOut r id (.inr hb)⟩
  | some old => exact ⟨old, by simpa [hb] using counts_timedOut r id (.inl hb)⟩

end TimedOut

theorem begun_timeOut {q : Request} {s : Session} {phase metric : String}
    (hq : r.request? id = some q) (hs : r.session? q.session = some s) (hp : s.phase = some phase)
    (hb : (r.board? s.group s.executor).isSome) (again : r.restart? id = some metric) :
    r.Begun (r.timeOut id) id ⟨s.group, s.executor, phase, metric⟩ (r.counted id .timeOut) := by
  obtain ⟨q', sequence, hq', hc, hr⟩ := restart?_eq_some.mp again
  cases hq.symm.trans hq'
  obtain ⟨sessions, now⟩ := sessions_timedOut r id q
  have late := request?_timedOut hq
  have seat : (r.timedOut id q).session? q.session = some s := by
    rw [session?, sessions]
    exact hs
  have board := (board?_isSome_timedOut r id q s.group s.executor).trans hb
  obtain ⟨old, counted⟩ := counts_counted hq hc
  have started := beginRequest_eq late seat hp sequence metric
  have told : r.timeOut id = _ := timeOut_eq hq hc
  simp only [hr, recover, started] at told
  rw [told]
  refine ⟨?_, old, _, _, counted, ?_⟩
  · obtain ⟨q₁, hq₁, ht, hb₁⟩ := request?_startRequest (r := (r.timedOut id q).modifyBoard s.group
      s.executor (·.ensure phase metric (r.timedOut id q).now)) late sequence
      ⟨s.group, s.executor, phase, metric⟩
    refine ⟨q₁, ?_, ht.trans now, hb₁⟩
    cases q.connection <;> exact hq₁
  · obtain ⟨start, fresh, _⟩ := countsStart_startRequest (b := ⟨s.group, s.executor, phase, metric⟩)
      board id sequence
    refine countsStart_of_buckets start fun c => ?_
    rw [buckets_notifyConnection _ _ c, fresh c, now]

theorem Owned.begun (o : r.Owned) (boards : ∀ key ∈ r.groups.keys, ∀ loop < r.loops.size,
      (r.board? key loop).isSome) {e : Happening} (ha : r.Allowed e) (he : r.after? e = some r')
    {c : RequestCommand} (hh : r.handled e = some (id, c)) {metric : String}
    (hs : r.started? id c = some metric) :
    ∃ q s, ∃ run ∈ r.runs, r.request? id = some q ∧ run.session = q.session ∧
      r.session? q.session = some s ∧ r.keyOf run.phase = some s.group ∧
        r.Begun r' id ⟨s.group, s.executor, run.phase, metric⟩ (r.counted id c) := by
  have work : r.InIteration id := by
    rcases handled_cases hh with rfl | ⟨rfl, loop, loops, rfl, next, _⟩
    · cases c with
      | begin => exact ha
      | timeOut => exact ha (restarts_iff.mpr ⟨metric, hs⟩)
      | _ => cases hs
    · exact ha _ _ next (restarts_iff.mpr ⟨metric, hs⟩)
  obtain ⟨q, hq, run, hm, hr⟩ := work
  obtain ⟨s, hse, hp, hk⟩ := o.bound run hm
  rw [hr] at hse
  obtain ⟨g, hg⟩ := Option.isSome_iff_exists.mp (o.grouped _ _ hk)
  have board := boards s.group (Dict.mem_keys_of_get? hg) s.executor
    (o.seated s (List.mem_of_getElem? hse))
  refine ⟨q, s, run, hm, hq, hr, hse, hk, ?_⟩
  rcases handled_cases hh with rfl | ⟨rfl, loop, loops, rfl, _, late⟩
  · have applied := command_applied (toOption_eq_some.mp he)
    cases c with
    | begin m sequence =>
      cases hs
      have none : r.counted id (.begin metric sequence) = [] := by
        simp [Runner.counted, hq, Request.counts]
      rw [none]
      exact begun_begin hq hse hp board applied
    | timeOut =>
      cases applied
      exact begun_timeOut hq hse hp board hs
    | _ => cases hs
  · cases late.symm.trans he
    have begun := begun_timeOut (r := { r with loops := loops }) hq hse hp board hs
    obtain ⟨old, stamp, q₁, counts, start⟩ := begun.counted
    have same : SameBuckets r { r with loops := loops } := fun _ => rfl
    exact ⟨begun.request, old, stamp, q₁, .after same counts, start⟩

end Starts

/-- A request that is started while its session runs for a phase is counted in the bucket of that
phase, on the loop of the session and for the metric in question. So are its response and its
timeout, whenever they come before the next start, unless the loop has pruned the phase by then: then
they are counted nowhere. -/
theorem request_counts_attributed (h₀ : r₀.Initial) (h : Course r₀ es r) {e : Happening}
    (ha : r.Allowed e) (he : r.after? e = some r₁) {c : RequestCommand}
    (hh : r.handled e = some (id, c)) {metric : String} (hs : r.started? id c = some metric) :
    ∃ q s, ∃ run ∈ r.runs, r.request? id = some q ∧ run.session = q.session ∧
      r.session? q.session = some s ∧ r.keyOf run.phase = some s.group ∧
      r.Begun r₁ id ⟨s.group, s.executor, run.phase, metric⟩ (r.counted id c) ∧
      ∀ es' r', Course r₁ es' r' → (∀ m, (id, m) ∉ r₁.trail starts es') →
        r'.Attributed id ⟨s.group, s.executor, run.phase, metric⟩ r.now ∧
        ((r'.bucket? ⟨s.group, s.executor, run.phase, metric⟩).isSome ↔
          (s.executor, s.group, run.phase) ∉ r₁.trail prunings es') := by
  obtain ⟨q, s, run, hm, hq, hr, hse, hk, begun⟩ := (h.owned h₀).begun
    (fun key hkey loop hl => h.board?_isSome h₀ hkey hl) ha he hh hs
  refine ⟨q, s, run, hm, hq, hr, hse, hk, begun, fun es' r' k hn => ⟨?_, ?_⟩⟩
  · obtain ⟨q₁, hq₁, ht, hb⟩ := begun.request
    obtain ⟨q', hq', kept⟩ := (k.continues hn).kept q₁ hq₁
    rw [← ht, ← kept.stamp]
    refine attributed hq' ?_
    rw [← hb]
    exact kept.bucket
  · have there : (r₁.bucket? ⟨s.group, s.executor, run.phase, metric⟩).isSome := by
      obtain ⟨_, _, _, _, start, counted, _⟩ := begun.counted
      rw [counted, if_pos rfl]
      rfl
    exact (h.next ha he).bucket?_isSome h₀ k there

/-- A response that comes when its session is back in the pool and its phase is over. -/
theorem late_response_attributed : ∃ r es r₁ es' r', Course gateRunner es r ∧
    r.after? (.command 0 (.begin "page" ⟨"visit", 0⟩)) = some r₁ ∧ Course r₁ es' r' ∧
      r'.runs = [] ∧ r'.counted 0 .respond = [.response .zero ⟨5000000⟩ true] ∧
        r'.Attributed 0 ⟨"users", 0, "login", "page"⟩ r.now ∧
          (r'.bucket? ⟨"users", 0, "login", "page"⟩).isSome := by
  have h := Course.one (r := gateRunner) (e := .deed none (.begin "login")) trivial rfl
  have h := h.next (e := .deed none (.enroll "login")) trivial rfl
  have h := h.next (e := .createRequest 0 .leave) trivial rfl
  have starts : ∀ {es r}, Course gateRunner es r →
      ∀ r₁, r.after? (.command 0 (.begin "page" ⟨"visit", 0⟩)) = some r₁ → Course r₁ [] r₁ :=
    fun _ _ _ => .refl
  have k := (starts h _ rfl).next (e := .deed none (.complete 0)) trivial rfl
  have k := k.next (e := .deed none (.terminate "login")) trivial rfl
  have k := k.next (e := .clock 5) trivial rfl
  obtain ⟨q, s, run, hm, _, hr, hs, _, _, later⟩ := request_counts_attributed gateRunner_initial h
    (e := .command 0 (.begin "page" ⟨"visit", 0⟩)) ⟨_, rfl, _, List.mem_singleton_self _, rfl⟩ rfl
    rfl rfl
  obtain ⟨counts, there⟩ := later _ _ k fun _ => List.not_mem_nil
  cases List.mem_singleton.mp hm
  rw [← hr] at hs
  obtain ⟨rfl⟩ := hs
  exact ⟨_, _, _, _, _, h, rfl, k, rfl, rfl, counts, there.mpr List.not_mem_nil⟩

end Runner
end LoadGen
