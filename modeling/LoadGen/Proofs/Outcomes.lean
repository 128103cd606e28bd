import LoadGen.Proofs.Rounds

namespace LoadGen

def Event.isResponse : Event → Bool
  | .response .. => true
  | _ => false

/-- Whether what is done about a request that timed out completes it. -/
def Recovery.completes : Recovery → Bool
  | .complete | .release => true
  | .leave | .markInvalid | .restart .. => false

def Settled (outcomes : List Event) : Prop :=
  outcomes = [] ∨ outcomes = [.timeout] ∨
    ∃ blocked time valid, outcomes = [.response blocked time valid]

theorem Settled.eq_nil {outcomes : List Event} (h : Settled outcomes)
    (hr : ∀ e ∈ outcomes, e.isResponse = false) (ht : .timeout ∉ outcomes) : outcomes = [] := by
  rcases h with none | rfl | ⟨blocked, time, valid, rfl⟩
  · exact none
  · exact absurd (List.mem_singleton_self _) ht
  · cases hr _ (List.mem_singleton_self _)

namespace Round
variable {id : Nat} {events : List Event} {rounds : List Round}

theorem settled_latest (h : ∀ x ∈ rounds, Settled x.outcomes) (id : Nat) :
    Settled (latest id rounds) := by
  induction rounds with
  | nil => exact .inl rfl
  | cons x rest ih =>
    simp only [latest]
    split
    · exact h x List.mem_cons_self
    · exact ih fun y hy => h y (List.mem_cons_of_mem _ hy)

theorem settled_credit (h : ∀ x ∈ rounds, Settled x.outcomes)
    (hn : Settled (latest id rounds ++ events)) :
    ∀ x ∈ credit id events rounds, Settled x.outcomes := by
  induction rounds with
  | nil => exact h
  | cons y rest ih =>
    have later := fun x hx => h x (List.mem_cons_of_mem _ hx)
    simp only [latest] at hn
    simp only [credit]
    split
    · rename_i he
      rw [if_pos he] at hn
      intro x hx
      rcases List.mem_cons.mp hx with rfl | hx
      · exact hn
      · exact later x hx
    · rename_i hne
      rw [if_neg hne] at hn
      intro x hx
      rcases List.mem_cons.mp hx with rfl | hx
      · exact h x List.mem_cons_self
      · exact ih later hn x hx

theorem adds_of_settled {x : Round} (h : Settled x.outcomes) :
    x.adds .requests = 1 ∧ x.adds .responses + x.adds .timeouts ≤ 1 ∧
      x.adds .invalid ≤ x.adds .responses := by
  rcases h with none | timeout | ⟨blocked, time, valid, response⟩
  · simp [adds, none, Event.adds]
  · simp [adds, timeout, Event.adds]
  · cases valid <;> simp [adds, response, Event.adds]

end Round

namespace Runner

open Round

/-- A request is completed when its time is up, and has one response counted in a round at most. The
bucket is there when a request is started in it, or is made then. -/
def Suits (r : Runner) (b : BucketRef) (rounds : List Round) : Handling → Prop
  | .create _ recovery => recovery.completes
  | .start _ _ c => c = b → (r.bucket? b).isSome
  | .command id (.begin metric sequence) =>
    r.launch? (.command id (.begin metric sequence)) = some (id, b) →
      (r.board? b.group b.executor).isSome
  | .command id .respond => r.bound? id = some b → ∀ e ∈ latest id rounds, e.isResponse = false
  | _ => True

/-- A request that was completed by its timeout has no response counted. One that has a response is
completed before its time is up, and one that was completed is not said to be about to. -/
def InOrder (r : Runner) (rounds : List Round) (id : Nat) : RequestCommand → Prop
  | .respond => r.Completed id → .timeout ∉ latest id rounds
  | .timeOut => ¬ r.Completed id → ∀ e ∈ latest id rounds, e.isResponse = false
  | .completing => ¬ r.Completed id
  | _ => True

/-- No request was started for the bucket, and none that it measures has gone back to work. -/
structure Rests (b : BucketRef) (r r' : Runner) : Prop where
  recovers : ∀ id q', r'.request? id = some q' →
    q'.recovery.completes ∨ ∃ q, r.request? id = some q ∧ q'.recovery = q.recovery
  requests : ∀ id q', r'.request? id = some q' → q'.bucket = some b →
    ∃ q, r.request? id = some q ∧ q.bucket = some b ∧
      (q'.isCompleted = false → q.isCompleted = false)

/-- Other things have been done. The bucket was not pruned and has counted nothing. -/
structure Besides (b : BucketRef) (r r' : Runner) : Prop extends Rests b r r' where
  unpruned : (r.bucket? b).isSome → (r'.bucket? b).isSome
  figures : ∀ f, r'.figure b f = r.figure b f

/-- Requests have been handled, with anything else in between, which made these rounds in a bucket.
They may be started again at any time, also while they are at work. -/
inductive Played (b : BucketRef) (r : Runner) : Runner → List Round → Prop
  | refl : Played b r r []
  | handle {r₁ : Runner} {rounds : List Round} {h : Handling} : Played b r r₁ rounds →
      r₁.Suits b rounds h →
      (∀ id c, r₁.deal? h = some (id, c) → r₁.bound? id = some b → r₁.InOrder rounds id c) →
      Played b r (r₁.handle h) (r₁.roundsAfter b h rounds)
  | besides {r₁ r₂ : Runner} {rounds : List Round} :
      Played b r r₁ rounds → Besides b r₁ r₂ → Played b r r₂ rounds

/-- Each round counts as one request and has one outcome at most, and nothing else is counted. -/
structure OneOutcomeEach (r r' : Runner) (b : BucketRef) (rounds : List Round) : Prop where
  settled : ∀ x ∈ rounds, Settled x.outcomes
  figures : ∀ f, r'.figure b f = r.figure b f + (rounds.map (·.adds f)).sum
  requests : r'.figure b .requests = r.figure b .requests + rounds.length
  answered : r.figure b .responses + r.figure b .timeouts ≤ r.figure b .requests →
    r'.figure b .responses + r'.figure b .timeouts ≤ r'.figure b .requests
  invalid : r.figure b .invalid ≤ r.figure b .responses →
    r'.figure b .invalid ≤ r'.figure b .responses

/-- The bucket has the figures that its rounds add to some others, and a request that is measured in
it and at work has not timed out in its latest round. -/
structure Booked (b : BucketRef) (base : Figure → Nat) (r : Runner) (rounds : List Round) :
    Prop where
  settled : ∀ x ∈ rounds, Settled x.outcomes
  figures : ∀ f, r.figure b f = base f + (rounds.map (·.adds f)).sum
  recovers : ∀ id q, r.request? id = some q → q.recovery.completes
  bound : ∀ id q, r.request? id = some q → q.bucket = some b →
    (r.bucket? b).isSome ∧ (∃ x ∈ rounds, x.request = id) ∧
      (q.isCompleted = false → .timeout ∉ latest id rounds)

variable {r r' : Runner} {b c : BucketRef} {id : Nat} {q : Request} {rounds : List Round}
  {base : Figure → Nat} {h : Handling} {cmd : RequestCommand}

section Requests

theorem not_restarts (h : ∀ id q, r.request? id = some q → q.recovery.completes) (id : Nat) :
    ¬ r.Restarts id := by
  rintro ⟨q, hq, _, sequence, metric, hr⟩
  have completes := h id q hq
  rw [hr] at completes
  cases completes

theorem not_completed (hq : r.request? id = some q) (hc : q.isCompleted = false) :
    ¬ r.Completed id := by
  rintro ⟨q', hq', done⟩
  cases hq.symm.trans hq'
  rw [hc] at done
  cases done

/-- A request whose recovery completes it has completed when its time was up. -/
theorem completed_timeOut (hq : r.request? id = some q) (hr : q.recovery.completes) :
    (r.timeOut id).Completed id := by
  cases hc : q.isCompleted with
  | true =>
    have done : r.Completed id := ⟨q, hq, hc⟩
    exact done.continues (continues_timeOut r id fun _ => done.not_restarts)
  | false =>
    have completed := completed_completeRequest (request?_timedOut hq)
    have recovered : ((r.timedOut id q).recover id q.recovery).Completed id := by
      cases he : q.recovery with
      | complete => exact completed
      | release => exact completed.continues (.modifyRequest _ fun q _ _ => q.continues_release)
      | leave | markInvalid | restart =>
        rw [he] at hr
        cases hr
    rw [timeOut_eq hq hc]
    cases q.connection <;> exact recovered

end Requests

section Steps

theorem besides_of_same (hr : r'.requests = r.requests)
    (hb : (r.bucket? b).isSome → (r'.bucket? b).isSome)
    (hf : ∀ f, r'.figure b f = r.figure b f) : Besides b r r' := by
  have same : ∀ id, r'.request? id = r.request? id := fun id => by rw [request?, hr]; rfl
  refine { recovers := fun id q' hq' => .inr ⟨q', ?_, rfl⟩
           requests := fun id q' hq' hb => ⟨q', ?_, hb, fun hc => hc⟩
           unpruned := hb
           figures := hf }
  · rwa [← same]
  · rwa [← same]

theorem besides_ensure (r : Runner) (b c : BucketRef) :
    Besides b r (r.modifyBoard c.group c.executor (·.ensure c.phase c.metric r.now)) := by
  have made : (r.modifyBoard c.group c.executor (·.ensure c.phase c.metric r.now)).bucket? b =
      r.bucket? b ∨ r.bucket? b = none ∧ ∃ start,
        (r.modifyBoard c.group c.executor (·.ensure c.phase c.metric r.now)).bucket? b =
          some (.opened start) := by
    simp only [bucket?, board?_modifyBoard]
    split
    · cases r.board? b.group b.executor with
      | none => exact .inl rfl
      | some board =>
        obtain ⟨start, made⟩ := board.bucket?_ensure c.phase c.metric r.now
        simp only [Option.map_some, Option.bind_some, made]
        split
        · cases board.bucket? b.phase b.metric with
          | none => exact .inr ⟨rfl, start, rfl⟩
          | some k => exact .inl rfl
        · exact .inl rfl
    · exact .inl rfl
  rcases made with same | ⟨none, start, made⟩
  · exact besides_of_same rfl (fun there => same ▸ there) (figure_of_bucket? same)
  · refine besides_of_same rfl (fun _ => made ▸ rfl) fun f => ?_
    rw [figure, figure, made, none]
    exact Window.count_opened start f

theorem isSome_ensure (h : (r.board? c.group c.executor).isSome) :
    ((r.modifyBoard c.group c.executor (·.ensure c.phase c.metric r.now)).bucket? c).isSome := by
  obtain ⟨board, hb⟩ := Option.isSome_iff_exists.mp h
  obtain ⟨start, made⟩ := board.bucket?_ensure c.phase c.metric r.now
  simp only [bucket?, board?_modifyBoard, hb, and_self, if_true, Option.map_some, Option.bind_some,
    made]
  rfl

theorem launch_cases (hl : r.launch? h = some (id, c)) : ∃ sequence r₁,
    r.handle h = r₁.startRequest id sequence c ∧ (∀ b, Besides b r r₁) ∧
      (∀ rounds, r.Suits c rounds h → (r₁.bucket? c).isSome) := by
  cases h with
  | start other sequence d =>
    obtain ⟨q, hq, he⟩ := Option.map_eq_some_iff.mp hl
    cases he
    exact ⟨sequence, r, by simp [Runner.handle, hq],
      fun b => besides_of_same rfl (fun there => there) fun _ => rfl, fun _ suits => suits rfl⟩
  | command other cmd =>
    cases cmd with
    | begin metric sequence =>
      have launched := hl
      obtain ⟨q, hq, hl⟩ := Option.bind_eq_some_iff.mp hl
      obtain ⟨s, hs, hl⟩ := Option.bind_eq_some_iff.mp hl
      obtain ⟨phase, hp, he⟩ := Option.map_eq_some_iff.mp hl
      cases he
      refine ⟨sequence, r.modifyBoard s.group s.executor (·.ensure phase metric r.now), ?_,
        fun b => besides_ensure r b ⟨s.group, s.executor, phase, metric⟩, fun _ suits => ?_⟩
      · simp only [Runner.handle, hq, Option.isSome_some, if_true, applyCommand,
          beginRequest_eq hq hs hp]
        rfl
      · exact isSome_ensure (suits launched)
    | _ => cases hl
  | _ => cases hl

theorem Rests.completes (p : Rests b r r')
    (h : ∀ id q, r.request? id = some q → q.recovery.completes) (id : Nat) (q' : Request)
    (hq' : r'.request? id = some q') : q'.recovery.completes := by
  rcases p.recovers id q' hq' with completes | ⟨q, hq, same⟩
  · exact completes
  · rw [same]
    exact h id q hq

namespace Booked

theorem besides (k : Booked b base r rounds) (p : Besides b r r') : Booked b base r' rounds where
  settled := k.settled
  figures := fun f => (p.figures f).trans (k.figures f)
  recovers := p.completes k.recovers
  bound := by
    intro id q' hq' hb
    obtain ⟨q, hq, hb, active⟩ := p.requests id q' hq' hb
    obtain ⟨there, listed, fresh⟩ := k.bound id q hq hb
    exact ⟨p.unpruned there, listed, fun hc => fresh (active hc)⟩

theorem startRequest (k : Booked b base r rounds) (id : Nat) (sequence : Sequence)
    (there : c = b → (r.bucket? b).isSome) :
    Booked b base (r.startRequest id sequence c)
      (if c = b then ⟨id, []⟩ :: rounds else rounds) := by
  have counts := counts_startRequest r id sequence c
  have found : ∀ other, (r.startRequest id sequence c).request? other =
      if id = other then (r.request? other).map (·.start r.now r.instant sequence c)
      else r.request? other := fun other => request?_modifyRequest r id other _
  have recovers : ∀ other q', (r.startRequest id sequence c).request? other = some q' →
      q'.recovery.completes := by
    intro other q' hq'
    rw [found] at hq'
    split at hq'
    · obtain ⟨q₀, hq₀, rfl⟩ := Option.map_eq_some_iff.mp hq'
      exact k.recovers other q₀ hq₀
    · exact k.recovers other q' hq'
  split
  · rename_i hc
    subst hc
    refine ⟨?_, fun f => ?_, recovers, fun other q' hq' hb => ?_⟩
    · intro x hx
      rcases List.mem_cons.mp hx with rfl | hx
      · exact .inl rfl
      · exact k.settled x hx
    · rw [counts.figure (there rfl) f, k.figures f]
      simp only [List.map_cons, List.map_nil, List.sum_cons, List.sum_nil, adds]
      omega
    · rw [counts.isSome]
      refine ⟨there rfl, ?_⟩
      rw [found] at hq'
      split at hq'
      · rename_i he
        exact ⟨⟨_, List.mem_cons_self, he⟩, fun _ => by simp [latest, he]⟩
      · rename_i hn
        obtain ⟨_, ⟨x, hx, he⟩, fresh⟩ := k.bound other q' hq' hb
        exact ⟨⟨x, List.mem_cons_of_mem _ hx, he⟩, fun hc => by simpa [latest, hn] using fresh hc⟩
  · rename_i hc
    refine ⟨k.settled, fun f => ?_, recovers, fun other q' hq' hb => ?_⟩
    · rw [figure_of_bucket? (counts.others hc), k.figures f]
    · rw [counts.isSome]
      rw [found] at hq'
      split at hq'
      · obtain ⟨q₀, _, rfl⟩ := Option.map_eq_some_iff.mp hq'
        exact absurd (Option.some.inj hb) hc
      · exact k.bound other q' hq' hb

end Booked

/-- Something is done with a request that was measured in the bucket before. -/
theorem rests_handle (hl : r.launch? h = none) (hr : ∀ id, ¬ r.Restarts id)
    (hc : ∀ session recovery, h = .create session recovery → recovery.completes)
    (ho : ∀ id, h = .command id .completing → r.bound? id = some b → ¬ r.Completed id) :
    Rests b r (r.handle h) where
  recovers := by
    intro id q' hq'
    rcases request?_handle hl hr hq' with ⟨q, hq, goes⟩ | ⟨session, made, _⟩
    · exact .inr ⟨q, hq, goes.recovery⟩
    · exact .inl (hc session _ made)
  requests := by
    intro id q' hq' hb
    rcases request?_handle hl hr hq' with ⟨q, hq, goes⟩ | ⟨_, _, unbound⟩
    · have bound : q.bucket = some b := by
        rcases goes.bucket with same | gone
        · rw [← same, hb]
        · rw [gone] at hb
          cases hb
      refine ⟨q, hq, bound, fun active => ?_⟩
      by_contra idle
      have done : q.isCompleted = true := by simpa using idle
      rcases goes.completed done with still | reopened
      · rw [active] at still
        cases still
      · exact ho id reopened (by rw [bound?, hq]; exact bound) ⟨q, hq, done⟩
    · rw [unbound] at hb
      cases hb

namespace Booked

theorem quiet (k : Booked b base r rounds) (hl : r.launch? h = none) (hr : ∀ id, ¬ r.Restarts id)
    (rests : Rests b r (r.handle h))
    (hn : ∀ id cmd, r.deal? h = some (id, cmd) → r.countedIn b id cmd = []) :
    Booked b base (r.handle h) rounds := by
  have none : ((r.deal? h).map fun d => r.countedIn b d.1 d.2).getD [] = [] := by
    cases hd : r.deal? h with
    | none => rfl
    | some d => exact hn d.1 d.2 hd
  obtain ⟨stamp, after⟩ := bucket?_handle hl hr b
  rw [none] at after
  have same : (r.handle h).bucket? b = r.bucket? b := after.trans Option.map_id'
  exact k.besides ⟨rests, fun there => same ▸ there, figure_of_bucket? same⟩

/-- The first outcome of a round is counted. If it is a timeout, this has completed the request. -/
theorem credit (k : Booked b base r rounds) (hl : r.launch? h = none) (hr : ∀ id, ¬ r.Restarts id)
    (rests : Rests b r (r.handle h)) (hd : r.deal? h = some (id, cmd)) (hb : r.bound? id = some b)
    {e : Event} (one : r.counted id cmd = [e]) (settled : Settled [e])
    (empty : latest id rounds = []) (ends : e = .timeout → (r.handle h).Completed id) :
    Booked b base (r.handle h) (Round.credit id [e] rounds) := by
  obtain ⟨q, hq, bound⟩ := Option.bind_eq_some_iff.mp hb
  obtain ⟨there, listed, _⟩ := k.bound id q hq bound
  obtain ⟨stamp, after⟩ := bucket?_handle hl hr b
  simp only [hd, Option.map_some, Option.getD_some, countedIn, hb, if_true, one] at after
  refine ⟨settled_credit k.settled (by rwa [empty]), fun f => ?_, rests.completes k.recovers,
    fun other q' hq' hb' => ?_⟩
  · rw [figure_of_foldl there after, k.figures, sum_credit listed, Nat.add_assoc]
  · obtain ⟨q₀, hq₀, hb₀, active⟩ := rests.requests other q' hq' hb'
    obtain ⟨there, listed', fresh⟩ := k.bound other q₀ hq₀ hb₀
    have among : other ∈ (Round.credit id [e] rounds).map (·.request) := by
      rw [requests_credit]
      exact List.mem_map.mpr listed'
    refine ⟨by rwa [after, Option.isSome_map], List.mem_map.mp among, fun hc => ?_⟩
    by_cases he : other = id
    · subst he
      rw [latest_credit_self listed, empty, List.nil_append, List.mem_singleton]
      intro timeout
      obtain ⟨q₁, hq₁, done⟩ := ends timeout.symm
      cases hq₁.symm.trans hq'
      rw [done] at hc
      cases hc
    · rw [latest_credit_of_ne he]
      exact fresh (active hc)

/-- Something is done with a request. It had no outcome in its round before, if it has one now. -/
theorem deal (k : Booked b base r rounds) (hl : r.launch? h = none)
    (rests : Rests b r (r.handle h)) (suits : r.Suits b rounds h)
    (hd : r.deal? h = some (id, cmd)) (order : r.bound? id = some b → r.InOrder rounds id cmd) :
    Booked b base (r.handle h) (Round.credit id (r.countedIn b id cmd) rounds) := by
  have hr := not_restarts k.recovers
  have quiet : r.countedIn b id cmd = [] →
      Booked b base (r.handle h) (Round.credit id (r.countedIn b id cmd) rounds) := by
    intro none
    rw [none, credit_nil]
    refine k.quiet hl hr rests fun other cmd' there => ?_
    cases hd.symm.trans there
    exact none
  by_cases hb : r.bound? id = some b
  · obtain ⟨q, hq, bound⟩ := Option.bind_eq_some_iff.mp hb
    obtain ⟨_, _, fresh⟩ := k.bound id q hq bound
    have counted : r.countedIn b id cmd = r.counted id cmd := if_pos hb
    have settled := settled_latest k.settled id
    rcases counted_cases hq cmd with none | ⟨rfl, hc, one⟩ | ⟨rfl, blocked, time, valid, one⟩
    · exact quiet (counted.trans none)
    · rw [counted, one]
      refine k.credit hl hr rests hd hb one (.inr (.inl rfl))
        (settled.eq_nil (order hb (not_completed hq hc)) (fresh hc)) fun _ => ?_
      rw [handle_timeOut hq hd]
      exact completed_timeOut hq (k.recovers id q hq)
    · have untimed : .timeout ∉ latest id rounds := by
        cases hc : q.isCompleted with
        | true => exact order hb ⟨q, hq, hc⟩
        | false => exact fresh hc
      cases eq_respond hd
      rw [counted, one]
      exact k.credit hl hr rests hd hb one (.inr (.inr ⟨blocked, time, valid, rfl⟩))
        (settled.eq_nil (suits hb) untimed) nofun
  · exact quiet (if_neg hb)

theorem handle (k : Booked b base r rounds) (suits : r.Suits b rounds h)
    (order : ∀ id cmd, r.deal? h = some (id, cmd) → r.bound? id = some b → r.InOrder rounds id cmd) :
    Booked b base (r.handle h) (r.roundsAfter b h rounds) := by
  cases hl : r.launch? h with
  | some d =>
    obtain ⟨id, c⟩ := d
    obtain ⟨sequence, r₁, he, besides, there⟩ := launch_cases hl
    rw [he]
    simp only [roundsAfter, hl]
    refine (k.besides (besides b)).startRequest id sequence ?_
    rintro rfl
    exact there rounds suits
  | none =>
    have hr := not_restarts k.recovers
    have rests : Rests b r (r.handle h) := by
      refine rests_handle hl hr ?_ ?_
      · rintro session recovery rfl
        exact suits
      · rintro id rfl hb
        exact order id .completing rfl hb
    cases hd : r.deal? h with
    | none =>
      simp only [roundsAfter, hl, hd]
      refine k.quiet hl hr rests fun id cmd there => ?_
      rw [hd] at there
      cases there
    | some d =>
      simp only [roundsAfter, hl, hd]
      exact k.deal hl rests suits hd (order d.1 d.2 hd)

end Booked

theorem Played.booked (d : Played b r r' rounds) (k : Booked b base r []) :
    Booked b base r' rounds := by
  induction d with
  | refl => exact k
  | handle _ suits order ih => exact ih.handle suits order
  | besides _ p ih => exact ih.besides p

end Steps

/-- However many requests are measured in a bucket, each round adds one request to it and at most one
outcome, a response or a timeout. So there are no more outcomes than requests. -/
theorem one_outcome_each (d : Played b r r' rounds)
    (h : ∀ q ∈ r.requests, q.recovery.completes ∧ q.bucket ≠ some b) :
    OneOutcomeEach r r' b rounds := by
  have start : Booked b (r.figure b) r [] := by
    refine ⟨nofun, fun _ => rfl, fun id q hq => (h q (List.mem_of_getElem? hq)).1,
      fun id q hq hb => ?_⟩
    exact absurd hb (h q (List.mem_of_getElem? hq)).2
  have k := d.booked start
  have each : ∀ x ∈ rounds, _ := fun x hx => adds_of_settled (k.settled x hx)
  have requests : (rounds.map (·.adds .requests)).sum = rounds.length := by
    rw [List.map_congr_left fun x hx => (each x hx).1]
    simp
  have outcomes : (rounds.map (·.adds .responses)).sum + (rounds.map (·.adds .timeouts)).sum ≤
      rounds.length := by
    rw [← List.sum_map_add, ← requests]
    refine List.sum_le_sum fun x hx => ?_
    obtain ⟨one, outcome, _⟩ := each x hx
    rwa [one]
  have invalid : (rounds.map (·.adds .invalid)).sum ≤ (rounds.map (·.adds .responses)).sum :=
    List.sum_le_sum fun x hx => (each x hx).2.2
  have figures := k.figures
  refine ⟨k.settled, figures, ?_, fun before => ?_, fun before => ?_⟩
  · rw [figures, requests]
  · rw [figures .requests, figures .responses, figures .timeouts, requests]
    omega
  · rw [figures .invalid, figures .responses]
    omega

/-- Two visits: one has its response, completes and is started again, for a response that is not
valid; the other one times out. -/
theorem three_rounds : ∃ r es r' rounds, Course gateRunner es r ∧
    Played ⟨"users", 0, "login", "page"⟩ r r' rounds ∧
    (∀ q ∈ r.requests, q.recovery.completes ∧ q.bucket ≠ some ⟨"users", 0, "login", "page"⟩) ∧
      OneOutcomeEach r r' ⟨"users", 0, "login", "page"⟩ rounds ∧
        rounds.map (·.request) = [0, 1, 0] ∧
          [.requests, .responses, .timeouts, .invalid].map
            (r'.figure ⟨"users", 0, "login", "page"⟩) = [3, 2, 1, 1] := by
  have h := Course.one (r := gateRunner) (e := .deed none (.begin "login")) trivial rfl
  have h := h.next (e := .deed none (.enroll "login")) trivial rfl
  have none : ∀ l : List Request, l = [] → ∀ q ∈ l,
      q.recovery.completes ∧ q.bucket ≠ some ⟨"users", 0, "login", "page"⟩ := by
    rintro _ rfl q hq
    cases hq
  have start : ∀ {es r}, Course gateRunner es r → Played ⟨"users", 0, "login", "page"⟩ r r [] :=
    fun _ => .refl
  have later : ∀ q : Runner, Besides ⟨"users", 0, "login", "page"⟩ q { q with now := 5 } :=
    fun q => besides_of_same rfl (fun there => there) fun _ => rfl
  have d := (start h).handle (h := .create 0 .complete) rfl nofun
  have d := d.handle (h := .create 0 .release) rfl nofun
  have d := d.handle (h := .command 0 (.begin "page" ⟨"visit", 0⟩)) (fun _ => rfl)
    (by rintro _ _ ⟨⟩ _; exact trivial)
  have d := d.handle (h := .command 1 (.begin "page" ⟨"visit", 1⟩)) (fun _ => rfl)
    (by rintro _ _ ⟨⟩ _; exact trivial)
  have d := d.besides (later _)
  have d := d.handle (h := .command 0 .respond) (fun _ => nofun)
    (by rintro _ _ ⟨⟩ _; exact fun _ => nofun)
  have d := d.handle (h := .command 0 .complete) trivial (by rintro _ _ ⟨⟩ _; exact trivial)
  have d := d.handle (h := .command 1 .timeOut) trivial
    (by rintro _ _ ⟨⟩ _; exact fun _ => nofun)
  have d := d.handle (h := .command 0 (.begin "page" ⟨"visit", 2⟩)) (fun _ => rfl)
    (by rintro _ _ ⟨⟩ _; exact trivial)
  have d := d.handle (h := .command 0 .invalidate) trivial (by rintro _ _ ⟨⟩ _; exact trivial)
  have d := d.handle (h := .command 0 .respond) (fun _ => nofun)
    (by rintro _ _ ⟨⟩ _; exact fun _ => nofun)
  exact ⟨_, _, _, _, h, d, none _ rfl, one_outcome_each d (none _ rfl), rfl, rfl⟩

/-- A run that is counted once with a response and once with a timeout, of a request that completes
when its time is up: the response comes after the timeout, or the timeout before the completion. -/
theorem two_outcomes_for_one_start : ∃ r es, Course gateRunner es r ∧ r.requests = [] ∧
    ∀ late ∈ [[RequestCommand.timeOut, .respond], [.respond, .timeOut]],
      [.requests, .responses, .timeouts].map
        ((late.foldl (fun r cmd => r.handle (.command 0 cmd))
          ((r.handle (.create 0 .complete)).handle
            (.command 0 (.begin "page" ⟨"visit", 0⟩)))).figure
              ⟨"users", 0, "login", "page"⟩) = [1, 1, 1] := by
  have h := Course.one (r := gateRunner) (e := .deed none (.begin "login")) trivial rfl
  have h := h.next (e := .deed none (.enroll "login")) trivial rfl
  refine ⟨_, _, h, rfl, fun late hm => ?_⟩
  simp only [List.mem_cons, List.not_mem_nil, or_false] at hm
  rcases hm with rfl | rfl <;> rfl

end Runner
end LoadGen
