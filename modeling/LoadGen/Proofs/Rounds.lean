import LoadGen.Proofs.Accounts
import LoadGen.Proofs.Windows

namespace LoadGen

/-- A run of a request, from one of its starts to the next, with what was counted for it besides. -/
structure Round where
  request : Nat
  outcomes : List Event := []
  deriving DecidableEq, Repr

namespace Round

/-- What a round adds to a figure of its bucket. -/
def adds (x : Round) (f : Figure) : Nat := Event.request.adds f + (x.outcomes.map (·.adds f)).sum

/-- What was counted in the latest round of a request. Later rounds come first. -/
def latest (id : Nat) : List Round → List Event
  | [] => []
  | x :: rest => if x.request = id then x.outcomes else latest id rest

/-- Counts events for a request in its latest round. -/
def credit (id : Nat) (events : List Event) : List Round → List Round
  | [] => []
  | x :: rest =>
    if x.request = id then { x with outcomes := x.outcomes ++ events } :: rest
    else x :: credit id events rest

variable {id other : Nat} {events : List Event} {rounds : List Round}

theorem credit_nil (id : Nat) (rounds : List Round) : credit id [] rounds = rounds := by
  induction rounds with
  | nil => rfl
  | cons x rest ih =>
    simp only [credit, List.append_nil, ih]
    split <;> rfl

theorem latest_credit_self (h : ∃ x ∈ rounds, x.request = id) :
    latest id (credit id events rounds) = latest id rounds ++ events := by
  induction rounds with
  | nil => simp at h
  | cons x rest ih =>
    simp only [credit, latest]
    split
    · rename_i he
      simp [latest, he]
    · rename_i hn
      simp only [latest, hn, if_false]
      refine ih ?_
      simpa [hn] using h

theorem latest_credit_of_ne (h : id ≠ other) :
    latest id (credit other events rounds) = latest id rounds := by
  induction rounds with
  | nil => rfl
  | cons x rest ih =>
    simp only [credit]
    split
    · rename_i he
      simp [latest, he, Ne.symm h]
    · simp only [latest, ih]

theorem requests_credit (id : Nat) (events : List Event) (rounds : List Round) :
    (credit id events rounds).map (·.request) = rounds.map (·.request) := by
  induction rounds with
  | nil => rfl
  | cons x rest ih =>
    simp only [credit]
    split
    · rfl
    · simp [ih]

theorem sum_credit (h : ∃ x ∈ rounds, x.request = id) (f : Figure) :
    ((credit id events rounds).map (·.adds f)).sum =
      (rounds.map (·.adds f)).sum + (events.map (·.adds f)).sum := by
  induction rounds with
  | nil => simp at h
  | cons x rest ih =>
    simp only [credit]
    split
    · simp only [adds, List.map_cons, List.sum_cons, List.map_append, List.sum_append]
      omega
    · rename_i hn
      have later := ih (by simpa [hn] using h)
      simp only [List.map_cons, List.sum_cons, later]
      omega

end Round

namespace Runner

open Round

/-- A figure of the total of a bucket; zero if the bucket is not there. -/
def figure (r : Runner) (b : BucketRef) (f : Figure) : Nat :=
  ((r.bucket? b).map (·.total.count f)).getD 0

/-- The bucket that a request is measured in. -/
def bound? (r : Runner) (id : Nat) : Option BucketRef := (r.request? id).bind (·.bucket)

/-- The request that a handling starts, and the bucket that it is measured in from then on. -/
def launch? (r : Runner) : Handling → Option (Nat × BucketRef)
  | .start id _ b => (r.request? id).map fun _ => (id, b)
  | .command id (.begin metric _) =>
    (r.request? id).bind fun q => (r.session? q.session).bind fun s =>
      s.phase.map fun phase => (id, ⟨s.group, s.executor, phase, metric⟩)
  | _ => none

/-- What a handling does with a request: a command, or it times out. -/
def deal? (r : Runner) : Handling → Option (Nat × RequestCommand)
  | .command id c => some (id, c)
  | .fires id => if (r.request? id).any (r.isKept id) then some (id, .timeOut) else none
  | _ => none

/-- What is counted in a bucket when something is done with a request. -/
def countedIn (r : Runner) (b : BucketRef) (id : Nat) (c : RequestCommand) : List Event :=
  if r.bound? id = some b then r.counted id c else []

/-- The rounds in a bucket after a handling. -/
def roundsAfter (r : Runner) (b : BucketRef) (h : Handling) (rounds : List Round) : List Round :=
  match r.launch? h, r.deal? h with
  | some (id, c), _ => if c = b then ⟨id, []⟩ :: rounds else rounds
  | none, some (id, c) => credit id (r.countedIn b id c) rounds
  | none, none => rounds

variable {r r₁ r' : Runner} {b c : BucketRef} {id stamp : Nat} {q : Request} {events : List Event}
  {h : Handling} {cmd : RequestCommand}

section Figures

theorem figure_of_bucket? (h : r'.bucket? b = r.bucket? b) (f : Figure) :
    r'.figure b f = r.figure b f := by
  rw [figure, figure, h]

theorem figure_of_foldl (there : (r.bucket? b).isSome)
    (h : r'.bucket? b = (r.bucket? b).map fun k => events.foldl (·.record stamp ·) k) (f : Figure) :
    r'.figure b f = r.figure b f + (events.map (·.adds f)).sum := by
  obtain ⟨k, hk⟩ := Option.isSome_iff_exists.mp there
  rw [hk] at h
  simp only [Runner.figure, hk, h, Option.map_some, Option.getD_some]
  exact (k.gains_foldl stamp events).total f

namespace Counts

theorem figure (h : Counts r r' b stamp events) (there : (r.bucket? b).isSome) (f : Figure) :
    r'.figure b f = r.figure b f + (events.map (·.adds f)).sum :=
  figure_of_foldl there ((h.buckets b).trans (if_pos rfl)) f

theorem others (h : Counts r r' c stamp events) (hn : c ≠ b) : r'.bucket? b = r.bucket? b := by
  rw [h.buckets b, if_neg (Ne.symm hn)]

theorem isSome (h : Counts r r' c stamp events) : (r'.bucket? b).isSome = (r.bucket? b).isSome := by
  rw [h.buckets b]
  split
  · exact Option.isSome_map
  · rfl

theorem trans_same (h : Counts r r₁ b stamp events) (k : SameBuckets r₁ r') :
    Counts r r' b stamp events := by
  refine counts_of_buckets fun c => ?_
  rw [k c, h.buckets c]

end Counts
end Figures

section Handlings

/-- Something is done with a request that neither starts it nor is refused, or nothing is. -/
theorem applied_or_idle (hl : r.launch? (.command id cmd) = none) :
    r.handle (.command id cmd) = r ∧ r.counted id cmd = [] ∨
      ∃ q r', r.request? id = some q ∧ (∀ metric sequence, cmd ≠ .begin metric sequence) ∧
        r.applyCommand id cmd = .ok r' ∧ r.handle (.command id cmd) = r' := by
  cases hq : r.request? id with
  | none => exact .inl ⟨by simp [Runner.handle, hq], by simp [counted, hq]⟩
  | some q =>
    have tried : r.handle (.command id cmd) = (r.applyCommand id cmd).toOption.getD r := by
      simp [Runner.handle, hq]
    cases cmd with
    | begin metric sequence =>
      refine .inl ⟨?_, by simp [counted, hq, Request.counts]⟩
      rw [tried]
      cases ha : r.beginRequest id sequence metric with
      | error => simp only [applyCommand, ha]; rfl
      | ok r' =>
        obtain ⟨⟨b, r₁⟩, hf, _⟩ := bind_eq_ok.mp ha
        rw [hq] at hf
        obtain ⟨s, phase, hs, hp, _⟩ := bucketFor_ok hf
        have hs : r.session? q.session = some s := hs
        simp [launch?, hq, hs, hp] at hl
    | _ => exact .inr ⟨q, _, rfl, fun _ _ he => RequestCommand.noConfusion he, rfl, tried⟩

/-- A request that is there afterwards was there before, and went on, or it was just made. -/
theorem request?_handle (hl : r.launch? h = none) (hr : ∀ id, ¬ r.Restarts id) {q' : Request}
    (hq' : (r.handle h).request? id = some q') :
    (∃ q, r.request? id = some q ∧ q.Continues (h = .command id .completing) q') ∨
      ∃ session, h = .create session q'.recovery ∧ q'.bucket = none := by
  have back : ∀ {r' : Runner}, Continues (h = .command id .completing) id r r' →
      r'.owner? id = r.owner? id → r'.request? id = some q' →
        ∃ q, r.request? id = some q ∧ q.Continues (h = .command id .completing) q' := by
    intro r' k ho hq'
    rw [Runner.owner?, hq', Runner.owner?] at ho
    obtain ⟨q, hq, _⟩ := Option.map_eq_some_iff.mp ho.symm
    obtain ⟨q'', hq'', goes⟩ := k.kept q hq
    cases hq''.symm.trans hq'
    exact ⟨q, hq, goes⟩
  cases h with
  | create session recovery =>
    simp only [Runner.handle] at hq'
    split at hq'
    · rcases Nat.lt_trichotomy id r.requests.length with old | new | beyond
      · exact .inl ⟨q', (List.getElem?_append_left old).symm.trans hq', .refl q'⟩
      · have made : some ({ session, recovery } : Request) = some q' := by
          rw [← hq', new]
          exact List.getElem?_concat_length.symm
        cases made
        exact .inr ⟨session, rfl, rfl⟩
      · rw [show Runner.request? _ id = _ from List.getElem?_eq_none (by
          simpa [createRequest] using Nat.succ_le_of_lt beyond)] at hq'
        cases hq'
    · exact .inl ⟨q', hq', .refl q'⟩
  | start other sequence c =>
    have gone : r.request? other = none := Option.map_eq_none_iff.mp hl
    simp only [Runner.handle, gone, Option.isSome_none, Bool.false_eq_true, if_false] at hq'
    exact .inl ⟨q', hq', .refl q'⟩
  | command other cmd =>
    rcases applied_or_idle hl with ⟨same, _⟩ | ⟨q, r', hq, hn, ha, he⟩
    · rw [same] at hq'
      exact .inl ⟨q', hq', .refl q'⟩
    · rw [he] at hq'
      refine .inl (back ?_ (owner?_applyCommand ha id) hq')
      exact continues_applyCommand ha (fun _ => hn) (fun _ _ => hr id) fun ho hc => by rw [ho, hc]
  | fires other =>
    refine .inl (back (continues_expire r other fun _ => hr id) ?_ hq')
    simp only [expire]
    split
    · rfl
    · split
      · exact owner?_timeOut ..
      · rfl
  | stop session =>
    exact .inl (back (continues_stopSession r session) (owner?_stopSession ..) hq')

theorem Tallies.counts (t : Tallies r r' id b stamp events) (hr : ¬ r.Restarts id) :
    Counts r r' b stamp events := by
  obtain ⟨q, counted, same | ⟨_, metric, _, again, _⟩⟩ := t
  · exact counted.trans_same same
  · exact absurd (restarts_iff.mpr ⟨metric, again⟩) hr

/-- What is done with a request is counted in its bucket, and in no other one. -/
theorem bucket?_tallies (hq : r.request? id = some q) (hr : ¬ r.Restarts id)
    (t : ∀ b, q.bucket = some b ∨ q.bucket = none → Tallies r r' id b q.stamp (r.counted id cmd))
    (b : BucketRef) : r'.bucket? b =
      (r.bucket? b).map fun k => (r.countedIn b id cmd).foldl (·.record q.stamp ·) k := by
  have same : ∀ {o : Option Bucket}, o = o.map fun k => [].foldl (·.record q.stamp ·) k :=
    Option.map_id'.symm
  simp only [countedIn, bound?, hq, Option.bind_some]
  cases hb : q.bucket with
  | none =>
    have counts := ((t b (.inr hb)).counts hr).buckets b
    simpa [counted, hq, hb] using counts
  | some c =>
    have counts := (t c (.inl hb)).counts hr
    by_cases hc : c = b
    · subst hc
      rw [counts.buckets c, if_pos rfl, if_pos rfl]
    · rw [counts.others hc, if_neg fun he => hc (Option.some.inj he)]
      exact same

theorem bucket?_handle (hl : r.launch? h = none) (hr : ∀ id, ¬ r.Restarts id) (b : BucketRef) :
    ∃ stamp, (r.handle h).bucket? b = (r.bucket? b).map fun k =>
      (((r.deal? h).map fun d => r.countedIn b d.1 d.2).getD []).foldl (·.record stamp ·) k := by
  have idle : ∀ {r' : Runner} {events : List Event}, SameBuckets r r' → events = [] →
      ∃ stamp, r'.bucket? b = (r.bucket? b).map fun k => events.foldl (·.record stamp ·) k := by
    rintro r' events same rfl
    exact ⟨0, by rw [same b]; exact Option.map_id'.symm⟩
  cases h with
  | create session recovery =>
    refine idle ?_ rfl
    simp only [Runner.handle]
    split
    · exact sameBuckets_of_groups rfl
    · exact fun _ => rfl
  | start other sequence c =>
    have gone : r.request? other = none := Option.map_eq_none_iff.mp hl
    simp only [Runner.handle, gone, Option.isSome_none, Bool.false_eq_true, if_false]
    exact idle (fun _ => rfl) rfl
  | command other cmd =>
    rcases applied_or_idle hl with ⟨same, none⟩ | ⟨q, r', hq, hn, ha, he⟩
    · rw [same]
      refine idle (fun _ => rfl) ?_
      simp [deal?, countedIn, none]
    · rw [he]
      exact ⟨q.stamp, bucket?_tallies hq (hr other)
        (fun c hc => tallies_applyCommand hq hc hn ha) b⟩
  | fires other =>
    simp only [Runner.handle, expire, deal?]
    cases hq : r.request? other with
    | none => exact idle (fun _ => rfl) rfl
    | some q =>
      simp only [Option.any_some]
      split
      · exact ⟨q.stamp, bucket?_tallies hq (hr other) (fun c hc => tallies_timeOut hq hc) b⟩
      · exact idle (fun _ => rfl) rfl
  | stop session => exact idle (@aside_stopSession nobody r session).record.buckets rfl

/-- A request counts nothing, or its timeout while it is at work, or a response. -/
theorem counted_cases (hq : r.request? id = some q) (cmd : RequestCommand) :
    r.counted id cmd = [] ∨ cmd = .timeOut ∧ q.isCompleted = false ∧ r.counted id cmd = [.timeout] ∨
      cmd = .respond ∧ ∃ blocked time valid, r.counted id cmd = [.response blocked time valid] := by
  cases hb : q.bucket with
  | none => exact .inl (by simp [counted, hq, hb])
  | some c =>
    have made : r.counted id cmd = q.counts r.instant cmd := by simp [counted, hq, hb]
    rw [made]
    cases cmd with
    | timeOut =>
      cases hc : q.isCompleted with
      | true => exact .inl (by simp [Request.counts, hc])
      | false => exact .inr (.inl ⟨rfl, rfl, by simp [Request.counts, hc]⟩)
    | respond =>
      cases ht : q.started with
      | none => exact .inl (by simp [Request.counts, ht])
      | some t =>
        exact .inr (.inr ⟨rfl, q.blockedTime t, ⟨r.instant - t⟩, q.verdict == .valid,
          by simp [Request.counts, ht]⟩)
    | _ => exact .inl rfl

theorem handle_timeOut (hq : r.request? id = some q) (hd : r.deal? h = some (id, .timeOut)) :
    r.handle h = r.timeOut id := by
  cases h with
  | command other cmd =>
    cases hd
    simp only [Runner.handle, hq, Option.isSome_some, if_true]
    rfl
  | fires other =>
    simp only [deal?] at hd
    split at hd
    · rename_i kept
      cases hd
      simp only [hq, Option.any_some] at kept
      simp only [Runner.handle, expire, hq, kept, if_true]
    · cases hd
  | _ => cases hd

theorem eq_respond (hd : r.deal? h = some (id, .respond)) : h = .command id .respond := by
  cases h with
  | command other cmd =>
    cases hd
    rfl
  | fires other =>
    simp only [deal?] at hd
    split at hd <;> cases hd
  | _ => cases hd

theorem counts_startRequest (r : Runner) (id : Nat) (sequence : Sequence) (c : BucketRef) :
    Counts r (r.startRequest id sequence c) c r.now [.request] := by
  have started : SameBuckets r (r.modifyRequest id (·.start r.now r.instant sequence c)) :=
    sameBuckets_of_groups rfl
  have counted := Counts.after started (counts_measure _ c r.now .request)
  exact counted.trans_same (sameBuckets_of_groups rfl)

end Handlings
end Runner
end LoadGen
