import LoadGen.Proofs.BucketStarts
import LoadGen.Proofs.EndTimes
import LoadGen.Proofs.Metrics
import LoadGen.Proofs.Rows
import LoadGen.Proofs.SurveyPasses

namespace LoadGen.Runner

variable {r₀ r r' : Runner} {es es' : List Happening} {phase key : String}

section Active

theorem Dating.current (h : Dating r r') (hc : (r.current? key).isSome) :
    (r'.current? key).isSome := by
  cases h with
  | same h => rwa [h.currents]
  | ensure => rwa [current?_modifyBoard]
  | @enter name k _ _ =>
    obtain ⟨loops, he⟩ := enterGroup_eq r k name
    rw [he]
    simp only [current?, Runner.modifyGroup, Dict.get?_modify] at hc ⊢
    split
    · cases hg : r.groups.get? key with
      | none => simp [hg] at hc
      | some g => rfl
    · exact hc

theorem Passage.current (hr : r.loops.Running) (hs : 0 < r.loops.size) {e : Happening}
    (h : Passage r e r') (hc : (r.current? key).isSome) : (r'.current? key).isSome := by
  cases h with
  | survey recent => rwa [(SameDates.beginSurvey r recent).currents]
  | pruning => rwa [(SameDates.beginPruning r).currents]
  | @order loop t loops _ ht =>
    have left : ∀ {q : Runner}, SameDates { r with loops := loops } q → (q.current? key).isSome :=
      fun h => by rwa [h.currents]
    cases t with
    | stamp => rwa [perform, Telling.perform, current?_modifyBoard]
    | prune => rwa [perform, Telling.perform, current?_modifyBoard]
    | «seal» fence => exact left (dates_perform loop _ rfl rfl fun _ _ h => by cases h)
    | announce fence => exact left (dates_perform loop _ rfl rfl fun _ _ h => by cases h)
    | read survey slot k => exact left (dates_perform loop _ rfl rfl fun _ _ h => by cases h)
    | resume => cases ht
    | pace => cases ht
    | expire => cases ht
  | stages _ h =>
    exact (h.keep (I := fun q => (q.current? key).isSome) hr hs hc
      fun _ _ hc h => h.dating.current hc).1

theorem Course.current (h₀ : r₀.Initial) (h : Course r₀ es r) (k : Course r es' r')
    (hc : (r.current? key).isSome) : (r'.current? key).isSome := by
  induction k with
  | refl => exact hc
  | next hq ha he ih =>
    have o := (h.trans hq).owned h₀
    exact ((change_of_after ha he).passage o).current o.running o.size ih

theorem current_begin (o : r.Owned) (h : r.begin phase = .ok r') (hk : r.keyOf phase = some key) :
    (r'.current? key).isSome := by
  obtain ⟨i, s, hi, rfl⟩ := begin_keyed o h hk
  have entered := holders_enterGroup r key phase
  obtain ⟨j, hj, _⟩ := entered.instance_to hi
  rw [(dates_move none hj ((o.same entered).grouped phase)).currents]
  obtain ⟨loops, he⟩ := enterGroup_eq r key phase
  obtain ⟨g, hg⟩ := Option.isSome_iff_exists.mp (o.grouped phase key hk)
  rw [he]
  simp [current?, Runner.modifyGroup, hg]

theorem mem_activeGroups (h : (r.current? key).isSome) : key ∈ r.activeGroups := by
  obtain ⟨name, hc⟩ := Option.isSome_iff_exists.mp h
  obtain ⟨g, hg, hc⟩ := Option.bind_eq_some_iff.mp hc
  exact List.mem_map.mpr ⟨(key, g),
    List.mem_filter.mpr ⟨Dict.mem_entries_of_get? hg, by simp [hc]⟩, rfl⟩

end Active

section Times

theorem startOf_after (o : r.Owned) {e : Happening} (ha : r.Allowed e) (he : r.after? e = some r')
    {time : Nat} (hs : r.startOf phase = some time) : r'.startOf phase = some time := by
  have change := change_of_after ha he
  by_cases hb : ∃ here name, e = .deed here (.begin name)
  · obtain ⟨here, name, rfl⟩ := hb
    obtain ⟨i, hi, _⟩ := Option.bind_eq_some_iff.mp hs
    have begun : r.begin name = .ok r' := toOption_eq_some.mp he
    by_cases hn : name = phase
    · subst hn
      rw [(startOf_begin o begun).1] at hs
      cases hs
    · rw [startOf_begin_of_ne o hn begun hi, hs]
  · rw [(change.steady o fun here name h => hb ⟨here, name, h⟩).startOf, hs]

theorem Course.startOf (h₀ : r₀.Initial) (h : Course r₀ es r) (k : Course r es' r') {time : Nat}
    (hs : r.startOf phase = some time) : r'.startOf phase = some time := by
  induction k with
  | refl => exact hs
  | next hq ha he ih => exact startOf_after ((h.trans hq).owned h₀) ha he ih

theorem Course.endOf (h₀ : r₀.Initial) (h : Course r₀ es r) (k : Course r es' r') {time : Nat}
    (hs : r.endOf phase = some time) : r'.endOf phase = some time := by
  induction k with
  | refl => exact hs
  | next hq ha he ih =>
    rcases ending_of_after ((h.trans hq).owned h₀) ha he phase with same | ⟨none, _⟩
    · rw [same, ih]
    · rw [ih] at none
      cases none

theorem endOf_of_terminated (o : r.Owned) (o' : r'.Owned) {e : Happening} (ha : r.Allowed e)
    (he : r.after? e = some r') (hn : r.status? phase ≠ some .terminated)
    (ht : r'.status? phase = some .terminated) : r'.endOf phase = some r.now := by
  rcases ending_of_after o ha he phase with same | ⟨_, ended⟩
  · rw [← endOf_isSome o', same, endOf_isSome o] at ht
    exact absurd ht hn
  · exact ended

end Times

section Queue

theorem Told.waits {e : Happening} {news : List (String × Notice)} (h : Told r e r' news)
    (hn : phase ∉ r.ended) (he : phase ∈ r'.ended) : phase ∈ r'.pruneQueue := by
  rw [Runner.ended, h.notices, endings_append] at he
  rw [h.pruneQueue]
  exact List.mem_append_right _ ((List.mem_append.mp he).resolve_left hn)

theorem Course.waits (h₀ : r₀.Initial) (hl : r₀.listening = true) (h : Course r₀ es r)
    (k : Course r es' r') (hn : .beginPruning ∉ es') (hq : phase ∈ r.pruneQueue) :
    phase ∈ r'.pruneQueue := by
  induction k with
  | refl => exact hq
  | @next es' e q q' hc ha he ih =>
    have waits := ih fun hm => hn (List.mem_append_left _ hm)
    obtain ⟨news, told⟩ := (h.trans hc).told h₀ hl ha he
    rw [told.pruneQueue]
    refine List.mem_append_left _ ?_
    cases e with
    | beginPruning => exact absurd (List.mem_append_right _ (List.mem_singleton_self _)) hn
    | _ => exact waits

end Queue

/-- A runner, and the runs that have had a turn by then. -/
structure Moment where
  runner : Runner
  had : List Nat := []

/-- What happened from one moment to another. -/
def Moment.Leads (m : Moment) (es : List Happening) (m' : Moment) : Prop :=
  Worked m.runner m.had es m'.had m'.runner

/-- How a phase was begun and terminated, how its end was announced, and how the first pass after
that read its buckets. -/
structure Story (r₀ : Runner) (phase : String) where
  (before begun alive ended silent told asked answered : Moment)
  (prelude work wait rest reads : List Happening)
  (last announcing : Happening)
  starts : Moment.Leads { runner := r₀ } prelude before
  begins : before.Leads [.deed none (.begin phase)] begun
  works : begun.Leads work alive
  unterminated : alive.runner.status? phase ≠ some .terminated
  ends : alive.Leads [last] ended
  terminated : ended.runner.status? phase = some .terminated
  waits : ended.Leads wait silent
  unannounced : phase ∉ silent.runner.ended
  announces : silent.Leads [announcing] told
  announced : phase ∈ told.runner.ended
  rests : told.Leads rest asked
  unpruned : .beginPruning ∉ rest
  answers : Moment.Leads { asked with runner := (asked.runner.beginSurvey none).2 } reads answered
  first : .beginPruning ∉ reads

namespace Story
variable (s : Story r₀ phase)

/-- What happened between the begin of the phase and the pass. -/
def path : List Happening := s.work ++ ([s.last] ++ (s.wait ++ ([s.announcing] ++ s.rest)))

/-- At some time before the pass, an iteration of the phase asked for the metric. -/
def Uses (metric : String) : Prop :=
  ∃ es e es' q q', es ++ e :: es' = s.path ∧ Course s.begun.runner es q ∧ Course q [e] q' ∧
    Asks (q.remit e) q q' phase metric ∧ Course q' es' s.asked.runner

theorem toBefore : Course r₀ s.prelude s.before.runner := Worked.course s.starts

theorem toBegun : Course r₀ (s.prelude ++ [.deed none (.begin phase)]) s.begun.runner :=
  Worked.course (Worked.trans s.starts s.begins)

theorem begin_eq : s.before.runner.begin phase = .ok s.begun.runner :=
  toOption_eq_some.mp (Worked.of_one s.begins).2

theorem worked : Worked s.begun.runner s.begun.had s.path s.asked.had s.asked.runner :=
  s.works.trans (s.ends.trans (s.waits.trans (s.announces.trans s.rests)))

theorem toAsked : Worked r₀ [] (s.prelude ++ [.deed none (.begin phase)] ++ s.path) s.asked.had
    s.asked.runner := (Worked.trans s.starts s.begins).trans s.worked

theorem surveys : Course s.asked.runner [.beginSurvey none] (s.asked.runner.beginSurvey none).2 :=
  .one trivial rfl

theorem reading : Course (s.asked.runner.beginSurvey none).2 s.reads s.answered.runner :=
  Worked.course s.answers

section Facts
variable (h₀ : r₀.Initial)
include h₀

include s in
theorem listening : r₀.listening = true := by
  have told := s.toBegun.trans ((Worked.course s.works).trans ((Worked.course s.ends).trans
    ((Worked.course s.waits).trans (Worked.course s.announces))))
  exact told.heard h₀ s.announced

theorem startOf_asked : s.asked.runner.startOf phase = some s.before.runner.now :=
  s.toBegun.startOf h₀ s.worked.course (startOf_begin (s.toBefore.owned h₀) s.begin_eq).2

theorem endOf_asked : s.asked.runner.endOf phase = some s.alive.runner.now := by
  have alive := s.toBegun.trans (Worked.course s.works)
  have ended := alive.trans (Worked.course s.ends)
  obtain ⟨ht, he⟩ := Worked.of_one s.ends
  exact ended.endOf h₀ (Worked.course (Worked.trans s.waits (Worked.trans s.announces s.rests)))
    (endOf_of_terminated (alive.owned h₀) (ended.owned h₀) ht.allowed he s.unterminated s.terminated)

theorem active_asked (hk : s.before.runner.keyOf phase = some key) :
    key ∈ s.asked.runner.activeGroups :=
  mem_activeGroups (s.toBegun.current h₀ s.worked.course
    (current_begin (s.toBefore.owned h₀) s.begin_eq hk))

theorem keyOf_asked (hk : s.before.runner.keyOf phase = some key) :
    s.asked.runner.keyOf phase = some key := by
  rw [(s.toBefore.lasting h₀ ((Worked.course s.begins).trans s.worked.course)).keys]
  exact hk

theorem keyOf_later (hk : s.before.runner.keyOf phase = some key) {q : Runner}
    (k : Course s.asked.runner es q) : q.keyOf phase = some key := by
  rw [(s.toAsked.course.lasting h₀ k).keys]
  exact s.keyOf_asked h₀ hk

/-- The phase waits to be pruned when the pass begins, and still does when its loops have answered. -/
theorem waits_asked : phase ∈ s.asked.runner.ended ∧ phase ∈ s.asked.runner.pruneQueue ∧
    phase ∈ s.answered.runner.pruneQueue := by
  have hl := s.listening h₀
  have silent := ((s.toBegun.trans (Worked.course s.works)).trans (Worked.course s.ends)).trans
    (Worked.course s.waits)
  obtain ⟨ht, he⟩ := Worked.of_one s.announces
  obtain ⟨news, heard⟩ := silent.told h₀ hl ht.allowed he
  have told := silent.trans (Worked.course s.announces)
  have rest := Worked.course s.rests
  have queued := told.waits h₀ hl rest s.unpruned (heard.waits s.unannounced s.announced)
  have pass := s.surveys.trans s.reading
  exact ⟨told.ended_mono h₀ hl rest s.announced, queued,
    (told.trans rest).waits h₀ hl pass (by simpa using s.first) queued⟩

theorem interval_of_bucket (hk : s.before.runner.keyOf phase = some key) {q : Runner}
    (k : Course s.asked.runner es q) (hg : ¬ q.Gone phase) {loop : Nat} {b : Board}
    (hb : q.board? key loop = some b) {metric : String} {c : Bucket} (hc : b.Holds phase metric c) :
    c.start = s.before.runner.now ∧ c.stop = some s.alive.runner.now := by
  have hl := s.listening h₀
  obtain ⟨ended, queued, _⟩ := s.waits_asked h₀
  have hka := s.keyOf_asked h₀ hk
  have toAsked := s.toAsked.course
  have whole := toAsked.trans k
  have dated := s.toAsked.dated h₀ hl hka fun gone => gone.2 queued
  rw [s.startOf_asked h₀] at dated
  refine ⟨(toAsked.dated h₀ hl k ended hka hg dated).holds hb hc, ?_⟩
  have fenced := whole.fenced h₀
  obtain ⟨time, ends⟩ := fenced.endedOn
    (fenced.seen phase key (s.keyOf_later h₀ hk k) (.inr (.inr (toAsked.ended_mono h₀ hl k ended))))
  have stamp := (whole.stamped h₀).endedOn (ends loop)
  rw [toAsked.endOf h₀ k (s.endOf_asked h₀)] at stamp
  rw [((whole.measured h₀).stops key loop b hb phase metric c hc time).mpr (ends loop), stamp]

theorem uncovered (hk : s.before.runner.keyOf phase = some key) (metric : String) :
    ¬ s.begun.runner.Covers phase metric := by
  have hl := s.listening h₀
  intro held
  obtain ⟨fresh, _⟩ := startOf_begin (s.toBefore.owned h₀) s.begin_eq
  have there : ¬ s.before.runner.Gone phase := fun gone =>
    (s.toBefore.gone h₀ hl ((Worked.course s.begins).trans s.worked.course) hk gone).2
      (s.waits_asked h₀).2.1
  have dated := Worked.dated h₀ hl s.starts hk there
  rw [fresh] at dated
  obtain ⟨k, loop, b, hb, c, hc⟩ := covers_of_begin (s.toBefore.owned h₀) s.begin_eq held
  have home := (s.toBefore.measured h₀).home k loop b hb phase metric c hc
  cases home.symm.trans hk
  exact dated.absent hb hc

/-- There is a bucket for every metric that an iteration asked for, and for no other. -/
theorem uses_iff (hk : s.before.runner.keyOf phase = some key) {metric : String} :
    s.Uses metric ↔ s.asked.runner.Covers phase metric := by
  have hl := s.listening h₀
  have begun := s.toBegun
  constructor
  · intro used
    obtain ⟨es, e, es', q, q', _, before, step, asks, after⟩ := used
    have made := (begun.trans before).trans step
    obtain ⟨k, loop, b, hb, c, hc⟩ := asks.covers h₀ hl (begun.trans before)
    have hkq : q'.keyOf phase = some key := by
      rw [← (made.lasting h₀ after).keys]
      exact s.keyOf_asked h₀ hk
    have there : ¬ s.asked.runner.Gone phase := fun gone => gone.2 (s.waits_asked h₀).2.1
    obtain ⟨b', hb', kept⟩ := made.keeps h₀ hl after hkq there k loop b hb
    obtain ⟨c', hc', _⟩ := kept metric c hc
    exact ⟨k, loop, b', hb', c', hc'⟩
  · intro held
    exact Course.asks (begun.owned h₀) s.worked.course (s.uncovered h₀ hk metric) held

end Facts

section Report
variable (h₀ : r₀.Initial) (hk : s.before.runner.keyOf phase = some key)
  {snaps : List Snapshot}
  (hs : s.answered.runner.surveyed s.asked.runner.surveys.length = .ok snaps)
include h₀ hk hs

theorem read_at {loop : Nat} (hloop : loop < s.asked.runner.loops.size) :
    ∃ q b, (∃ es, Course s.asked.runner es q) ∧ ¬ q.Gone phase ∧ q.board? key loop = some b ∧
      ∀ u : Snapshot, u.phase = phase → u.executor = loop → (u ∈ snaps ↔ u ∈ b.snapshot) := by
  have hl := s.listening h₀
  have toAsked := s.toAsked.course
  obtain ⟨answers, handed⟩ := (toAsked.asked h₀ hl s.reading).handed hs
  have hkr := s.keyOf_later h₀ hk (s.surveys.trans s.reading)
  obtain ⟨q, b, reading, same⟩ := handed.at_loop h₀ toAsked hkr (s.active_asked h₀ hk) hloop
  obtain ⟨es₁, before⟩ := reading.before
  obtain ⟨es₂, after⟩ := reading.after
  have k := s.surveys.trans before
  have hkq := s.keyOf_later h₀ hk k
  refine ⟨q, b, ⟨_, k⟩, fun gone => ?_, reading.board, same⟩
  exact ((toAsked.trans k).gone h₀ hl after hkq gone).2 (s.waits_asked h₀).2.2

/-- The snapshots of the phase are of buckets that a loop had when it answered. -/
theorem snapshot_at {u : Snapshot} (hu : u ∈ snaps) (hp : u.phase = phase) :
    ∃ q b, (∃ es, Course s.asked.runner es q) ∧ ¬ q.Gone phase ∧
      q.board? key u.executor = some b ∧ b.Holds phase u.metric u.bucket := by
  have hl := s.listening h₀
  have toAsked := s.toAsked.course
  obtain ⟨answers, handed⟩ := (toAsked.asked h₀ hl s.reading).handed hs
  have hkr := s.keyOf_later h₀ hk (s.surveys.trans s.reading)
  obtain ⟨_, _, _, _, place⟩ := handed.origin h₀ (toAsked.trans s.surveys) hkr hu hp
  obtain ⟨q, b, k, hg, hb, same⟩ := s.read_at h₀ hk hs
    (mem_surveyPlaces.mp (List.mem_of_getElem? place)).2
  obtain ⟨held, _⟩ := Board.mem_snapshot.mp ((same u hp rfl).mp hu)
  rw [hp] at held
  exact ⟨q, b, k, hg, hb, held⟩

/-- There is a snapshot for every metric that the phase had a bucket for, and for no other. -/
theorem covers_iff {metric : String} : s.asked.runner.Covers phase metric ↔
    ∃ u ∈ snaps, u.phase = phase ∧ u.metric = metric := by
  have hl := s.listening h₀
  have toAsked := s.toAsked.course
  have hka := s.keyOf_asked h₀ hk
  constructor
  · intro held
    obtain ⟨k₀, loop, b₀, hb₀, c₀, hc₀⟩ := held
    have measured := toAsked.measured h₀
    have home := measured.home k₀ loop b₀ hb₀ phase metric c₀ hc₀
    cases home.symm.trans hka
    obtain ⟨q, b, ⟨_, k⟩, hg, hb, same⟩ := s.read_at h₀ hk hs (measured.placed _ loop b₀ hb₀).1
    obtain ⟨b', hb', kept⟩ := toAsked.keeps h₀ hl k hka hg key loop b₀ hb₀
    obtain rfl := Option.some.inj (hb.symm.trans hb')
    obtain ⟨c, hc, _⟩ := kept metric c₀ hc₀
    have placed := (((toAsked.trans k).measured h₀).placed key loop b hb).2
    exact ⟨⟨phase, metric, loop, c⟩,
      (same _ rfl rfl).mpr (Board.mem_snapshot.mpr ⟨hc, placed.symm⟩), rfl, rfl⟩
  · intro held
    obtain ⟨u, hu, hp, rfl⟩ := held
    obtain ⟨q, b, ⟨_, k⟩, _, hb, hc⟩ := s.snapshot_at h₀ hk hs hu hp
    obtain ⟨b₀, hb₀, old⟩ :=
      toAsked.contained h₀ k hka (s.waits_asked h₀).1 key u.executor b hb
    exact ⟨key, u.executor, b₀, hb₀, old u.metric u.bucket hc⟩

end Report

end Story

/-- What a report says of the phase. -/
structure Story.Reported (s : Story r₀ phase) (report : Report) : Prop where
  /-- Every row starts when the phase began, and stops when it terminated. -/
  interval : ∀ row ∈ report.rows, row.phase = phase →
    row.summary.start = s.before.runner.now ∧ row.summary.stop = some s.alive.runner.now
  /-- No metric has two rows. -/
  once : (report.metricsOf phase).Nodup
  metrics : ∀ metric, metric ∈ report.metricsOf phase ↔ s.Uses metric

/-- What the first pass after the end of a phase hands over makes a report with the interval of the
phase, on however many loops and in whatever order its buckets were made and stopped. Only the
blocked times of some phase and metric can overflow, and then there is no report. -/
theorem phase_interval_reported (h₀ : r₀.Initial) (s : Story r₀ phase)
    (hk : s.before.runner.keyOf phase = some key) {snaps : List Snapshot}
    (hs : s.answered.runner.surveyed s.asked.runner.surveys.length = .ok snaps) :
    (∀ report, Report.ofSnapshots snaps = .ok report → s.Reported report) ∧
      ((∀ name metric, Report.Fits snaps name metric) →
        ∃ report, Report.ofSnapshots snaps = .ok report) := by
  refine ⟨fun report hr => ⟨?interval, Report.metricsOf_nodup hr phase, fun metric => ?metrics⟩,
    fun fits => Report.ofSnapshots_isOk.mpr fun name metric => ?made⟩
  case interval =>
    refine Report.interval_of_rows hr fun u hu hp => ?_
    obtain ⟨q, b, ⟨_, k⟩, hg, hb, hc⟩ := s.snapshot_at h₀ hk hs hu hp
    exact s.interval_of_bucket h₀ hk k hg hb hc
  case metrics =>
    rw [Report.mem_metricsOf hr, s.uses_iff h₀ hk, s.covers_iff h₀ hk hs]
  case made =>
    exact Bucket.mergeAll_of_fits (fits name metric).total (fits name metric).recent

/-- A phase begins at 100 and terminates at 250. Its only bucket is made at 150 and stopped at 300. -/
theorem gate_interval_reported : ∃ (s : Story gateRunner "login") (snaps : List Snapshot),
    s.answered.runner.surveyed s.asked.runner.surveys.length = .ok snaps ∧
      s.before.runner.now = 100 ∧ s.alive.runner.now = 250 ∧
      ∃ report, Report.ofSnapshots snaps = .ok report ∧
        report.metricsOf "login" = ["page"] ∧ s.Reported report := by
  have reached : ∀ {r q had had' es}, Worked r had es had' q → Worked q had' [] had' q :=
    fun _ => .refl
  have idle : Worked gateRunner [] [] [] gateRunner := .refl
  have starts := idle.next (e := .clock 100) trivial rfl
  have begins := (reached starts).next (e := .deed none (.begin "login")) trivial rfl
  have works := (reached begins).next (e := .deed none (.enroll "login")) trivial rfl
  have works := works.next (e := .turn 0) (fun _ _ h => by cases h) rfl
  have works := works.next (e := .turn 0) (fun _ _ h => by cases h) rfl
  have works := works.next (e := .clock 150) trivial rfl
  have works := works.next (e := .createRequest 0 .complete) trivial rfl
  have works := works.next (e := .command 0 (.begin "page" ⟨"visit", 0⟩))
    ⟨_, rfl, _, List.mem_singleton_self _, rfl, List.mem_singleton_self _⟩ rfl
  have works := works.next (e := .deed none (.complete 0)) trivial rfl
  have works := works.next (e := .clock 250) trivial rfl
  have ends := (reached works).next (e := .deed none (.terminate "login")) trivial rfl
  have waits := (reached ends).next (e := .clock 300) trivial rfl
  have waits := waits.next (e := .turn 1) (fun _ _ h => by cases h) rfl
  have waits := waits.next (e := .turn 1) (fun _ _ h => by cases h) rfl
  have waits := waits.next (e := .turn 0) (fun _ _ h => by cases h) rfl
  have announces := (reached waits).next (e := .turn 0) (fun _ _ h => by cases h) rfl
  have asked : ∀ {r q had had' es}, Worked r had es had' q →
      Worked (q.beginSurvey none).2 had' [] had' (q.beginSurvey none).2 := fun _ => .refl
  have reads := (asked announces).next (e := .turn 0) (fun _ _ h => by cases h) rfl
  have reads := reads.next (e := .turn 1) (fun _ _ h => by cases h) rfl
  let s : Story gateRunner "login" := {
    before := ⟨_, _⟩, begun := ⟨_, _⟩, alive := ⟨_, _⟩, ended := ⟨_, _⟩
    silent := ⟨_, _⟩, told := ⟨_, _⟩, asked := ⟨_, _⟩, answered := ⟨_, _⟩
    prelude := _, work := _, wait := _, rest := [], reads := _, last := _, announcing := _
    starts := starts, begins := begins, works := works
    unterminated := nofun, ends := ends, terminated := rfl
    waits := waits, unannounced := List.not_mem_nil
    announces := announces, announced := List.mem_singleton_self _
    rests := .refl, unpruned := List.not_mem_nil
    answers := reads, first := by simp }
  have reported := (phase_interval_reported gateRunner_initial s
    (show Runner.keyOf _ "login" = some "users" from rfl) rfl).1 _ rfl
  exact ⟨s, _, rfl, rfl, rfl, _, rfl, rfl, reported⟩

end LoadGen.Runner
