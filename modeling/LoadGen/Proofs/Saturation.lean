import LoadGen.Proofs.Reporting

namespace LoadGen
namespace Bucket

namespace Assembly

/-- What is cut off at the largest word in each bucket and then in their sum is cut off in the sum
of all events. -/
theorem min_blocked (a : Assembly) :
    min a.blocked Text.maxWord = min (blockedSum a.events) Text.maxWord := by
  induction a with
  | bucket l =>
    have own : l.bucket.total.blocked = min (blockedSum l.events) Text.maxWord := l.kept.blocked
    rw [blocked_bucket, own, events, Nat.min_assoc, Nat.min_self]
  | merge left right ihl ihr =>
    have both : blockedSum (merge left right).events =
        blockedSum left.events + blockedSum right.events := by
      simp [blockedSum, events]
    rw [blocked_merge, both]
    omega

theorem blocked_recordAll (a : Assembly) (now : Nat) :
    (recordAll a.events (.opened now)).total.blocked = min a.blocked Text.maxWord := by
  obtain ⟨_, _, blocked⟩ := total_recordAll a.events (sound_opened now)
  have none : (opened now).total.blocked = 0 := rfl
  rw [blocked, none, Nat.zero_add, min_blocked]

end Assembly

/-- Two buckets are merged exactly if their blocked times make up a word, and then show what one that
recorded everything stops at; else merging them fails. -/
theorem blocked_of_merge {b c : Bucket} (hb : b.Sound) (hc : c.Sound) :
    if b.total.blocked + c.total.blocked ≤ Text.maxWord then
      ∃ d, b.merge c = .ok d ∧
        d.total.blocked = min (b.total.blocked + c.total.blocked) Text.maxWord ∧
        d.recent.blocked = min (b.recent.blocked + c.recent.blocked) Text.maxWord
    else b.merge c = .error .addOverflow := by
  split
  · rename_i fits
    obtain ⟨d, hd⟩ := (merge_isOk hb hc).mpr fits
    obtain ⟨total, recent, rfl⟩ := merge_eq_ok.mp hd
    exact ⟨_, hd, (Nat.min_eq_left total).symm, (Nat.min_eq_left recent).symm⟩
  · rename_i beyond
    rwa [eq_addOverflow_iff, merge_isOk hb hc]

end Bucket

namespace Report
variable {snaps : List Snapshot}

/-- Buckets are merged, in whatever order, exactly if their blocked times make up a word; then the
total and the open window show what they would show in one bucket that recorded everything and stops
at the largest word. Beyond a word merging fails, and so does a report of such snapshots. -/
theorem blocked_times_merged {b b' : Bucket} (hb : b.Recorded) (hb' : b'.Recorded)
    (a : Bucket.Assembly) (now : Nat) (h : ∀ s ∈ snaps, s.bucket.Recorded) :
    (if b.total.blocked + b'.total.blocked ≤ Text.maxWord then
      ∃ c, b.merge b' = .ok c ∧
        c.total.blocked = min (b.total.blocked + b'.total.blocked) Text.maxWord ∧
        c.recent.blocked = min (b.recent.blocked + b'.recent.blocked) Text.maxWord
    else b.merge b' = .error .addOverflow) ∧
    (Bucket.recordAll a.events (.opened now)).total.blocked = min a.blocked Text.maxWord ∧
    ((∃ c, a.merged = .ok c) ↔ a.blocked ≤ Text.maxWord) ∧
    (∀ c, a.merged = .ok c →
      c.total.blocked = (Bucket.recordAll a.events (.opened now)).total.blocked ∧
      c.recent.blocked = min (a.buckets.map (·.recent.blocked)).sum Text.maxWord) ∧
    ((∃ report, ofSnapshots snaps = .ok report) ↔
      ∀ phase metric, blockedOf snaps phase metric ≤ Text.maxWord) ∧
    ∀ report, ofSnapshots snaps = .ok report → ∀ row ∈ report.rows,
      row.summary.blocked = min (blockedOf snaps row.phase row.metric) Text.maxWord := by
  refine ⟨Bucket.blocked_of_merge hb.sound hb'.sound, a.blocked_recordAll now, a.merged_isOk,
    fun c hc => ?any, ofSnapshots_isOk_iff h, fun report hr row hm => ?report⟩
  case any =>
    have sums := Bucket.Assembly.sums hc
    have fits := a.merged_isOk.mp ⟨c, hc⟩
    rw [a.blocked_recordAll, Nat.min_eq_left fits, ← sums.recent,
      Nat.min_eq_left sums.sound.recentWord]
    exact ⟨sums.blocked, rfl⟩
  case report =>
    obtain ⟨c, _, sums, he⟩ := sums_of_row h hr hm
    have fits := (ofSnapshots_isOk_iff h).mp ⟨report, hr⟩ row.phase row.metric
    rw [Nat.min_eq_left fits, he]
    exact sums.blocked

/-- A request on one loop was blocked for all but one of the nanoseconds that a word counts. -/
def patient : Bucket.Life := ⟨1000, [.record 0 1000 (.response ⟨Text.maxWord - 1⟩ ⟨1⟩ true)]⟩

/-- A request on another loop was blocked for as many nanoseconds as given. -/
def delayed (nanos : Nat) : Bucket.Life := ⟨1000, [.record 1 1000 (.response ⟨nanos⟩ ⟨1⟩ true)]⟩

def patience (nanos : Nat) : Bucket.Assembly :=
  .merge (.bucket patient) (.bucket (delayed nanos))

/-- What a report of the two loops is made of. -/
def delays (nanos : Nat) : List Snapshot :=
  [⟨"p", "m", 0, patient.bucket⟩, ⟨"p", "m", 1, (delayed nanos).bucket⟩]

theorem recorded_delays (nanos : Nat) : ∀ s ∈ delays nanos, s.bucket.Recorded := by
  intro s hs
  simp only [delays, List.mem_cons, List.not_mem_nil, or_false] at hs
  rcases hs with rfl | rfl <;> exact ⟨_, .inl rfl⟩

theorem blockedOf_delays (nanos : Nat) (phase metric : String) : blockedOf (delays nanos) phase metric =
    if phase = "p" ∧ metric = "m" then (patience nanos).blocked else 0 := by
  by_cases he : phase = "p" ∧ metric = "m"
  · obtain ⟨rfl, rfl⟩ := he
    rfl
  · have other : ¬ ("p" = phase ∧ "m" = metric) := fun h => he ⟨h.1.symm, h.2.symm⟩
    rw [if_neg he]
    simp [blockedOf, bucketsOf, delays, other]

/-- With one nanosecond more the word is full. -/
theorem patient_report_full : (∀ s ∈ delays 1, s.bucket.Recorded) ∧
    (∃ c, patient.bucket.merge (delayed 1).bucket = .ok c ∧ c.total.blocked = Text.maxWord) ∧
    (∃ c, (patience 1).merged = .ok c ∧ c.total.blocked = Text.maxWord) ∧
    ∃ report, ofSnapshots (delays 1) = .ok report ∧
      (∃ row ∈ report.rows, row.phase = "p" ∧ row.metric = "m") ∧
      ∀ row ∈ report.rows, row.summary.blocked = Text.maxWord := by
  obtain ⟨two, whole, merged, same, made, rows⟩ := blocked_times_merged
    ⟨patient, .inl rfl⟩ ⟨delayed 1, .inl rfl⟩ (patience 1) 0 (recorded_delays 1)
  have full : (patience 1).blocked = Text.maxWord := by decide
  rw [if_pos (by decide)] at two
  obtain ⟨c, hc, blocked, _⟩ := two
  obtain ⟨d, hd⟩ := merged.mpr (Nat.le_of_eq full)
  obtain ⟨report, hr⟩ := made.mpr fun phase metric => by
    rw [blockedOf_delays, full]
    split
    · exact Nat.le_refl _
    · exact Nat.zero_le _
  have there := (exists_row hr).mpr ⟨_, List.mem_cons_self, rfl, rfl⟩
  refine ⟨recorded_delays 1, ⟨c, hc, blocked.trans (by decide)⟩, ⟨d, hd, ?_⟩, report, hr, there,
    fun row hm => ?_⟩
  · rw [(same d hd).1, whole, full, Nat.min_self]
  · obtain ⟨s, hs, hp, hn⟩ := (exists_row hr).mp ⟨row, hm, rfl, rfl⟩
    have name : s.phase = "p" ∧ s.metric = "m" := by
      simp only [delays, List.mem_cons, List.not_mem_nil, or_false] at hs
      rcases hs with rfl | rfl <;> exact ⟨rfl, rfl⟩
    rw [rows report hr row hm, blockedOf_delays, if_pos ⟨hp ▸ name.1, hn ▸ name.2⟩, full, Nat.min_self]

/-- With two nanoseconds more the two loops cannot be merged, and have no report, where one bucket
stops at the largest word. -/
theorem patient_report_fails :
    patient.bucket.merge (delayed 2).bucket = .error .addOverflow ∧
    (Bucket.recordAll (patient.events ++ (delayed 2).events) (.opened 1000)).total.blocked =
      Text.maxWord ∧
    ofSnapshots (delays 2) = .error .addOverflow := by
  refine ⟨by decide, by decide, ?_⟩
  rw [eq_addOverflow_iff, ofSnapshots_isOk_iff (recorded_delays 2)]
  intro fits
  exact absurd (fits "p" "m") (by decide)

end Report
end LoadGen
