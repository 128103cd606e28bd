import LoadGen.Proofs.ByteOrder
import LoadGen.Proofs.Merging
import LoadGen.Proofs.Rows
import Mathlib.Algebra.Order.BigOperators.Group.List
import Mathlib.Algebra.Order.Group.Nat

namespace LoadGen

/-- A bucket that came about by recording: it is still in use, or it is a window that was closed. -/
def Bucket.Recorded (b : Bucket) : Prop := ∃ l : Life, b = l.bucket ∨ b ∈ l.chronicle.closed

theorem Bucket.Recorded.sound {b : Bucket} (h : b.Recorded) : b.Sound := by
  obtain ⟨l, rfl | hb⟩ := h
  · exact l.kept.sound
  · exact l.kept.closed b hb

/-- What a summary counts. -/
inductive Counter
  | requests
  | responses
  | timeouts
  | invalid
  | connectionErrors
  | blocked

def Summary.counter (s : Summary) : Counter → Nat
  | .requests => s.requests
  | .responses => s.responses
  | .timeouts => s.timeouts
  | .invalid => s.invalid
  | .connectionErrors => s.connectionErrors
  | .blocked => s.blocked

/-- By phase and then by metric, in the order of their bytes. -/
def Row.Before (a b : Row) : Prop :=
  Text.bytes a.phase < Text.bytes b.phase ∨
    (a.phase = b.phase ∧ Text.bytes a.metric < Text.bytes b.metric)

theorem Row.Before.asymm {a b : Row} (h : a.Before b) : ¬ b.Before a := by
  rintro (hp | ⟨hp, hm⟩)
  · rcases h with h | ⟨h, _⟩
    · exact List.lt_asymm h hp
    · rw [h] at hp
      exact List.lt_irrefl _ hp
  · rcases h with h | ⟨_, h⟩
    · rw [hp] at h
      exact List.lt_irrefl _ h
    · exact List.lt_asymm h hm

theorem Bucket.Sums.counter {bs : List Bucket} {c : Bucket} (h : Bucket.Sums bs c) (k : Counter) :
    c.summary.counter k = (bs.map (·.summary.counter k)).sum := by
  cases k with
  | requests => exact h.counts .requests
  | responses => exact h.counts .responses
  | timeouts => exact h.counts .timeouts
  | invalid => exact h.counts .invalid
  | connectionErrors => exact h.counts .connectionErrors
  | blocked => exact h.blocked

theorem sum_by_key {α κ : Type} [DecidableEq κ] (key : α → κ) (f : α → Nat) {keys : List κ}
    (hn : keys.Nodup) {xs : List α} (hk : ∀ x ∈ xs, key x ∈ keys) :
    (keys.map fun k => ((xs.filter (key · = k)).map f).sum).sum = (xs.map f).sum := by
  have once : ∀ (n : Nat) (x : κ) (keys : List κ), keys.Nodup →
      (keys.map fun k => if x = k then n else 0).sum = if x ∈ keys then n else 0 := by
    intro n x keys hn
    induction keys with
    | nil => rfl
    | cons k keys ih =>
      obtain ⟨hk, hn⟩ := List.nodup_cons.mp hn
      rw [List.map_cons, List.sum_cons, ih hn]
      by_cases he : x = k
      · subst he
        simp [hk]
      · simp [he]
  induction xs with
  | nil => simp
  | cons x rest ih =>
    have split : ∀ k, (((x :: rest).filter (key · = k)).map f).sum =
        (if key x = k then f x else 0) + ((rest.filter (key · = k)).map f).sum := by
      intro k
      by_cases he : key x = k <;> simp [he]
    simp only [split, List.sum_map_add]
    rw [once _ _ _ hn, if_pos (hk x List.mem_cons_self),
      ih fun y hy => hk y (List.mem_cons_of_mem _ hy), List.map_cons, List.sum_cons]

namespace Report
variable {snaps snaps' : List Snapshot} {report : Report} {phase metric : String}

theorem rows_sorted (h : ofSnapshots snaps = .ok report) : report.rows.Pairwise Row.Before := by
  obtain ⟨d, ⟨tidy, _⟩, rfl⟩ := gathered_of_ofSnapshots h
  refine List.pairwise_flatMap.mpr ⟨fun p hp => ?_, tidy.phases.imp fun hlt => ?_⟩
  · refine List.pairwise_map.mpr ((tidy.metrics p hp).imp fun hlt => ?_)
    exact .inr ⟨rfl, Text.bytes_lt hlt⟩
  · intro a ha b hb
    obtain ⟨_, _, rfl⟩ := List.mem_map.mp ha
    obtain ⟨_, _, rfl⟩ := List.mem_map.mp hb
    exact .inl (Text.bytes_lt hlt)

def nameOf (row : Row) : String × String := (row.phase, row.metric)

theorem names_nodup (h : ofSnapshots snaps = .ok report) : (report.rows.map nameOf).Nodup :=
  List.pairwise_map.mpr ((rows_apart h).imp fun hne he =>
    hne ⟨(Prod.mk.inj he).1, (Prod.mk.inj he).2⟩)

/-- The blocked times that the snapshots of a phase and a metric show, added up without a limit. -/
def blockedOf (snaps : List Snapshot) (phase metric : String) : Nat :=
  ((bucketsOf snaps phase metric).map (·.total.blocked)).sum

theorem blockedOf_perm (hp : snaps.Perm snaps') :
    blockedOf snaps' phase metric = blockedOf snaps phase metric :=
  (((hp.filter _).map _).map _).sum_eq.symm

section Recorded
variable (h : ∀ s ∈ snaps, s.bucket.Recorded)
include h

theorem sound_bucketsOf : ∀ b ∈ bucketsOf snaps phase metric, b.Sound := by
  intro b hb
  obtain ⟨s, hs, rfl⟩ := List.mem_map.mp hb
  exact (h s (List.mem_filter.mp hs).1).sound

/-- A report can be made exactly if the blocked times of each phase and metric make up a word. -/
theorem ofSnapshots_isOk_iff : (∃ report, ofSnapshots snaps = .ok report) ↔
    ∀ phase metric, blockedOf snaps phase metric ≤ Text.maxWord := by
  rw [ofSnapshots_isOk]
  exact forall_congr' fun _ => forall_congr' fun _ => Bucket.mergeAll_isOk (sound_bucketsOf h)

theorem sums_of_row (hr : ofSnapshots snaps = .ok report) {row : Row} (hm : row ∈ report.rows) :
    ∃ c, Bucket.mergeAll (bucketsOf snaps row.phase row.metric) = .ok (some c) ∧
      Bucket.Sums (bucketsOf snaps row.phase row.metric) c ∧ row.summary = c.summary := by
  obtain ⟨c, hc, he⟩ := (mem_rows hr).mp hm
  exact ⟨c, hc, .mergeAll (sound_bucketsOf h) hc, he⟩

theorem sum_rows (hr : ofSnapshots snaps = .ok report) (k : Counter) :
    (report.rows.map (·.summary.counter k)).sum = (snaps.map (·.bucket.summary.counter k)).sum := by
  have there : ∀ s ∈ snaps, (s.phase, s.metric) ∈ report.rows.map nameOf := by
    intro s hs
    obtain ⟨row, hm, hp, hn⟩ := (exists_row hr).mpr ⟨s, hs, rfl, rfl⟩
    exact List.mem_map.mpr ⟨row, hm, Prod.ext hp hn⟩
  rw [← sum_by_key (fun s : Snapshot => (s.phase, s.metric)) (·.bucket.summary.counter k)
    (names_nodup hr) there, List.map_map]
  refine congrArg List.sum (List.map_congr_left fun row hm => ?_)
  obtain ⟨c, _, sums, he⟩ := sums_of_row h hr hm
  rw [he, sums.counter k, bucketsOf, List.map_map]
  rfl

theorem rows_subset_of_perm (hp : snaps.Perm snaps') {report' : Report}
    (hr : ofSnapshots snaps = .ok report) (hr' : ofSnapshots snaps' = .ok report') :
    ∀ row ∈ report.rows, row ∈ report'.rows := by
  intro row hm
  have h' : ∀ s ∈ snaps', s.bucket.Recorded := fun s hs => h s (hp.symm.subset hs)
  obtain ⟨c, _, sums, he⟩ := sums_of_row h hr hm
  obtain ⟨s, hs, names⟩ := (exists_row hr).mp ⟨row, hm, rfl, rfl⟩
  obtain ⟨row', hm', hn⟩ := (exists_row hr').mpr ⟨s, hp.subset hs, names⟩
  obtain ⟨c', _, sums', he'⟩ := sums_of_row h' hr' hm'
  rw [hn.1, hn.2] at sums'
  have same : (bucketsOf snaps row.phase row.metric).Perm
      (bucketsOf snaps' row.phase row.metric) := (hp.filter _).map _
  have shown : row.summary = row'.summary := by
    rw [he, he', (sums.perm same).summary_eq sums']
  obtain ⟨_, _, _⟩ := row
  obtain ⟨_, _, _⟩ := row'
  obtain ⟨rfl, rfl⟩ := hn
  cases shown
  exact hm'

theorem ofSnapshots_perm (hp : snaps.Perm snaps') : ofSnapshots snaps' = ofSnapshots snaps := by
  have h' : ∀ s ∈ snaps', s.bucket.Recorded := fun s hs => h s (hp.symm.subset hs)
  have made : (∃ report, ofSnapshots snaps' = .ok report) ↔
      ∃ report, ofSnapshots snaps = .ok report := by
    rw [ofSnapshots_isOk_iff h, ofSnapshots_isOk_iff h']
    simp only [blockedOf_perm hp]
  cases hr : ofSnapshots snaps with
  | error e =>
    cases e
    rw [eq_addOverflow_iff] at hr ⊢
    rwa [made]
  | ok report =>
    obtain ⟨report', hr'⟩ := made.mpr ⟨report, hr⟩
    have nodup : ∀ {snaps : List Snapshot} {report : Report}, ofSnapshots snaps = .ok report →
        report.rows.Nodup := fun hr => List.Nodup.of_map _ (names_nodup hr)
    have rows : report'.rows.Perm report.rows :=
      (List.perm_ext_iff_of_nodup (nodup hr') (nodup hr)).mpr fun row =>
        ⟨rows_subset_of_perm h' hp.symm hr' hr row, rows_subset_of_perm h hp hr hr' row⟩
    have same := rows.eq_of_pairwise
      (fun a b _ _ hab hba => absurd hba hab.asymm) (rows_sorted hr') (rows_sorted hr)
    rw [hr']
    exact congrArg (fun rows => Except.ok (Report.mk rows)) same

/-- A report is made if the blocked times of each phase and metric make up a word, and fails if they
do not. It has one row for each phase and metric that there are snapshots of, in the order of the
bytes of the names. A row sums up its snapshots, the rows together count what the snapshots count,
and the order of the snapshots does not matter. -/
theorem report_of_snapshots :
    ((∃ report, ofSnapshots snaps = .ok report) ↔
      ∀ phase metric, blockedOf snaps phase metric ≤ Text.maxWord) ∧
    (∀ report, ofSnapshots snaps = .ok report →
      report.rows.Pairwise Row.Before ∧
      (∀ phase metric,
        (∃ row ∈ report.rows, row.phase = phase ∧ row.metric = metric) ↔
          ∃ s ∈ snaps, s.phase = phase ∧ s.metric = metric) ∧
      (∀ row ∈ report.rows, ∃ c,
        Bucket.mergeAll (bucketsOf snaps row.phase row.metric) = .ok (some c) ∧
          row.summary = c.summary) ∧
      ∀ k : Counter, (report.rows.map (·.summary.counter k)).sum =
        (snaps.map (·.bucket.summary.counter k)).sum) ∧
    ∀ snaps', snaps.Perm snaps' → ofSnapshots snaps' = ofSnapshots snaps :=
  ⟨ofSnapshots_isOk_iff h, fun _ hr => ⟨rows_sorted hr, fun _ _ => exists_row hr,
    fun _ => (mem_rows hr).mp, sum_rows h hr⟩, fun _ => ofSnapshots_perm h⟩

end Recorded

/-- Two loops, the second of which is in the middle of things: it has closed a window, and has no end
yet. Two of the phases have names that other encodings would put the other way round. -/
def fourSnapshots : List Snapshot :=
  let first : Bucket.Life := ⟨100, [.record 0 100 .request,
    .record 0 100 (.response ⟨5000⟩ ⟨2000000⟩ true), .finish 900]⟩
  let second : Bucket.Life := ⟨50, [.record 0 50 .request, .close 400, .record 1 450 .request,
    .record 1 450 .timeout]⟩
  [⟨"😀", "page", 1, second.bucket⟩, ⟨"ﬁn", "page", 1, second.bucket⟩,
    ⟨"login", "page", 0, first.bucket⟩, ⟨"login", "page", 1, second.bucket⟩]

theorem four_snapshots_reported : (∀ s ∈ fourSnapshots, s.bucket.Recorded) ∧
    ∃ report, ofSnapshots fourSnapshots = .ok report ∧
      report.rows.map nameOf = [("login", "page"), ("ﬁn", "page"), ("😀", "page")] ∧
      report.rows.Pairwise Row.Before ∧
      (report.rows.map (·.summary.requests)).sum = 7 ∧
      (report.rows.map (·.summary.blocked)).sum = 5000 ∧
      ofSnapshots fourSnapshots.reverse = .ok report := by
  have recorded : ∀ s ∈ fourSnapshots, s.bucket.Recorded := by
    intro s hs
    simp only [fourSnapshots, List.mem_cons, List.not_mem_nil, or_false] at hs
    rcases hs with rfl | rfl | rfl | rfl <;> exact ⟨_, .inl rfl⟩
  obtain ⟨made, reported, perm⟩ := report_of_snapshots recorded
  have fits : ∀ phase metric, blockedOf fourSnapshots phase metric ≤ Text.maxWord := by
    intro phase metric
    have sub : ((bucketsOf fourSnapshots phase metric).map (·.total.blocked)).Sublist
        (fourSnapshots.map (·.bucket.total.blocked)) := by
      rw [bucketsOf, List.map_map]
      exact List.filter_sublist.map _
    exact Nat.le_trans (sub.sum_le_sum fun n _ => Nat.zero_le n) (by decide)
  obtain ⟨report, hr⟩ := made.mpr fits
  obtain ⟨sorted, _, _, counts⟩ := reported report hr
  refine ⟨recorded, report, hr, ?_, sorted, (counts .requests).trans (by decide),
    (counts .blocked).trans (by decide), (perm _ (List.reverse_perm _).symm).trans hr⟩
  have names : (ofSnapshots fourSnapshots).toOption.map (·.rows.map nameOf) =
      some [("login", "page"), ("ﬁn", "page"), ("😀", "page")] := by decide +kernel
  rw [hr] at names
  exact Option.some.inj names

end Report
end LoadGen
