import LoadGen.Proofs.Merging

namespace LoadGen

section Bins
variable {u v : Nat}

theorem binWidth_pos (v : Nat) : 0 < binWidth v := by
  unfold binWidth
  split
  · exact Nat.one_pos
  · exact Nat.two_pow_pos _

theorem binLow_le (v : Nat) : binLow v ≤ v := Nat.div_mul_le_self v (binWidth v)

theorem le_binHigh (v : Nat) : v ≤ binHigh v := by
  have within : v < binLow v + binWidth v := by
    rw [binLow, ← Nat.succ_mul]
    exact Nat.lt_mul_of_div_lt (Nat.lt_succ_self _) (binWidth_pos v)
  unfold binHigh
  omega

theorem binWidth_of_lt (h : v < 2048) : binWidth v = 1 := if_pos h

/-- From 2048 on, a thousand bins and some lie between two powers of two. -/
theorem two_pow_log2 (h : 2048 ≤ v) : 2 ^ v.log2 = 1024 * binWidth v := by
  have big : 11 ≤ v.log2 := (Nat.le_log2 (by omega)).mpr h
  have width : binWidth v = 2 ^ (v.log2 - 10) := if_neg (by omega)
  rw [width, show (1024 : Nat) = 2 ^ 10 from rfl, ← Nat.pow_add]
  congr 1
  omega

theorem two_pow_le_binLow (h : 2048 ≤ v) : 2 ^ v.log2 ≤ binLow v := by
  have le : 1024 * binWidth v ≤ v := two_pow_log2 h ▸ Nat.log2_self_le (by omega)
  rw [two_pow_log2 h]
  exact Nat.mul_le_mul_right _ ((Nat.le_div_iff_mul_le (binWidth_pos v)).mpr le)

theorem binHigh_lt_two_pow (h : 2048 ≤ v) : binHigh v < 2 ^ (v.log2 + 1) := by
  have lt : v < 2048 * binWidth v := by
    have := Nat.lt_log2_self (n := v)
    rw [Nat.pow_succ, two_pow_log2 h] at this
    omega
  have below : v / binWidth v + 1 ≤ 2048 := (Nat.div_lt_iff_lt_mul (binWidth_pos v)).mpr lt
  have width := binWidth_pos v
  calc binHigh v < (v / binWidth v + 1) * binWidth v := by
        rw [Nat.succ_mul, binHigh, binLow]
        omega
    _ ≤ 2048 * binWidth v := Nat.mul_le_mul_right _ below
    _ = 2 ^ (v.log2 + 1) := by
        rw [Nat.pow_succ, two_pow_log2 h]
        omega

/-- Two values lie in one bin, or the bin of the smaller one ends before that of the other. -/
theorem bins_apart (h : u ≤ v) :
    (binLow u = binLow v ∧ binHigh u = binHigh v) ∨ binHigh u < binLow v := by
  have same : binWidth u = binWidth v →
      (binLow u = binLow v ∧ binHigh u = binHigh v) ∨ binHigh u < binLow v := by
    intro width
    have positive := binWidth_pos v
    rcases Nat.eq_or_lt_of_le (Nat.div_le_div_right (c := binWidth v) h) with he | hlt
    · left
      rw [binHigh, binHigh, binLow, binLow, width, he]
      exact ⟨rfl, rfl⟩
    · right
      have next := Nat.mul_le_mul_right (binWidth v) hlt
      rw [Nat.succ_mul] at next
      rw [binHigh, binLow, binLow, width]
      omega
  by_cases hv : v < 2048
  · exact same (by rw [binWidth_of_lt hv, binWidth_of_lt (Nat.lt_of_le_of_lt h hv)])
  have above := two_pow_le_binLow (Nat.not_lt.mp hv)
  by_cases hu : u < 2048
  · right
    have small : binHigh u = u := by
      rw [binHigh, binLow, binWidth_of_lt hu]
      omega
    have large : 2 ^ 11 ≤ 2 ^ v.log2 :=
      Nat.pow_le_pow_right Nat.two_pos ((Nat.le_log2 (by omega)).mpr (Nat.not_lt.mp hv))
    omega
  · have log : u.log2 ≤ v.log2 :=
      (Nat.le_log2 (by omega)).mpr (Nat.le_trans (Nat.log2_self_le (by omega)) h)
    rcases Nat.eq_or_lt_of_le log with he | hlt
    · exact same (by rw [binWidth, binWidth, if_neg hu, if_neg hv, he])
    · right
      exact Nat.lt_of_lt_of_le (binHigh_lt_two_pow (Nat.not_lt.mp hu))
        (Nat.le_trans (Nat.pow_le_pow_right Nat.two_pos hlt) above)

theorem binHigh_mono (h : u ≤ v) : binHigh u ≤ binHigh v := by
  rcases bins_apart h with ⟨_, same⟩ | apart
  · exact Nat.le_of_eq same
  · exact Nat.le_trans (Nat.le_of_lt apart) (Nat.le_trans (binLow_le v) (le_binHigh v))

theorem binHigh_binLow (v : Nat) : binHigh (binLow v) = binHigh v := by
  rcases bins_apart (binLow_le v) with ⟨_, same⟩ | apart
  · exact same
  · exact absurd (Nat.lt_of_le_of_lt (le_binHigh _) apart) (Nat.lt_irrefl _)

end Bins

namespace Histogram
variable {bins : List (Nat × Nat)} {low u v n : Nat}

/-- A time that is longer than an hour and does not count as one: it lies beyond the bin of an hour,
but in a bin still. -/
def Stray (v : Nat) : Prop := binHigh longest < v ∧ v ≤ lastValue

def cutOff (v : Nat) : Nat := if v ≤ longest then v else longest

theorem cutOff_of_le (h : v ≤ longest) : cutOff v = v := if_pos h

theorem cutOff_of_lt (h : longest < v) : cutOff v = longest := if_neg (Nat.not_le.mpr h)

theorem cutOff_le (v : Nat) : cutOff v ≤ longest := by
  unfold cutOff
  split
  · assumption
  · exact Nat.le_refl _

theorem longest_le_lastValue : longest ≤ lastValue := by decide

theorem kept_of_le (h : v ≤ lastValue) : kept v = v := if_neg (Nat.not_lt.mpr h)

theorem kept_of_lt (h : lastValue < v) : kept v = longest := if_pos h

theorem kept_cutOff (v : Nat) : kept (cutOff v) = cutOff v :=
  kept_of_le (Nat.le_trans (cutOff_le v) longest_le_lastValue)

/-- What counts for a time lies in the bin of the time cut off at an hour, except for strays. -/
theorem binLow_kept_iff : binLow (kept v) = binLow (cutOff v) ↔ ¬ Stray v := by
  by_cases last : lastValue < v
  · rw [kept_of_lt last, cutOff_of_lt (Nat.lt_of_le_of_lt longest_le_lastValue last)]
    exact iff_of_true rfl fun stray => Nat.not_lt.mpr stray.2 last
  have last := Nat.not_lt.mp last
  rw [kept_of_le last]
  by_cases short : v ≤ longest
  · rw [cutOff_of_le short]
    exact iff_of_true rfl fun stray =>
      Nat.not_lt.mpr (Nat.le_trans short (le_binHigh longest)) stray.1
  have long := Nat.not_le.mp short
  rw [cutOff_of_lt long]
  rcases bins_apart (Nat.le_of_lt long) with ⟨same, high⟩ | apart
  · exact iff_of_true same.symm fun stray => Nat.not_lt.mpr (le_binHigh v) (high ▸ stray.1)
  · refine iff_of_false (fun same => ?_) (not_not_intro ⟨?_, last⟩)
    · exact absurd (Nat.lt_of_le_of_lt (le_binHigh longest) apart)
        (Nat.not_lt.mpr (same ▸ binLow_le longest))
    · exact Nat.lt_of_lt_of_le apart (binLow_le v)

/-- Cut off at an hour or not, a time lies in one bin, unless it is a stray. -/
theorem record_cutOff (h : Histogram) (hv : ¬ Stray v) : h.record (cutOff v) = h.record v := by
  rw [record, record, kept_cutOff, binLow_kept_iff.mpr hv]

theorem binHigh_cutOff_le (v : Nat) : binHigh (kept (cutOff v)) ≤ binHigh longest := by
  rw [kept_cutOff]
  exact binHigh_mono (cutOff_le v)

theorem lt_binHigh_kept (h : Stray v) : binHigh longest < binHigh (kept v) := by
  rw [kept_of_le h.2]
  exact Nat.lt_of_lt_of_le h.1 (le_binHigh v)

/-- Longer times count for more, unless the shorter one is a stray and the longer one beyond the last
bin. -/
theorem binHigh_kept_le (h : u ≤ v) (hu : Stray u → v ≤ lastValue) :
    binHigh (kept u) ≤ binHigh (kept v) := by
  by_cases last : v ≤ lastValue
  · rw [kept_of_le last, kept_of_le (Nat.le_trans h last)]
    exact binHigh_mono h
  rw [kept_of_lt (Nat.not_le.mp last)]
  have home : ¬ Stray u := fun stray => last (hu stray)
  calc binHigh (kept u) = binHigh (binLow (kept u)) := (binHigh_binLow _).symm
    _ = binHigh (cutOff u) := by rw [binLow_kept_iff.mpr home, binHigh_binLow]
    _ ≤ binHigh longest := binHigh_mono (cutOff_le u)

theorem max_cons (c : Nat × Nat) (h : bins ≠ []) : max ⟨c :: bins⟩ = max ⟨bins⟩ := by
  obtain ⟨d, rest, rfl⟩ := List.exists_cons_of_ne_nil h
  rfl

theorem binHigh_le_max (h : Proper bins) : ∀ b ∈ bins, binHigh b.1 ≤ max ⟨bins⟩ := by
  induction bins with
  | nil => exact fun _ hb => absurd hb List.not_mem_nil
  | cons c rest ih =>
    obtain ⟨first, later⟩ := List.pairwise_cons.mp h.increasing
    have tail := ih ⟨later, fun b hb => h.filled b (List.mem_cons_of_mem _ hb)⟩
    intro b hb
    rcases List.mem_cons.mp hb with rfl | hb
    · cases rest with
      | nil => exact Nat.le_refl _
      | cons d rest =>
        rw [max_cons b (List.cons_ne_nil d rest)]
        exact Nat.le_trans (binHigh_mono (Nat.le_of_lt (first d List.mem_cons_self)))
          (tail d List.mem_cons_self)
    · rw [max_cons c (List.ne_nil_of_mem hb)]
      exact tail b hb

/-- The largest time is the end of the last bin, which is the largest end of all. -/
theorem max_le_iff (h : Proper bins) : max ⟨bins⟩ ≤ n ↔ ∀ b ∈ bins, binHigh b.1 ≤ n := by
  refine ⟨fun hle b hb => Nat.le_trans (binHigh_le_max h b hb) hle, fun hle => ?_⟩
  rcases List.eq_nil_or_concat bins with rfl | ⟨rest, b, rfl⟩
  · exact Nat.zero_le n
  · have last : max ⟨rest.concat b⟩ = binHigh b.1 := by simp [max]
    rw [last]
    exact hle b (by simp)

theorem exists_mem_addBin (low count : Nat) (bins : List (Nat × Nat)) {l : Nat} :
    (∃ b ∈ addBin low count bins, b.1 = l) ↔ l = low ∨ ∃ b ∈ bins, b.1 = l := by
  induction bins with
  | nil => simp [addBin, eq_comm]
  | cons c rest ih =>
    obtain ⟨m, k⟩ := c
    simp only [addBin]
    split
    · simp [eq_comm]
    · split
      · rename_i he
        subst he
        simp [eq_comm]
      · simp only [List.exists_mem_cons_iff, ih]
        exact or_left_comm

/-- The largest time is as large as what was there before or what counts for the new one. -/
theorem max_record_le_iff {h : Histogram} (proper : Proper h.bins) :
    (h.record v).max ≤ n ↔ h.max ≤ n ∧ binHigh (kept v) ≤ n := by
  have ends : ∀ bins : List (Nat × Nat),
      (∀ b ∈ bins, binHigh b.1 ≤ n) ↔ ∀ l, (∃ b ∈ bins, b.1 = l) → binHigh l ≤ n := by
    intro bins
    exact ⟨fun all l ⟨b, hb, he⟩ => he ▸ all b hb, fun all b hb => all b.1 ⟨b, hb, rfl⟩⟩
  have old : h.max ≤ n ↔ _ := max_le_iff proper
  have new : (h.record v).max ≤ n ↔ _ :=
    max_le_iff (proper.addBin Nat.one_pos (binLow (kept v)))
  rw [old, new, ends, ends, ← binHigh_binLow (kept v)]
  simp only [exists_mem_addBin, forall_eq_or_imp]
  exact And.comm

end Histogram

/-- An hour, to which longer response times are meant to be cut off. -/
def hour : Duration := ⟨Histogram.longest⟩

/-- The event with its response time cut off at an hour. -/
def Event.cutOff : Event → Event
  | .response blocked time valid => .response blocked (time.min hour) valid
  | e => e

def Event.time? : Event → Option Duration
  | .response _ time _ => some time
  | _ => none

/-- A response time that counts as longer than an hour. -/
def Duration.Stray (d : Duration) : Prop := Histogram.Stray (Window.word d)

namespace Window
variable {w : Window} {e : Event} {n : Nat}

theorem word_min_hour (d : Duration) : word (d.min hour) = Histogram.cutOff (word d) := by
  have limit : Histogram.longest ≤ Text.maxWord := by decide
  have cut : word (d.min hour) = min (min d.nanos Histogram.longest) Text.maxWord := rfl
  have whole : word d = min d.nanos Text.maxWord := rfl
  rw [cut, whole, Histogram.cutOff]
  split <;> omega

theorem add_cutOff (w : Window) (he : ∀ d ∈ e.time?, ¬ d.Stray) : w.add e.cutOff = w.add e := by
  cases e with
  | response blocked time valid =>
    have same := w.histogram.record_cutOff (he time rfl)
    simp only [Event.cutOff, add, word_min_hour, same]
  | _ => rfl

theorem max_add_le_iff (proper : Histogram.Proper w.histogram.bins) :
    (w.add e).histogram.max ≤ n ↔ w.histogram.max ≤ n ∧
      ∀ d ∈ e.time?, binHigh (Histogram.kept (word d)) ≤ n := by
  cases e with
  | response blocked time valid =>
    simp only [Event.time?, Option.mem_some_iff, forall_eq']
    exact Histogram.max_record_le_iff proper
  | _ => simp [Event.time?, add]

end Window

namespace Bucket

/-- The use with its response time cut off at an hour. -/
def Use.cutOff : Use → Use
  | .record request stamp e => .record request stamp e.cutOff
  | u => u

def Use.time? : Use → Option Duration
  | .record _ _ e => e.time?
  | _ => none

namespace Life

/-- The same life with all response times cut off at an hour. -/
def cutOff (l : Life) : Life := ⟨l.opened, l.uses.map Use.cutOff⟩

def times (l : Life) : List Duration := l.uses.filterMap Use.time?

end Life

theorem use_cutOff {c c' : Chronicle} {u : Use} (hu : ∀ d ∈ u.time?, ¬ d.Stray)
    (bucket : c'.bucket = c.bucket) (closed : c'.closed = c.closed) :
    (c'.use u.cutOff).bucket = (c.use u).bucket ∧
      (c'.use u.cutOff).closed = (c.use u).closed := by
  cases u with
  | record request stamp e =>
    have same : ∀ w : Window, w.add e.cutOff = w.add e := fun w => w.add_cutOff hu
    simp only [Use.cutOff, Chronicle.use, bucket, closed, Bucket.record, same]
    exact ⟨trivial, trivial⟩
  | _ => simp only [Use.cutOff, Chronicle.use, bucket, closed, and_self]

theorem forall_times_snoc {us : List Use} {u : Use} {p : Duration → Prop} :
    (∀ d ∈ (us ++ [u]).filterMap Use.time?, p d) ↔
      (∀ d ∈ us.filterMap Use.time?, p d) ∧ ∀ d ∈ u.time?, p d := by
  rw [List.filterMap_append, List.forall_mem_append]
  cases hu : u.time? <;> simp [hu]

/-- A bucket in which no stray is recorded does not tell whether its times were cut off. -/
theorem Life.chronicle_cutOff {l : Life} (h : ∀ d ∈ l.times, ¬ d.Stray) :
    l.cutOff.bucket = l.bucket ∧ l.cutOff.chronicle.closed = l.chronicle.closed := by
  refine l.induction (motive := fun us c => (∀ d ∈ us.filterMap Use.time?, ¬ d.Stray) →
    ((us.map Use.cutOff).foldl Chronicle.use (.opened l.opened)).bucket = c.bucket ∧
    ((us.map Use.cutOff).foldl Chronicle.use (.opened l.opened)).closed = c.closed)
    (fun _ => ⟨rfl, rfl⟩) (fun us c u _ same none => ?_) h
  obtain ⟨before, last⟩ := forall_times_snoc.mp none
  obtain ⟨bucket, closed⟩ := same before
  rw [List.map_append, List.foldl_append]
  exact use_cutOff last bucket closed

/-- The largest time of a bucket is the largest of those that count for the recorded ones. -/
theorem Life.max_le_iff (l : Life) {n : Nat} : l.bucket.summary.max ≤ n ↔
    ∀ d ∈ l.times, binHigh (Histogram.kept (Window.word d)) ≤ n := by
  refine l.induction (motive := fun us c => c.bucket.summary.max ≤ n ↔
    ∀ d ∈ us.filterMap Use.time?, binHigh (Histogram.kept (Window.word d)) ≤ n)
    (iff_of_true (Nat.zero_le n) fun _ hd => absurd hd List.not_mem_nil) fun us c u kept ih => ?_
  rw [forall_times_snoc, ← ih]
  cases u with
  | record request stamp e => exact Window.max_add_le_iff kept.sound.total
  | begin now =>
    have same : (c.bucket.begin now).total.histogram = c.bucket.total.histogram := by
      unfold Bucket.begin
      split <;> rfl
    simp [Chronicle.use, Use.time?, Bucket.summary, Window.summary, same]
  | finish now => simp [Chronicle.use, Use.time?, Bucket.summary, Window.summary, Bucket.finish]
  | close now => simp [Chronicle.use, Use.time?, Bucket.summary, Window.summary, takeRecent]

theorem Life.times_cutOff (l : Life) : l.cutOff.times = l.times.map (·.min hour) := by
  have cut : ∀ u : Use, u.cutOff.time? = u.time?.map (·.min hour) := by
    intro u
    cases u with
    | record request stamp e => cases e <;> rfl
    | _ => rfl
  rw [times, cutOff, List.filterMap_map, times, List.map_filterMap]
  exact congrArg (List.filterMap · l.uses) (funext cut)

theorem Life.max_cutOff_le (l : Life) :
    l.cutOff.bucket.summary.max ≤ binHigh Histogram.longest := by
  refine l.cutOff.max_le_iff.mpr fun d hd => ?_
  rw [l.times_cutOff] at hd
  obtain ⟨d, _, rfl⟩ := List.mem_map.mp hd
  rw [Window.word_min_hour]
  exact Histogram.binHigh_cutOff_le _

theorem Life.lt_max_of_stray (l : Life) {d : Duration} (hd : d ∈ l.times) (stray : d.Stray) :
    binHigh Histogram.longest < l.bucket.summary.max :=
  Nat.lt_of_lt_of_le (Histogram.lt_binHigh_kept stray) (l.max_le_iff.mp (Nat.le_refl _) d hd)

/-- A bucket shows the same whether its response times are cut off at an hour or not, exactly if none
of them is a stray. Then all of the bucket is the same, also its open window and those it has closed;
otherwise the longest time differs. And a longer response does not make the longest time smaller than
a shorter one does, unless the shorter one is a stray and the longer one lies beyond the last bin. -/
theorem hour_cuts_off (l : Life) :
    (l.cutOff.bucket.summary = l.bucket.summary ↔ ∀ d ∈ l.times, ¬ d.Stray) ∧
    ((∀ d ∈ l.times, ¬ d.Stray) →
      l.cutOff.bucket = l.bucket ∧ l.cutOff.chronicle.closed = l.chronicle.closed) ∧
    ((∃ d ∈ l.times, d.Stray) → l.cutOff.bucket.summary.max < l.bucket.summary.max) ∧
    ∀ (stamp : Nat) (blocked d d' : Duration) (valid : Bool), d.nanos ≤ d'.nanos →
      (d.Stray → Window.word d' ≤ Histogram.lastValue) →
        (l.bucket.record stamp (.response blocked d valid)).summary.max ≤
          (l.bucket.record stamp (.response blocked d' valid)).summary.max := by
  have larger : (∃ d ∈ l.times, d.Stray) →
      l.cutOff.bucket.summary.max < l.bucket.summary.max := fun ⟨d, hd, stray⟩ =>
    Nat.lt_of_le_of_lt l.max_cutOff_le (l.lt_max_of_stray hd stray)
  refine ⟨⟨fun same d hd stray => ?strays, fun none => ?none⟩, Life.chronicle_cutOff, larger, ?_⟩
  case strays =>
    have less := larger ⟨d, hd, stray⟩
    rw [same] at less
    exact Nat.lt_irrefl _ less
  case none => rw [(Life.chronicle_cutOff none).1]
  intro stamp blocked d d' valid hle hd
  have proper := l.kept.sound.total
  have words : Window.word d ≤ Window.word d' := by
    unfold Window.word
    omega
  obtain ⟨old, new⟩ := (Window.max_add_le_iff (e := .response blocked d' valid) proper).mp
    (Nat.le_refl _)
  refine (Window.max_add_le_iff proper).mpr ⟨old, fun t ht => ?_⟩
  cases ht
  exact Nat.le_trans (Histogram.binHigh_kept_le words hd) (new d' rfl)

/-- Response times around an hour: just below, just above in the same bin, and two hours. -/
def longResponses : Life := ⟨1000, [.record 0 1000 (.response .zero (.ofSeconds 3599) true),
  .record 1 1000 (.response .zero (.ofSeconds 3601) true), .close 1500,
  .record 2 1500 (.response .zero (.ofSeconds 7200) true)]⟩

theorem long_responses_cut_off : longResponses.cutOff.bucket.summary = longResponses.bucket.summary ∧
    longResponses.cutOff.chronicle.closed = longResponses.chronicle.closed ∧
    longResponses.bucket.summary.max = 3601330077695 := by
  have none : ∀ d ∈ longResponses.times, ¬ d.Stray := by
    unfold Duration.Stray Histogram.Stray
    decide
  obtain ⟨same, whole, _⟩ := hour_cuts_off longResponses
  exact ⟨same.mpr none, (whole none).2, by decide⟩

/-- A response of 4000 seconds is kept as it is, and one of 5000 seconds makes the longest time
smaller than that. -/
theorem stray_not_cut_off :
    let stray : Life := ⟨1000, [.record 0 1000 (.response .zero (.ofSeconds 4000) true)]⟩
    let slower : Life := ⟨1000, [.record 0 1000 (.response .zero (.ofSeconds 5000) true)]⟩
    stray.cutOff.bucket.summary.max < stray.bucket.summary.max ∧
      slower.bucket.summary.max < stray.bucket.summary.max := by
  decide

end Bucket
end LoadGen
