import LoadGen.Measure.Report
import LoadGen.Proofs.Merging
import Mathlib.Data.List.Nodup

namespace LoadGen

namespace Dict
variable {α : Type} {d : Dict α}

def Sorted (d : Dict α) : Prop := d.entries.Pairwise (·.1 < ·.1)

theorem sorted_iff : d.Sorted ↔ d.keys.Pairwise (· < ·) := List.pairwise_map.symm

theorem sorted_empty : (empty : Dict α).Sorted := List.Pairwise.nil

theorem Sorted.nodup (h : d.Sorted) : d.keys.Nodup := by
  refine List.pairwise_map.mpr (h.imp fun hlt he => ?_)
  rw [he] at hlt
  exact String.lt_irrefl _ hlt

theorem Sorted.insert (h : d.Sorted) (key : String) (a : α) : (d.insert key a).Sorted := by
  obtain ⟨l⟩ := d
  simp only [Sorted, Dict.insert] at h ⊢
  induction l with
  | nil => exact List.pairwise_singleton ..
  | cons p rest ih =>
    obtain ⟨k, b⟩ := p
    obtain ⟨first, later⟩ := List.pairwise_cons.mp h
    simp only [put]
    split
    · rename_i hlt
      refine List.pairwise_cons.mpr ⟨fun q hq => ?_, h⟩
      rcases List.mem_cons.mp hq with rfl | hq
      · exact hlt
      · exact String.lt_trans hlt (first q hq)
    · split
      · rename_i he
        subst he
        exact List.pairwise_cons.mpr ⟨first, later⟩
      · rename_i hnlt hne
        have after : k < key := by
          apply Decidable.not_not.mp
          intro hn
          exact hne (String.le_antisymm (String.not_lt.mp hn) (String.not_lt.mp hnlt))
        refine List.pairwise_cons.mpr ⟨fun q hq => ?_, ih later⟩
        rcases mem_entries_insert (d := ⟨rest⟩) hq with rfl | hq
        · exact after
        · exact first q hq

theorem sorted_ofList (pairs : List (String × α)) : (ofList pairs).Sorted := by
  have whole : ∀ d : Dict α, d.Sorted → (pairs.foldl (fun d p => d.insert p.1 p.2) d).Sorted := by
    induction pairs with
    | nil => exact fun _ h => h
    | cons p rest ih => exact fun d h => ih _ (h.insert ..)
  exact whole .empty sorted_empty

end Dict

namespace Report

/-- What has been gathered for a phase and a metric. -/
def bucketOf (d : Dict (Dict Bucket)) (phase metric : String) : Option Bucket :=
  (d.get? phase).bind (·.get? metric)

/-- The buckets of the snapshots of a phase and a metric, in order. -/
def bucketsOf (snaps : List Snapshot) (phase metric : String) : List Bucket :=
  (snaps.filter fun s => (s.phase, s.metric) = (phase, metric)).map (·.bucket)

theorem bucketsOf_ne_nil {snaps : List Snapshot} {phase metric : String} :
    bucketsOf snaps phase metric ≠ [] ↔ ∃ s ∈ snaps, s.phase = phase ∧ s.metric = metric := by
  simp [bucketsOf]

/-- The phases are in order, and so are the metrics of each phase. -/
structure Tidy (d : Dict (Dict Bucket)) : Prop where
  phases : d.Sorted
  metrics : ∀ p ∈ d.entries, p.2.Sorted

/-- What has been gathered from some snapshots. -/
structure Gathered (snaps : List Snapshot) (d : Dict (Dict Bucket)) : Prop where
  tidy : Tidy d
  buckets : ∀ phase metric,
    Bucket.mergeAll (bucketsOf snaps phase metric) = .ok (bucketOf d phase metric)

/-- The metrics for which the report has a row of the phase, row by row. -/
def metricsOf (r : Report) (phase : String) : List String :=
  (r.rows.filter (·.phase = phase)).map (·.metric)

section Gather
variable {d d' : Dict (Dict Bucket)} {s : Snapshot} {snaps : List Snapshot} {phase metric : String}

/-- The bucket of a snapshot is merged into the one of its phase and metric. -/
theorem gather_eq_ok : gather d s = .ok d' ↔ ∃ c,
    (bucketOf d s.phase s.metric).elim (.ok s.bucket) (·.merge s.bucket) = .ok c ∧
      d' = d.insert s.phase (((d.get? s.phase).getD .empty).insert s.metric c) := by
  have before : bucketOf d s.phase s.metric = ((d.get? s.phase).getD .empty).get? s.metric := by
    rw [bucketOf]
    cases d.get? s.phase <;> rfl
  rw [before, gather]
  cases ((d.get? s.phase).getD .empty).get? s.metric <;>
    simp only [bind_eq_ok, pure, Except.pure, Except.ok.injEq, Option.elim, eq_comm (a := d')]

theorem Tidy.gather (h : Tidy d) (hg : gather d s = .ok d') : Tidy d' := by
  obtain ⟨c, _, rfl⟩ := gather_eq_ok.mp hg
  refine ⟨h.phases.insert .., fun p hp => ?_⟩
  rcases Dict.mem_entries_insert hp with rfl | hp
  · apply Dict.Sorted.insert
    cases hm : d.get? s.phase with
    | none => exact Dict.sorted_empty
    | some metrics => exact h.metrics _ (Dict.mem_entries_of_get? hm)
  · exact h.metrics p hp

theorem bucketOf_insert (c : Bucket) :
    bucketOf (d.insert s.phase (((d.get? s.phase).getD .empty).insert s.metric c)) phase metric =
      if s.phase = phase ∧ s.metric = metric then some c else bucketOf d phase metric := by
  by_cases hp : phase = s.phase
  · subst hp
    rw [bucketOf, Dict.get?_insert_self, Option.bind_some]
    by_cases hm : metric = s.metric
    · subst hm
      simp
    · rw [Dict.get?_insert_of_ne hm, if_neg fun h => hm h.2.symm, bucketOf]
      cases d.get? s.phase <;> rfl
  · rw [bucketOf, Dict.get?_insert_of_ne hp, if_neg fun h => hp h.1.symm, bucketOf]

/-- The buckets that are still to be merged into what was gathered for a phase and a metric. -/
def pending (d : Dict (Dict Bucket)) (snaps : List Snapshot) (phase metric : String) : List Bucket :=
  (bucketOf d phase metric).toList ++ bucketsOf snaps phase metric

/-- Gathering a snapshot leaves the same to be merged, if it is the first of them. -/
theorem mergeAll_pending (hg : gather d s = .ok d') (phase metric : String) :
    Bucket.mergeAll (pending d (s :: snaps) phase metric) =
      Bucket.mergeAll (pending d' snaps phase metric) := by
  obtain ⟨c, hc, rfl⟩ := gather_eq_ok.mp hg
  rw [pending, pending, bucketOf_insert]
  by_cases he : s.phase = phase ∧ s.metric = metric
  · obtain ⟨rfl, rfl⟩ := he
    have own : bucketsOf (s :: snaps) s.phase s.metric =
        s.bucket :: bucketsOf snaps s.phase s.metric := by
      simp [bucketsOf]
    rw [own, if_pos ⟨rfl, rfl⟩]
    cases hb : bucketOf d s.phase s.metric with
    | none =>
      rw [hb] at hc
      cases hc
      rfl
    | some b =>
      rw [hb] at hc
      exact Bucket.mergeAll_cons_cons hc
  · rw [if_neg he]
    simp [bucketsOf, he]

theorem gathered_of_foldlM {d : Dict (Dict Bucket)} (h : snaps.foldlM gather .empty = .ok d) :
    Gathered snaps d := by
  have whole : ∀ d₀, Tidy d₀ → snaps.foldlM gather d₀ = .ok d → Tidy d ∧ ∀ phase metric,
      Bucket.mergeAll (pending d₀ snaps phase metric) = .ok (bucketOf d phase metric) := by
    clear h
    induction snaps with
    | nil =>
      intro d₀ tidy h
      cases h
      refine ⟨tidy, fun phase metric => ?_⟩
      rw [pending]
      cases bucketOf d phase metric <;> rfl
    | cons s rest ih =>
      intro d₀ tidy h
      obtain ⟨q, hg, h⟩ := bind_eq_ok.mp h
      obtain ⟨tidy, merged⟩ := ih q (tidy.gather hg) h
      exact ⟨tidy, fun phase metric => (mergeAll_pending hg phase metric).trans (merged phase metric)⟩
  obtain ⟨tidy, merged⟩ := whole .empty ⟨Dict.sorted_empty, fun _ hp => by cases hp⟩ h
  exact ⟨tidy, merged⟩

/-- Snapshots can be gathered if the buckets of each phase and metric can be merged. -/
theorem foldlM_gather (h : ∀ phase metric, ∃ o, Bucket.mergeAll (bucketsOf snaps phase metric) = .ok o) :
    ∃ d, snaps.foldlM gather .empty = .ok d := by
  have whole : ∀ d₀, (∀ phase metric, ∃ o,
      Bucket.mergeAll (pending d₀ snaps phase metric) = .ok o) →
        ∃ d, snaps.foldlM gather d₀ = .ok d := by
    clear h
    induction snaps with
    | nil => exact fun d₀ _ => ⟨d₀, rfl⟩
    | cons s rest ih =>
      intro d₀ h
      obtain ⟨q, hg⟩ : ∃ q, gather d₀ s = .ok q := by
        obtain ⟨o, ho⟩ := h s.phase s.metric
        have own : bucketsOf (s :: rest) s.phase s.metric =
            s.bucket :: bucketsOf rest s.phase s.metric := by
          simp [bucketsOf]
        rw [pending, own] at ho
        cases hb : bucketOf d₀ s.phase s.metric with
        | none => exact ⟨_, gather_eq_ok.mpr ⟨s.bucket, by rw [hb]; rfl, rfl⟩⟩
        | some b =>
          rw [hb] at ho
          obtain ⟨_, _, folded⟩ := Bucket.mergeAll_cons_eq_ok.mp ho
          obtain ⟨c, hc, _⟩ := bind_eq_ok.mp folded
          exact ⟨_, gather_eq_ok.mpr ⟨c, by rw [hb]; exact hc, rfl⟩⟩
      obtain ⟨d, hd⟩ := ih q fun phase metric => by
        rw [← mergeAll_pending hg phase metric]
        exact h phase metric
      exact ⟨d, by rw [List.foldlM_cons, hg]; exact hd⟩
  exact whole .empty h

end Gather

/-- The blocked times of a phase and a metric do not overflow together. -/
structure Fits (snaps : List Snapshot) (phase metric : String) : Prop where
  total : ((bucketsOf snaps phase metric).map (·.total.blocked)).sum ≤ Text.maxWord
  recent : ((bucketsOf snaps phase metric).map (·.recent.blocked)).sum ≤ Text.maxWord

section Rows
variable {snaps : List Snapshot} {report : Report}

theorem gathered_of_ofSnapshots (h : ofSnapshots snaps = .ok report) :
    ∃ d, Gathered snaps d ∧ report = ofBuckets d := by
  obtain ⟨d, hd, he⟩ := bind_eq_ok.mp h
  exact ⟨d, gathered_of_foldlM hd, (Except.ok.inj he).symm⟩

/-- There is a report unless the blocked times of some phase and metric overflow. -/
theorem ofSnapshots_isOk : (∃ report, ofSnapshots snaps = .ok report) ↔
    ∀ phase metric, ∃ o, Bucket.mergeAll (bucketsOf snaps phase metric) = .ok o := by
  constructor
  · rintro ⟨report, h⟩ phase metric
    obtain ⟨d, gathered, _⟩ := gathered_of_ofSnapshots h
    exact ⟨_, gathered.buckets phase metric⟩
  · intro h
    obtain ⟨d, hd⟩ := foldlM_gather h
    exact ⟨ofBuckets d, by rw [ofSnapshots, hd]; rfl⟩

theorem mem_rows (h : ofSnapshots snaps = .ok report) {row : Row} : row ∈ report.rows ↔
    ∃ c, Bucket.mergeAll (bucketsOf snaps row.phase row.metric) = .ok (some c) ∧
      row.summary = c.summary := by
  obtain ⟨d, ⟨tidy, buckets⟩, rfl⟩ := gathered_of_ofSnapshots h
  simp only [ofBuckets, List.mem_flatMap, List.mem_map, buckets, Except.ok.injEq, bucketOf,
    Option.bind_eq_some_iff]
  constructor
  · rintro ⟨⟨phase, metrics⟩, hp, ⟨metric, c⟩, hc, rfl⟩
    exact ⟨c, ⟨metrics, Dict.get?_of_mem_entries tidy.phases.nodup hp,
      Dict.get?_of_mem_entries (tidy.metrics _ hp).nodup hc⟩, rfl⟩
  · rintro ⟨c, ⟨metrics, hm, hc⟩, he⟩
    refine ⟨_, Dict.mem_entries_of_get? hm, _, Dict.mem_entries_of_get? hc, ?_⟩
    rw [← he]

/-- There is a row for each phase and metric that there is a snapshot of. -/
theorem exists_row (h : ofSnapshots snaps = .ok report) {phase metric : String} :
    (∃ row ∈ report.rows, row.phase = phase ∧ row.metric = metric) ↔
      ∃ s ∈ snaps, s.phase = phase ∧ s.metric = metric := by
  obtain ⟨d, gathered, _⟩ := gathered_of_ofSnapshots h
  have merged := gathered.buckets phase metric
  rw [← bucketsOf_ne_nil, ← Bucket.mergeAll_isSome merged]
  constructor
  · rintro ⟨row, hr, rfl, rfl⟩
    obtain ⟨c, hc, _⟩ := (mem_rows h).mp hr
    rw [merged] at hc
    rw [Except.ok.inj hc]
    rfl
  · intro held
    obtain ⟨c, hc⟩ := Option.isSome_iff_exists.mp held
    exact ⟨⟨phase, metric, c.summary⟩, (mem_rows h).mpr ⟨c, by rw [merged, hc], rfl⟩, rfl, rfl⟩

theorem rows_apart (h : ofSnapshots snaps = .ok report) : report.rows.Pairwise fun a b =>
    ¬ (a.phase = b.phase ∧ a.metric = b.metric) := by
  obtain ⟨d, ⟨tidy, _⟩, rfl⟩ := gathered_of_ofSnapshots h
  have names : ((ofBuckets d).rows.map fun row => (row.phase, row.metric)).Nodup := by
    rw [ofBuckets, List.map_flatMap]
    simp only [List.map_map]
    refine List.nodup_flatMap.mpr ⟨fun p hp => ?_, ?_⟩
    · have once := (tidy.metrics p hp).nodup
      have pairs := once.map (f := fun metric => (p.1, metric)) fun _ _ h => (Prod.mk.inj h).2
      rwa [Dict.keys, List.map_map] at pairs
    · refine (List.pairwise_map.mp tidy.phases.nodup).imp fun hne => ?_
      intro q hq hq'
      obtain ⟨_, _, rfl⟩ := List.mem_map.mp hq
      obtain ⟨_, _, he⟩ := List.mem_map.mp hq'
      exact hne (Prod.mk.inj he).1.symm
  exact (List.pairwise_map.mp names).imp fun hne he => hne (Prod.ext he.1 he.2)

theorem metricsOf_nodup (h : ofSnapshots snaps = .ok report) (phase : String) :
    (report.metricsOf phase).Nodup := by
  refine List.pairwise_map.mpr (((rows_apart h).filter _).imp_of_mem fun ha hb hne he => ?_)
  have hp := (List.mem_filter.mp ha).2
  have hq := (List.mem_filter.mp hb).2
  exact hne ⟨(of_decide_eq_true hp).trans (of_decide_eq_true hq).symm, he⟩

theorem mem_metricsOf (h : ofSnapshots snaps = .ok report) {phase metric : String} :
    metric ∈ report.metricsOf phase ↔ ∃ s ∈ snaps, s.phase = phase ∧ s.metric = metric := by
  rw [← exists_row h, metricsOf]
  simp [and_assoc]

/-- If all buckets of a phase have the same interval, its rows have that interval. -/
theorem interval_of_rows (hr : ofSnapshots snaps = .ok report) {phase : String} {start stop : Nat}
    (h : ∀ s ∈ snaps, s.phase = phase → s.bucket.start = start ∧ s.bucket.stop = some stop) :
    ∀ row ∈ report.rows, row.phase = phase →
      row.summary.start = start ∧ row.summary.stop = some stop := by
  intro row hm hp
  obtain ⟨c, hc, he⟩ := (mem_rows hr).mp hm
  rw [he]
  refine Bucket.mergeAll_of_forall (P := fun c => c.start = start ∧ c.stop = some stop)
    (fun b c d hb hc hd => ?_) (fun b hb => ?_) hc
  · obtain ⟨_, _, rfl⟩ := Bucket.merge_eq_ok.mp hd
    simp [hb, hc, Bucket.laterStop]
  · obtain ⟨s, hs, rfl⟩ := List.mem_map.mp hb
    obtain ⟨hs, names⟩ := List.mem_filter.mp hs
    exact h s hs ((Prod.mk.inj (of_decide_eq_true names)).1.trans hp)

end Rows

end Report
end LoadGen
