import LoadGen.Proofs.Windows
import Mathlib.Algebra.Order.BigOperators.Group.List
import Mathlib.Algebra.Order.Group.Nat

namespace LoadGen

namespace Histogram
variable {bins bins' : List (Nat × Nat)}

/-- The bins increase, and none of them is empty. -/
structure Proper (bins : List (Nat × Nat)) : Prop where
  increasing : bins.Pairwise (·.1 < ·.1)
  filled : ∀ b ∈ bins, 0 < b.2

theorem proper_nil : Proper [] := ⟨List.Pairwise.nil, fun _ hb => absurd hb List.not_mem_nil⟩

theorem mem_addBin {low n : Nat} {b : Nat × Nat} (h : b ∈ addBin low n bins) :
    (b.1 = low ∧ n ≤ b.2) ∨ b ∈ bins := by
  induction bins with
  | nil =>
    rw [List.mem_singleton.mp h]
    exact .inl ⟨rfl, Nat.le_refl n⟩
  | cons c rest ih =>
    obtain ⟨l, k⟩ := c
    simp only [addBin] at h
    split at h
    · rcases List.mem_cons.mp h with rfl | h
      · exact .inl ⟨rfl, Nat.le_refl n⟩
      · exact .inr h
    · split at h
      · rename_i he
        rcases List.mem_cons.mp h with rfl | h
        · exact .inl ⟨he.symm, Nat.le_add_left n k⟩
        · exact .inr (List.mem_cons_of_mem _ h)
      · rcases List.mem_cons.mp h with rfl | h
        · exact .inr List.mem_cons_self
        · exact (ih h).imp_right (List.mem_cons_of_mem _)

theorem Proper.addBin (h : Proper bins) {n : Nat} (hn : 0 < n) (low : Nat) :
    Proper (addBin low n bins) := by
  refine ⟨?increasing, fun b hb => ?filled⟩
  case filled =>
    rcases mem_addBin hb with ⟨_, hle⟩ | hb
    · omega
    · exact h.filled b hb
  case increasing =>
    have increasing := h.increasing
    clear h
    induction bins with
    | nil => exact List.pairwise_singleton ..
    | cons c rest ih =>
      obtain ⟨l, k⟩ := c
      obtain ⟨first, later⟩ := List.pairwise_cons.mp increasing
      simp only [Histogram.addBin]
      split
      · rename_i hlt
        refine List.pairwise_cons.mpr ⟨fun b hb => ?_, increasing⟩
        rcases List.mem_cons.mp hb with rfl | hb
        · exact hlt
        · exact Nat.lt_trans hlt (first b hb)
      · split
        · exact List.pairwise_cons.mpr ⟨first, later⟩
        · refine List.pairwise_cons.mpr ⟨fun b hb => ?_, ih later⟩
          rcases mem_addBin hb with ⟨he, _⟩ | hb
          · change l < b.1
            omega
          · exact first b hb

theorem Proper.foldl_addBin (h : Proper bins) (h' : Proper bins') :
    Proper (bins'.foldl (fun bins (low, n) => Histogram.addBin low n bins) bins) := by
  induction bins' generalizing bins with
  | nil => exact h
  | cons c rest ih =>
    have rest' : Proper rest := ⟨(List.pairwise_cons.mp h'.increasing).2,
      fun b hb => h'.filled b (List.mem_cons_of_mem _ hb)⟩
    exact ih (h.addBin (h'.filled c List.mem_cons_self) c.1) rest'

theorem countAt_foldl_addBin (low : Nat) (bins bins' : List (Nat × Nat)) :
    countAt low (bins'.foldl (fun bins (low, n) => addBin low n bins) bins) =
      countAt low bins + countAt low bins' := by
  induction bins' generalizing bins with
  | nil => rfl
  | cons c rest ih =>
    rw [List.foldl_cons, ih, countAt_addBin, Nat.add_assoc]
    rfl

theorem countAt_below {low : Nat} (h : ∀ b ∈ bins, low < b.1) : countAt low bins = 0 := by
  induction bins with
  | nil => rfl
  | cons c rest ih =>
    have above : c.1 ≠ low := Nat.ne_of_gt (h c List.mem_cons_self)
    simp only [countAt, if_neg above, Nat.zero_add]
    exact ih fun b hb => h b (List.mem_cons_of_mem _ hb)

theorem Proper.countAt_first {c : Nat × Nat} (h : Proper (c :: bins)) :
    countAt c.1 (c :: bins) = c.2 := by
  rw [countAt, if_pos rfl, countAt_below (List.pairwise_cons.mp h.increasing).1, Nat.add_zero]

/-- No count is lost to a bin that is not there: of two lists of bins with the same counts, neither
begins before the other. -/
theorem Proper.first_le {c d : Nat × Nat} (h : Proper (c :: bins)) (h' : Proper (d :: bins'))
    (counts : ∀ low, countAt low (c :: bins) = countAt low (d :: bins')) : d.1 ≤ c.1 := by
  refine Nat.not_lt.mp fun hlt => ?_
  have absent : countAt c.1 (d :: bins') = 0 := by
    refine countAt_below fun b hb => ?_
    rcases List.mem_cons.mp hb with rfl | hb
    · exact hlt
    · exact Nat.lt_trans hlt ((List.pairwise_cons.mp h'.increasing).1 b hb)
  have there := h.filled c List.mem_cons_self
  rw [← h.countAt_first, counts, absent] at there
  exact Nat.lt_irrefl 0 there

theorem Proper.eq_of_countAt (h : Proper bins) (h' : Proper bins')
    (counts : ∀ low, countAt low bins = countAt low bins') : bins = bins' := by
  have filled : ∀ {c : Nat × Nat} {rest}, Proper (c :: rest) →
      ¬ ∀ low, countAt low (c :: rest) = 0 := by
    intro c rest h none
    have there := h.filled c List.mem_cons_self
    rw [← h.countAt_first, none] at there
    exact Nat.lt_irrefl 0 there
  induction bins generalizing bins' with
  | nil =>
    cases bins' with
    | nil => rfl
    | cons d rest' => exact absurd (fun low => (counts low).symm) (filled h')
  | cons c rest ih =>
    cases bins' with
    | nil => exact absurd counts (filled h)
    | cons d rest' =>
      have low : c.1 = d.1 :=
        Nat.le_antisymm (h'.first_le h fun l => (counts l).symm) (h.first_le h' counts)
      have count : c.2 = d.2 := by
        rw [← h.countAt_first, ← h'.countAt_first, counts, low]
      obtain rfl : c = d := Prod.ext low count
      have tails : ∀ {c : Nat × Nat} {rest}, Proper (c :: rest) → Proper rest := fun h =>
        ⟨(List.pairwise_cons.mp h.increasing).2, fun b hb => h.filled b (List.mem_cons_of_mem _ hb)⟩
      rw [ih (tails h) (tails h') fun l => Nat.add_left_cancel (counts l)]

end Histogram

namespace Window
variable {w w' : Window}

theorem proper_add (h : Histogram.Proper w.histogram.bins) (e : Event) :
    Histogram.Proper (w.add e).histogram.bins := by
  cases e with
  | response blocked time valid => exact h.addBin Nat.one_pos _
  | _ => exact h

theorem merge_eq_ok {x : Window} : w.merge w' = .ok x ↔
    w.blocked + w'.blocked ≤ Text.maxWord ∧ x = w.together w' := by
  unfold merge
  split
  · rename_i fits
    exact ⟨fun h => ⟨fits, (Except.ok.inj h).symm⟩, fun h => congrArg Except.ok h.2.symm⟩
  · rename_i beyond
    exact ⟨nofun, fun h => absurd h.1 beyond⟩

theorem count_together (w w' : Window) (f : Figure) :
    (w.together w').count f = w.count f + w'.count f := by
  cases f with
  | bin low => exact Histogram.countAt_foldl_addBin low w.histogram.bins w'.histogram.bins
  | _ => rfl

/-- Windows with the same counts show the same, whenever they were opened. -/
theorem summary_eq_of_count (h : Histogram.Proper w.histogram.bins)
    (h' : Histogram.Proper w'.histogram.bins) (counts : ∀ f, w.count f = w'.count f)
    (blocked : w.blocked = w'.blocked) (start : Nat) (stop : Option Nat) :
    w.summary start stop = w'.summary start stop := by
  obtain ⟨since, ⟨bins⟩, requests, responses, timeouts, invalid, errors, time⟩ := w
  obtain ⟨since', ⟨bins'⟩, requests', responses', timeouts', invalid', errors', time'⟩ := w'
  obtain rfl : bins = bins' := h.eq_of_countAt h' fun low => counts (.bin low)
  obtain rfl : requests = requests' := counts .requests
  obtain rfl : responses = responses' := counts .responses
  obtain rfl : timeouts = timeouts' := counts .timeouts
  obtain rfl : invalid = invalid' := counts .invalid
  obtain rfl : errors = errors' := counts .connectionErrors
  obtain rfl : time = time' := blocked
  rfl

end Window

namespace Bucket

/-- The interval of some buckets together, from the earliest start to the latest end. It is open as
long as one of them is. -/
structure Spans (bs : List Bucket) (start : Nat) (stop : Option Nat) : Prop where
  first : ∃ b ∈ bs, b.start = start
  least : ∀ b ∈ bs, start ≤ b.start
  ended : stop.isSome ↔ ∀ b ∈ bs, b.stop.isSome
  latest : ∀ n, stop = some n →
    (∃ b ∈ bs, b.stop = some n) ∧ ∀ b ∈ bs, ∀ m, b.stop = some m → m ≤ n

/-- Its histograms are proper, its blocked times make up a word, and no more of them are in the open
window than in all. -/
structure Sound (b : Bucket) : Prop where
  total : Histogram.Proper b.total.histogram.bins
  recent : Histogram.Proper b.recent.histogram.bins
  word : b.total.blocked ≤ Text.maxWord
  within : b.recent.blocked ≤ b.total.blocked

/-- What a bucket has that was merged from others. -/
structure Sums (bs : List Bucket) (c : Bucket) : Prop where
  sound : c.Sound
  counts : ∀ f, c.total.count f = (bs.map (·.total.count f)).sum
  blocked : c.total.blocked = (bs.map (·.total.blocked)).sum
  recent : c.recent.blocked = (bs.map (·.recent.blocked)).sum
  spans : Spans bs c.start c.stop

section Merge
variable {b c d : Bucket}

theorem merge_eq_ok : b.merge c = .ok d ↔
    b.total.blocked + c.total.blocked ≤ Text.maxWord ∧
      b.recent.blocked + c.recent.blocked ≤ Text.maxWord ∧
      d = { start := min b.start c.start
            stop := laterStop b.stop c.stop
            total := b.total.together c.total
            recent := b.recent.together c.recent } := by
  simp only [merge, bind_eq_ok, Window.merge_eq_ok, pure, Except.pure, Except.ok.injEq]
  constructor
  · rintro ⟨_, ⟨total, rfl⟩, _, ⟨recent, rfl⟩, rfl⟩
    exact ⟨total, recent, rfl⟩
  · rintro ⟨total, recent, rfl⟩
    exact ⟨_, ⟨total, rfl⟩, _, ⟨recent, rfl⟩, rfl⟩

theorem merge_isOk (hb : b.Sound) (hc : c.Sound) :
    (∃ d, b.merge c = .ok d) ↔ b.total.blocked + c.total.blocked ≤ Text.maxWord := by
  simp only [merge_eq_ok]
  constructor
  · rintro ⟨_, total, _⟩
    exact total
  · intro total
    exact ⟨_, total, Nat.le_trans (Nat.add_le_add hb.within hc.within) total, rfl⟩

end Merge

/-- Merges buckets into the first one, one after the other. -/
def mergeAll : List Bucket → Except Panic (Option Bucket)
  | [] => .ok none
  | b :: rest => some <$> rest.foldlM merge b

section MergeAll
variable {bs : List Bucket} {b c : Bucket}

theorem mergeAll_cons_eq_ok {o : Option Bucket} :
    mergeAll (b :: bs) = .ok o ↔ ∃ c, o = some c ∧ bs.foldlM merge b = .ok c := by
  rw [mergeAll]
  cases bs.foldlM merge b with
  | error e => exact ⟨nofun, fun h => nomatch h.choose_spec.2⟩
  | ok c =>
    constructor
    · intro h
      exact ⟨c, (Except.ok.inj h).symm, rfl⟩
    · rintro ⟨_, rfl, h⟩
      cases h
      rfl

theorem mergeAll_cons_cons {a : Bucket} (h : a.merge b = .ok c) :
    mergeAll (a :: b :: bs) = mergeAll (c :: bs) := by
  rw [mergeAll, mergeAll, List.foldlM_cons, h]
  rfl

theorem mergeAll_isSome {o : Option Bucket} (h : mergeAll bs = .ok o) : o.isSome ↔ bs ≠ [] := by
  cases bs with
  | nil =>
    cases h
    simp
  | cons b rest =>
    obtain ⟨c, rfl, _⟩ := mergeAll_cons_eq_ok.mp h
    simp

theorem mergeAll_of_forall {P : Bucket → Prop}
    (merge : ∀ b c d, P b → P c → b.merge c = .ok d → P d) (h : ∀ b ∈ bs, P b)
    (hc : mergeAll bs = .ok (some c)) : P c := by
  cases bs with
  | nil => cases hc
  | cons a rest =>
    induction rest generalizing a with
    | nil =>
      cases hc
      exact h _ List.mem_cons_self
    | cons x rest ih =>
      obtain ⟨_, _, folded⟩ := mergeAll_cons_eq_ok.mp hc
      obtain ⟨d, hd, _⟩ := bind_eq_ok.mp folded
      rw [mergeAll_cons_cons hd] at hc
      refine ih d (List.forall_mem_cons.mpr ⟨?_, fun y hy => ?_⟩) hc
      · exact merge a x d (h a List.mem_cons_self) (h x (by simp)) hd
      · exact h y (by simp [hy])

/-- Buckets can be merged if neither their totals nor their open windows overflow together. -/
theorem mergeAll_of_fits (total : (bs.map (·.total.blocked)).sum ≤ Text.maxWord)
    (recent : (bs.map (·.recent.blocked)).sum ≤ Text.maxWord) : ∃ o, mergeAll bs = .ok o := by
  cases bs with
  | nil => exact ⟨none, rfl⟩
  | cons b rest =>
    induction rest generalizing b with
    | nil => exact ⟨some b, rfl⟩
    | cons x rest ih =>
      simp only [List.map_cons, List.sum_cons, ← Nat.add_assoc] at total recent
      have merged := merge_eq_ok.mpr
        ⟨Nat.le_trans (Nat.le_add_right ..) total, Nat.le_trans (Nat.le_add_right ..) recent, rfl⟩
      rw [mergeAll_cons_cons merged]
      exact ih _ total recent

end MergeAll

section Spans
variable {bs bs' : List Bucket} {start start' : Nat} {stop stop' : Option Nat}

theorem spans_singleton (b : Bucket) : Spans [b] b.start b.stop := by
  refine ⟨⟨b, List.mem_singleton_self b, rfl⟩, fun c hc => ?_, ?_, fun n hn => ⟨?_, fun c hc m hm => ?_⟩⟩
  · exact Nat.le_of_eq (congrArg Bucket.start (List.mem_singleton.mp hc).symm)
  · simp
  · exact ⟨b, List.mem_singleton_self b, hn⟩
  · rw [List.mem_singleton.mp hc, hn] at hm
    exact Nat.le_of_eq (Option.some.inj hm).symm

theorem laterStop_eq_some {n : Nat} : laterStop stop stop' = some n ↔
    ∃ a b, stop = some a ∧ stop' = some b ∧ max a b = n := by
  cases stop <;> cases stop' <;> simp [laterStop]

theorem Spans.merge (h : Spans bs start stop) (h' : Spans bs' start' stop') :
    Spans (bs ++ bs') (min start start') (laterStop stop stop') where
  first := by
    obtain ⟨b, hb, rfl⟩ := h.first
    obtain ⟨b', hb', rfl⟩ := h'.first
    rcases Nat.le_total b.start b'.start with hle | hle
    · exact ⟨b, List.mem_append_left _ hb, (Nat.min_eq_left hle).symm⟩
    · exact ⟨b', List.mem_append_right _ hb', (Nat.min_eq_right hle).symm⟩
  least := by
    intro b hb
    rcases List.mem_append.mp hb with hb | hb
    · exact Nat.le_trans (Nat.min_le_left ..) (h.least b hb)
    · exact Nat.le_trans (Nat.min_le_right ..) (h'.least b hb)
  ended := by
    have both : (laterStop stop stop').isSome ↔ stop.isSome ∧ stop'.isSome := by
      cases stop <;> cases stop' <;> simp [laterStop]
    rw [both, h.ended, h'.ended]
    simp [or_imp, forall_and]
  latest := by
    intro n hn
    obtain ⟨a, a', ha, ha', rfl⟩ := laterStop_eq_some.mp hn
    obtain ⟨⟨b, hb, hs⟩, bound⟩ := h.latest a ha
    obtain ⟨⟨b', hb', hs'⟩, bound'⟩ := h'.latest a' ha'
    refine ⟨?_, fun c hc m hm => ?_⟩
    · rcases Nat.le_total a a' with hle | hle
      · exact ⟨b', List.mem_append_right _ hb', by rw [hs', Nat.max_eq_right hle]⟩
      · exact ⟨b, List.mem_append_left _ hb, by rw [hs, Nat.max_eq_left hle]⟩
    · rcases List.mem_append.mp hc with hc | hc
      · exact Nat.le_trans (bound c hc m hm) (Nat.le_max_left ..)
      · exact Nat.le_trans (bound' c hc m hm) (Nat.le_max_right ..)

theorem Spans.perm (h : Spans bs start stop) (hp : bs.Perm bs') : Spans bs' start stop where
  first := by
    obtain ⟨b, hb, hs⟩ := h.first
    exact ⟨b, hp.subset hb, hs⟩
  least := fun b hb => h.least b (hp.symm.subset hb)
  ended := h.ended.trans (forall_congr' fun b => imp_congr_left hp.mem_iff)
  latest := by
    intro n hn
    obtain ⟨⟨b, hb, hs⟩, bound⟩ := h.latest n hn
    exact ⟨⟨b, hp.subset hb, hs⟩, fun c hc => bound c (hp.symm.subset hc)⟩

theorem Spans.unique (h : Spans bs start stop) (h' : Spans bs start' stop') :
    start = start' ∧ stop = stop' := by
  have le : ∀ {s s' e e'}, Spans bs s e → Spans bs s' e' → s ≤ s' := by
    intro s s' e e' h h'
    obtain ⟨b, hb, rfl⟩ := h'.first
    exact h.least b hb
  have later : ∀ {s s' e e' n m}, Spans bs s e → Spans bs s' e' → e = some n → e' = some m →
      n ≤ m := by
    intro s s' e e' n m h h' hn hm
    obtain ⟨⟨b, hb, hs⟩, _⟩ := h.latest n hn
    exact (h'.latest m hm).2 b hb n hs
  refine ⟨Nat.le_antisymm (le h h') (le h' h), ?_⟩
  have same := h.ended.trans h'.ended.symm
  cases hn : stop with
  | none => cases hm : stop' <;> simp_all
  | some n =>
    cases hm : stop' with
    | none => simp_all
    | some m => rw [Nat.le_antisymm (later h h' hn hm) (later h' h hm hn)]

end Spans

namespace Sums
variable {bs bs' : List Bucket} {b c c' d : Bucket}

theorem single (h : b.Sound) : Sums [b] b where
  sound := h
  counts := fun f => by simp
  blocked := by simp
  recent := by simp
  spans := spans_singleton b

theorem merge (h : Sums bs c) (h' : Sums bs' c') (hd : c.merge c' = .ok d) :
    Sums (bs ++ bs') d := by
  obtain ⟨total, _, rfl⟩ := merge_eq_ok.mp hd
  constructor
  case sound =>
    exact ⟨h.sound.total.foldl_addBin h'.sound.total, h.sound.recent.foldl_addBin h'.sound.recent,
      total, Nat.add_le_add h.sound.within h'.sound.within⟩
  case counts =>
    intro f
    rw [List.map_append, List.sum_append, ← h.counts, ← h'.counts]
    exact Window.count_together ..
  case blocked =>
    rw [List.map_append, List.sum_append, ← h.blocked, ← h'.blocked]
    rfl
  case recent =>
    rw [List.map_append, List.sum_append, ← h.recent, ← h'.recent]
    rfl
  case spans => exact h.spans.merge h'.spans

theorem perm (h : Sums bs c) (hp : bs.Perm bs') : Sums bs' c where
  sound := h.sound
  counts := fun f => (h.counts f).trans (hp.map _).sum_eq
  blocked := h.blocked.trans (hp.map _).sum_eq
  recent := h.recent.trans (hp.map _).sum_eq
  spans := h.spans.perm hp

theorem summary_eq (h : Sums bs c) (h' : Sums bs c') : c.summary = c'.summary := by
  obtain ⟨hs, he⟩ := h.spans.unique h'.spans
  rw [Bucket.summary, Bucket.summary, hs, he]
  exact Window.summary_eq_of_count h.sound.total h'.sound.total
    (fun f => (h.counts f).trans (h'.counts f).symm) (h.blocked.trans h'.blocked.symm) ..

theorem mergeAll (h : ∀ b ∈ bs, b.Sound) (hc : Bucket.mergeAll bs = .ok (some c)) : Sums bs c := by
  have more : ∀ (rest done : List Bucket) (b : Bucket), (∀ x ∈ rest, x.Sound) → Sums done b →
      rest.foldlM Bucket.merge b = .ok c → Sums (done ++ rest) c := by
    intro rest
    induction rest with
    | nil =>
      intro done b _ hb he
      cases he
      rwa [List.append_nil]
    | cons x rest ih =>
      intro done b hs hb he
      obtain ⟨d, hd, he⟩ := bind_eq_ok.mp he
      have next := ih (done ++ [x]) d (fun y hy => hs y (List.mem_cons_of_mem _ hy))
        (hb.merge (.single (hs x List.mem_cons_self)) hd) he
      rwa [List.append_assoc] at next
  cases bs with
  | nil => cases hc
  | cons b rest =>
    obtain ⟨_, he, hc⟩ := mergeAll_cons_eq_ok.mp hc
    cases he
    exact more rest [b] b (fun x hx => h x (List.mem_cons_of_mem _ hx))
      (.single (h b List.mem_cons_self)) hc

end Sums

theorem mergeAll_isOk {bs : List Bucket} (h : ∀ b ∈ bs, b.Sound) :
    (∃ o, mergeAll bs = .ok o) ↔ (bs.map (·.total.blocked)).sum ≤ Text.maxWord := by
  constructor
  · rintro ⟨o, ho⟩
    cases o with
    | none =>
      have none := (mergeAll_isSome ho).not.mp (by simp)
      rw [Decidable.not_not.mp none]
      exact Nat.zero_le _
    | some c =>
      have sums := Sums.mergeAll h ho
      rw [← sums.blocked]
      exact sums.sound.word
  · intro total
    exact mergeAll_of_fits total
      (Nat.le_trans (List.sum_le_sum fun b hb => (h b hb).within) total)

/-- A bucket that was opened at some time, and what was done with it since. -/
structure Life where
  opened : Nat
  uses : List Use

namespace Life

def chronicle (l : Life) : Chronicle := l.uses.foldl Chronicle.use (.opened l.opened)

def bucket (l : Life) : Bucket := l.chronicle.bucket

/-- The events that were recorded, with the times at which their requests had started. -/
def events (l : Life) : List (Nat × Event) := l.chronicle.recorded.map fun x => (x.stamp, x.event)

end Life

/-- Buckets merged two at a time, in some order. -/
inductive Assembly
  | bucket (l : Life)
  | merge (left right : Assembly)

namespace Assembly

def buckets : Assembly → List Bucket
  | bucket l => [l.bucket]
  | merge left right => left.buckets ++ right.buckets

def events : Assembly → List (Nat × Event)
  | bucket l => l.events
  | merge left right => left.events ++ right.events

def merged : Assembly → Except Panic Bucket
  | bucket l => .ok l.bucket
  | merge left right => do (← left.merged).merge (← right.merged)

/-- The blocked times that the buckets show, added up without a limit. -/
def blocked (a : Assembly) : Nat := (a.buckets.map (·.total.blocked)).sum

end Assembly

def recordAll (events : List (Nat × Event)) (b : Bucket) : Bucket :=
  events.foldl (fun b (stamp, e) => b.record stamp e) b

/-- The time that an event says its request was blocked. -/
def blockedBy : Event → Nat
  | .response blocked _ _ => Window.word blocked
  | _ => 0

def blockedSum (events : List (Nat × Event)) : Nat := (events.map fun x => blockedBy x.2).sum

section Records
variable {b : Bucket}

theorem sound_opened (now : Nat) : (opened now).Sound :=
  ⟨Histogram.proper_nil, Histogram.proper_nil, Nat.zero_le _, Nat.zero_le _⟩

theorem blocked_add (w : Window) (e : Event) (h : w.blocked ≤ Text.maxWord) :
    (w.add e).blocked = min (w.blocked + blockedBy e) Text.maxWord := by
  cases e with
  | response blocked time valid => rfl
  | _ => exact (Nat.min_eq_left h).symm

theorem Sound.recentWord (h : b.Sound) : b.recent.blocked ≤ Text.maxWord :=
  Nat.le_trans h.within h.word

theorem Sound.record (h : b.Sound) (stamp : Nat) (e : Event) : (b.record stamp e).Sound := by
  have total := blocked_add b.total e h.word
  have recent := blocked_add b.recent e h.recentWord
  have within := h.within
  have word := h.word
  refine ⟨Window.proper_add h.total e, ?_, ?_, ?_⟩ <;> simp only [Bucket.record]
  · split
    · exact Window.proper_add h.recent e
    · exact h.recent
  · omega
  · split <;> omega

theorem Sound.begin (h : b.Sound) (now : Nat) : (b.begin now).Sound := by
  unfold Bucket.begin
  split
  · exact ⟨h.total, h.recent, h.word, h.within⟩
  · exact h

theorem Sound.takeRecent (h : b.Sound) (now : Nat) :
    (b.takeRecent now).1.Sound ∧ (b.takeRecent now).2.Sound :=
  ⟨⟨h.recent, h.recent, h.recentWord, Nat.le_refl _⟩,
    ⟨h.total, Histogram.proper_nil, h.word, Nat.zero_le _⟩⟩

theorem blocked_begin (b : Bucket) (now : Nat) : (b.begin now).total.blocked = b.total.blocked := by
  unfold Bucket.begin
  split <;> rfl

/-- What becomes of a chronicle: its buckets stay sound, and its total has the blocked times of the
events that were recorded, up to the largest word. -/
structure Kept (c : Chronicle) : Prop where
  sound : c.bucket.Sound
  closed : ∀ b ∈ c.closed, b.Sound
  blocked : c.bucket.total.blocked =
    min (blockedSum (c.recorded.map fun x => (x.stamp, x.event))) Text.maxWord

theorem kept_opened (now : Nat) : Kept (.opened now) :=
  ⟨sound_opened now, fun _ hb => absurd hb List.not_mem_nil, rfl⟩

theorem Kept.use {c : Chronicle} (h : Kept c) (u : Use) : Kept (c.use u) := by
  cases u with
  | begin now => exact ⟨h.sound.begin now, h.closed, (blocked_begin ..).trans h.blocked⟩
  | finish now => exact ⟨⟨h.sound.total, h.sound.recent, h.sound.word, h.sound.within⟩,
      h.closed, h.blocked⟩
  | record request stamp e =>
    refine ⟨h.sound.record stamp e, h.closed, ?_⟩
    have added : (c.use (.record request stamp e)).bucket.total.blocked =
        min (c.bucket.total.blocked + blockedBy e) Text.maxWord :=
      blocked_add _ e h.sound.word
    rw [added, h.blocked]
    simp only [Chronicle.use, blockedSum, List.map_append, List.sum_append, List.map_cons,
      List.map_nil, List.sum_cons, List.sum_nil]
    omega
  | close now =>
    obtain ⟨closed, left⟩ := h.sound.takeRecent now
    refine ⟨left, fun b hb => ?_, h.blocked⟩
    rcases List.mem_append.mp hb with hb | hb
    · exact h.closed b hb
    · rw [List.mem_singleton.mp hb]
      exact closed

theorem Life.kept (l : Life) : Kept l.chronicle := by
  have whole : ∀ (us : List Use) (c : Chronicle), Kept c → Kept (us.foldl Chronicle.use c) := by
    intro us
    induction us with
    | nil => exact fun _ h => h
    | cons u us ih => exact fun c h => ih _ (h.use u)
  exact whole l.uses _ (kept_opened l.opened)

/-- What holds of a bucket that was just opened, and is kept by each use, holds of every life. -/
theorem Life.induction {motive : List Use → Chronicle → Prop} (l : Life)
    (opened : motive [] (.opened l.opened))
    (use : ∀ us c u, Kept c → motive us c → motive (us ++ [u]) (c.use u)) :
    motive l.uses l.chronicle := by
  have whole : ∀ (us done : List Use) (c : Chronicle), Kept c → motive done c →
      motive (done ++ us) (us.foldl Chronicle.use c) := by
    intro us
    induction us with
    | nil =>
      intro done c _ h
      rwa [List.append_nil]
    | cons u us ih =>
      intro done c kept h
      rw [List.append_cons]
      exact ih _ _ (kept.use u) (use done c u kept h)
  exact whole l.uses [] _ (kept_opened l.opened) opened

theorem Life.count (l : Life) (f : Figure) :
    l.bucket.total.count f = (l.events.map (·.2.adds f)).sum := by
  have accounted := Chronicle.accounted_useAll (Chronicle.numbered_opened l.opened)
    (Chronicle.accounted_opened l.opened f) l.uses
  rw [Life.events, List.map_map]
  exact accounted.total

/-- A bucket in which events are recorded counts them, and adds their blocked times up to the
largest word. -/
theorem total_recordAll (events : List (Nat × Event)) {b : Bucket} (h : b.Sound) :
    (recordAll events b).Sound ∧
      (∀ f, (recordAll events b).total.count f =
        b.total.count f + (events.map (·.2.adds f)).sum) ∧
      (recordAll events b).total.blocked =
        min (b.total.blocked + blockedSum events) Text.maxWord := by
  induction events generalizing b with
  | nil => exact ⟨h, fun _ => rfl, (Nat.min_eq_left h.word).symm⟩
  | cons x rest ih =>
    obtain ⟨sound, counts, blocked⟩ := ih (h.record x.1 x.2)
    refine ⟨sound, fun f => ?_, ?_⟩
    · rw [recordAll, List.foldl_cons, ← recordAll, counts, (count_record ..).1, List.map_cons,
        List.sum_cons, Nat.add_assoc]
    · have added : (b.record x.1 x.2).total.blocked =
          min (b.total.blocked + blockedBy x.2) Text.maxWord := blocked_add _ x.2 h.word
      rw [recordAll, List.foldl_cons, ← recordAll, blocked, added, blockedSum, blockedSum,
        List.map_cons, List.sum_cons]
      omega

end Records

namespace Assembly

theorem blocked_bucket (l : Life) : (bucket l).blocked = l.bucket.total.blocked := by
  rw [blocked, buckets, List.map_singleton, List.sum_singleton]

theorem blocked_merge (left right : Assembly) :
    (merge left right).blocked = left.blocked + right.blocked := by
  rw [blocked, buckets, List.map_append, List.sum_append]
  rfl

theorem sums {a : Assembly} {c : Bucket} (h : a.merged = .ok c) : Sums a.buckets c := by
  induction a generalizing c with
  | bucket l =>
    cases h
    exact .single l.kept.sound
  | merge left right ihl ihr =>
    obtain ⟨b, hl, h⟩ := bind_eq_ok.mp h
    obtain ⟨b', hr, h⟩ := bind_eq_ok.mp h
    exact (ihl hl).merge (ihr hr) h

/-- However the buckets are put together, no sum overflows exactly if the sum of all does not. -/
theorem merged_isOk (a : Assembly) : (∃ c, a.merged = .ok c) ↔ a.blocked ≤ Text.maxWord := by
  constructor
  · rintro ⟨c, h⟩
    rw [blocked, ← (sums h).blocked]
    exact (sums h).sound.word
  · intro fits
    induction a with
    | bucket l => exact ⟨_, rfl⟩
    | merge left right ihl ihr =>
      rw [blocked_merge] at fits
      obtain ⟨b, hl⟩ := ihl (by omega)
      obtain ⟨b', hr⟩ := ihr (by omega)
      rw [blocked, blocked, ← (sums hl).blocked, ← (sums hr).blocked] at fits
      rw [merged, hl, hr]
      exact (merge_isOk (sums hl).sound (sums hr).sound).mpr fits

theorem sum_counts (a : Assembly) (f : Figure) :
    (a.buckets.map (·.total.count f)).sum = (a.events.map (·.2.adds f)).sum := by
  induction a with
  | bucket l => simpa [buckets, events] using l.count f
  | merge left right ihl ihr => simp [buckets, events, ihl, ihr]

theorem blocked_eq (a : Assembly) (h : blockedSum a.events ≤ Text.maxWord) :
    a.blocked = blockedSum a.events := by
  induction a with
  | bucket l =>
    have own : l.bucket.total.blocked = min (blockedSum l.events) Text.maxWord := l.kept.blocked
    rw [blocked_bucket, own]
    exact Nat.min_eq_left h
  | merge left right ihl ihr =>
    have both : blockedSum (merge left right).events =
        blockedSum left.events + blockedSum right.events := by
      simp [blockedSum, events]
    rw [both] at h ⊢
    rw [blocked_merge, ihl (by omega), ihr (by omega)]

end Assembly

/-- Events that were recorded in any number of buckets, which were then merged in any order, show the
same as if one bucket had recorded them all. Only the interval is that of the buckets together. -/
theorem merged_summary (a : Assembly) {events : List (Nat × Event)} (he : a.events.Perm events)
    (hb : blockedSum events ≤ Text.maxWord) (now : Nat) :
    ∃ c, a.merged = .ok c ∧ Spans a.buckets c.summary.start c.summary.stop ∧
      c.summary = { (recordAll events (.opened now)).summary with
        start := c.summary.start
        stop := c.summary.stop } := by
  have fits : blockedSum a.events = blockedSum events := (he.map _).sum_eq
  have total := a.blocked_eq (by omega)
  obtain ⟨c, hc⟩ := a.merged_isOk.mpr (by omega)
  have sums := Assembly.sums hc
  obtain ⟨sound, counts, blocked⟩ := total_recordAll events (sound_opened now)
  refine ⟨c, hc, sums.spans, ?_⟩
  refine Window.summary_eq_of_count sums.sound.total sound.total (fun f => ?figure) ?time _ _
  case figure =>
    have none : (opened now).total.count f = 0 := Window.count_opened now f
    rw [sums.counts, a.sum_counts, counts, none, Nat.zero_add]
    exact (he.map _).sum_eq
  case time =>
    have none : (opened now).total.blocked = 0 := rfl
    rw [sums.blocked, ← Assembly.blocked, total, blocked, none, fits, Nat.zero_add,
      Nat.min_eq_left hb]

/-- Three loops: one has a request and its response, one has nothing and has not ended, and one has a
response that took two hours. -/
def threeLoops : Assembly :=
  .merge
    (.bucket ⟨1000, [.record 0 1000 .request, .record 0 1000 (.response ⟨5000⟩ ⟨2000000⟩ true),
      .finish 1500]⟩)
    (.merge (.bucket ⟨900, []⟩)
      (.bucket ⟨50, [.begin 60, .record 1 60 (.response .zero (.ofSeconds 7200) false),
        .finish 1700]⟩))

/-- The events in another order, in a bucket that was opened at another time. -/
theorem three_loops_merged : ∃ events c, threeLoops.events.Perm events ∧
    blockedSum events ≤ Text.maxWord ∧ events.length = 3 ∧ threeLoops.merged = .ok c ∧
    Spans threeLoops.buckets 60 none ∧
      c.summary = { (recordAll events (.opened 7)).summary with start := 60, stop := none } := by
  have fits : blockedSum threeLoops.events.reverse ≤ Text.maxWord := by decide
  obtain ⟨c, merged, spans, same⟩ := merged_summary threeLoops (List.reverse_perm _).symm fits 7
  have whole := merged
  cases merged
  exact ⟨_, _, (List.reverse_perm _).symm, fits, rfl, whole, spans, same⟩

end Bucket
end LoadGen
