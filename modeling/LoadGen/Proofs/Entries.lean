import LoadGen.Proofs.Appearances
import LoadGen.Proofs.Boards
import LoadGen.Proofs.ByteOrder
import LoadGen.Proofs.Rows
import Mathlib.Data.List.Induction

namespace LoadGen

namespace Bucket

theorem requests_begin (c : Bucket) (now : Nat) :
    (c.begin now).total.requests = c.total.requests := by
  rw [begin]
  split <;> rfl

theorem start_begin {c : Bucket} (h : c.total.requests = 0) (now : Nat) :
    (c.begin now).start = now := by
  rw [begin, if_pos h]

end Bucket

namespace Board

section Perform
variable {b : Board} {ops : List Operation} {op : Operation} {phase : String}

theorem phase_alter {f : PhaseBuckets → PhaseBuckets} (hf : ∀ p, (f p).phase = p.phase)
    (l : List PhaseBuckets) : (alter phase f l).map (·.phase) =
      if phase ∈ l.map (·.phase) then l.map (·.phase) else l.map (·.phase) ++ [phase] := by
  induction l with
  | nil => simp [alter, hf]
  | cons p rest ih =>
    by_cases hp : p.phase = phase
    · simp [alter, hp, hf]
    · simp only [alter, if_neg hp, List.map_cons, ih, List.mem_cons, Ne.symm hp, false_or,
        List.cons_append]
      split <;> rfl

theorem phaseNames_opens (ho : op.Opens phase) : (op.perform b).phaseNames =
    if phase ∈ b.phaseNames then b.phaseNames else b.phaseNames ++ [phase] := by
  rcases ho with ⟨now, rfl⟩ | ⟨metric, now, rfl⟩
  · exact phase_alter (fun _ => by rfl) b.phases
  · exact phase_alter (fun p => by split <;> rfl) b.phases

theorem phaseNames_prune (b : Board) (phase : String) :
    (b.prune phase).phaseNames = b.phaseNames.filter (· != phase) := by
  rw [phaseNames, phaseNames, List.filter_map]
  rfl

theorem phaseNames_perform (op : Operation) (opens : ∀ phase, ¬ op.Opens phase)
    (prunes : ∀ phase, op ≠ .prune phase) : (op.perform b).phaseNames = b.phaseNames := by
  have changed : ∀ {g : PhaseBuckets → PhaseBuckets}, (∀ p, (g p).phase = p.phase) →
      (b.phases.map g).map (·.phase) = b.phaseNames := by
    intro g hg
    rw [List.map_map]
    exact List.map_congr_left fun p _ => hg p
  cases op with
  | startPhase phase now => exact absurd (.inl ⟨now, rfl⟩) (opens phase)
  | ensure phase metric now => exact absurd (.inr ⟨metric, now, rfl⟩) (opens phase)
  | update phase metric f => exact changed fun p => by split <;> rfl
  | applyToPhase phase f => exact changed fun p => by split <;> rfl
  | prune phase => exact absurd rfl (prunes phase)
  | snapshot only => rfl
  | takeRecent now => exact changed fun _ => rfl

/-- The board lists the phases that have an entry, in the order in which these were made. -/
structure Listed (ops : List Operation) (b : Board) : Prop where
  mem : ∀ phase, phase ∈ b.phaseNames ↔ ∃ i, OpenedAt ops phase i
  order : b.phaseNames.Pairwise (Before ops)

theorem listed_empty (executor : Nat) : Listed [] { executor := executor } where
  mem := by
    intro phase
    constructor
    · intro h
      cases h
    · rintro ⟨i, hi⟩
      exact absurd hi.lt (Nat.not_lt_zero i)
  order := .nil

theorem Listed.opens (h : Listed ops b) (ho : op.Opens phase) :
    Listed (ops ++ [op]) (op.perform b) := by
  have notPruned : ∀ other, op ≠ .prune other := fun other he =>
    Operation.not_opens_prune (he ▸ ho)
  have only : ∀ {other}, op.Opens other → other = phase := by
    rcases ho with ⟨_, rfl⟩ | ⟨_, _, rfl⟩ <;> rintro other (⟨_, he⟩ | ⟨_, _, he⟩) <;>
      first | exact (Operation.startPhase.inj he).1.symm | exact (Operation.ensure.inj he).1.symm |
        cases he
  have order : b.phaseNames.Pairwise (Before (ops ++ [op])) :=
    h.order.imp fun hb => hb.snoc (notPruned _) (notPruned _)
  by_cases there : phase ∈ b.phaseNames
  · have names : (op.perform b).phaseNames = b.phaseNames := by
      rw [phaseNames_opens ho, if_pos there]
    refine ⟨fun other => ?_, names ▸ order⟩
    rw [names, h.mem]
    constructor
    · rintro ⟨i, hi⟩
      exact ⟨i, hi.snoc (notPruned other)⟩
    · rintro ⟨i, hi⟩
      rcases (openedAt_snoc.mp hi).2 with hi | ⟨_, hother, none⟩
      · exact ⟨i, hi⟩
      · obtain ⟨j, hj⟩ := (h.mem phase).mp there
        exact absurd (only hother ▸ hj) (none j)
  · have names : (op.perform b).phaseNames = b.phaseNames ++ [phase] := by
      rw [phaseNames_opens ho, if_neg there]
    have none : ∀ i, ¬ OpenedAt ops phase i := fun i hi => there ((h.mem phase).mpr ⟨i, hi⟩)
    have last := openedAt_snoc_new ho none
    refine ⟨fun other => ?_,
      names ▸ List.pairwise_append.mpr ⟨order, List.pairwise_singleton .., ?_⟩⟩
    · rw [names, List.mem_append, List.mem_singleton, h.mem]
      constructor
      · rintro (⟨i, hi⟩ | rfl)
        · exact ⟨i, hi.snoc (notPruned other)⟩
        · exact ⟨_, last⟩
      · rintro ⟨i, hi⟩
        rcases (openedAt_snoc.mp hi).2 with hi | ⟨_, hother, _⟩
        · exact .inl ⟨i, hi⟩
        · exact .inr (only hother)
    · intro other hother new hnew
      obtain ⟨i, hi⟩ := (h.mem other).mp hother
      rw [List.mem_singleton.mp hnew]
      exact ⟨i, _, hi.snoc (notPruned other), last, hi.lt⟩

theorem Listed.prune (h : Listed ops b) (phase : String) :
    Listed (ops ++ [.prune phase]) (b.prune phase) where
  mem := by
    intro other
    rw [phaseNames_prune, List.mem_filter, h.mem, bne_iff_ne]
    constructor
    · rintro ⟨⟨i, hi⟩, hne⟩
      exact ⟨i, hi.snoc fun he => hne (Operation.prune.inj he).symm⟩
    · rintro ⟨i, hi⟩
      obtain ⟨hne, hi⟩ := openedAt_snoc.mp hi
      refine ⟨⟨i, hi.resolve_right fun h => Operation.not_opens_prune h.2.1⟩, ?_⟩
      rintro rfl
      exact hne rfl
  order := by
    rw [phaseNames_prune]
    refine (h.order.filter _).imp_of_mem fun ha hb hlt => hlt.snoc ?_ ?_
    · rintro ⟨⟩
      simpa using (List.mem_filter.mp ha).2
    · rintro ⟨⟩
      simpa using (List.mem_filter.mp hb).2

theorem Listed.perform (h : Listed ops b) (op : Operation) :
    Listed (ops ++ [op]) (op.perform b) := by
  by_cases opens : ∃ phase, op.Opens phase
  · obtain ⟨phase, ho⟩ := opens
    exact h.opens ho
  · by_cases prunes : ∃ phase, op = .prune phase
    · obtain ⟨phase, rfl⟩ := prunes
      exact h.prune phase
    · push Not at opens prunes
      have names : (op.perform b).phaseNames = b.phaseNames := phaseNames_perform op opens prunes
      refine ⟨fun phase => ?_, ?_⟩
      · rw [names, h.mem]
        refine exists_congr fun i => ⟨fun hi => hi.snoc (prunes phase), fun hi => ?_⟩
        exact (openedAt_snoc.mp hi).2.resolve_right fun h => opens phase h.2.1
      · rw [names]
        exact h.order.imp fun hb => hb.snoc (prunes _) (prunes _)

/-- The metrics of every phase are in order. -/
def Sorted (b : Board) : Prop := ∀ p ∈ b.phases, p.metrics.Sorted

theorem Sorted.alter (h : b.Sorted) {f : PhaseBuckets → PhaseBuckets}
    (hf : ∀ p, p.metrics.Sorted → (f p).metrics.Sorted) :
    Sorted { b with phases := alter phase f b.phases } := by
  intro p hp
  rcases mem_alter hp with hp | ⟨q, hq | rfl, _, rfl⟩
  · exact h p hp
  · exact hf q (h q hq)
  · exact hf _ Dict.sorted_empty

theorem Sorted.change (h : b.Sorted) {g : PhaseBuckets → PhaseBuckets}
    (hg : ∀ p, (g p).metrics.keys = p.metrics.keys) :
    Sorted { b with phases := b.phases.map g } := by
  intro p hp
  obtain ⟨q, hq, rfl⟩ := List.mem_map.mp hp
  rw [Dict.sorted_iff, hg, ← Dict.sorted_iff]
  exact h q hq

theorem Sorted.perform (h : b.Sorted) (op : Operation) : (op.perform b).Sorted := by
  cases op with
  | startPhase phase now =>
    refine h.alter fun p hp => ?_
    rw [Dict.sorted_iff, Dict.keys_map, ← Dict.sorted_iff]
    exact hp
  | ensure phase metric now =>
    refine h.alter fun p hp => ?_
    split
    · exact hp
    · exact hp.insert ..
  | update phase metric f =>
    refine h.change fun p => ?_
    split
    · exact Dict.keys_modify ..
    · rfl
  | applyToPhase phase f =>
    refine h.change fun p => ?_
    split
    · exact Dict.keys_map ..
    · rfl
  | prune phase => exact fun p hp => h p (List.mem_filter.mp hp).1
  | snapshot only => exact h
  | takeRecent now => exact h.change fun p => Dict.keys_map ..

/-- The board knows of every phase when it was started last. -/
def Dated (ops : List Operation) (b : Board) : Prop :=
  ∀ phase now, b.startedAt? phase = some now ↔ ∃ i, StartedAt ops phase now i

theorem dated_empty (executor : Nat) : Dated [] { executor := executor } := by
  intro phase now
  constructor
  · intro h
    cases h
  · rintro ⟨i, hi⟩
    cases hi.starts

theorem Dated.keep (h : Dated ops b) {b' : Board}
    (same : ∀ phase, b'.startedAt? phase = b.startedAt? phase)
    (prunes : ∀ phase, op ≠ .prune phase) (starts : ∀ phase now, op ≠ .startPhase phase now) :
    Dated (ops ++ [op]) b' := by
  intro phase now
  rw [same, h phase now]
  refine exists_congr fun i => ?_
  rw [startedAt_snoc]
  constructor
  · intro hi
    exact .inr ⟨hi, prunes phase, starts phase⟩
  · rintro (⟨_, he⟩ | ⟨hi, _⟩)
    · exact absurd he (starts phase now)
    · exact hi

theorem Dated.startPhase (h : Dated ops b) (phase : String) (now : Nat) :
    Dated (ops ++ [.startPhase phase now]) (b.startPhase phase now) := by
  intro other t
  simp only [startedAt?_startPhase, startedAt_snoc]
  split
  · rename_i he
    subst he
    constructor
    · rintro ⟨⟩
      exact ⟨_, .inl ⟨rfl, rfl⟩⟩
    · rintro ⟨i, ⟨_, he⟩ | ⟨_, _, hn⟩⟩
      · rw [(Operation.startPhase.inj he).2]
      · exact absurd rfl (hn now)
  · rename_i hne
    rw [h other t]
    refine exists_congr fun i => ⟨fun hi => .inr ⟨hi, by rintro ⟨⟩, ?_⟩, ?_⟩
    · rintro _ ⟨⟩
      exact hne rfl
    · rintro (⟨_, he⟩ | ⟨hi, _⟩)
      · exact absurd (Operation.startPhase.inj he).1.symm hne
      · exact hi

theorem Dated.prune (h : Dated ops b) (phase : String) :
    Dated (ops ++ [.prune phase]) (b.prune phase) := by
  intro other t
  simp only [startedAt?_prune, startedAt_snoc]
  split
  · rename_i he
    subst he
    constructor
    · rintro ⟨⟩
    · rintro ⟨i, ⟨_, he⟩ | ⟨_, hn, _⟩⟩
      · cases he
      · exact absurd rfl hn
  · rename_i hne
    rw [h other t]
    refine exists_congr fun i => ⟨fun hi => .inr ⟨hi, ?_, by rintro _ ⟨⟩⟩, ?_⟩
    · rintro ⟨⟩
      exact hne rfl
    · rintro (⟨_, he⟩ | ⟨hi, _⟩)
      · cases he
      · exact hi

theorem Dated.perform (h : Dated ops b) (op : Operation) : Dated (ops ++ [op]) (op.perform b) := by
  cases op with
  | startPhase phase now => exact h.startPhase phase now
  | prune phase => exact h.prune phase
  | ensure phase metric now =>
    exact h.keep (fun _ => startedAt?_ensure ..) (by rintro _ ⟨⟩) (by rintro _ _ ⟨⟩)
  | update phase metric f =>
    exact h.keep (fun _ => startedAt?_update ..) (by rintro _ ⟨⟩) (by rintro _ _ ⟨⟩)
  | applyToPhase phase f =>
    exact h.keep (fun _ => startedAt?_applyToPhase ..) (by rintro _ ⟨⟩) (by rintro _ _ ⟨⟩)
  | snapshot only => exact h.keep (fun _ => rfl) (by rintro _ ⟨⟩) (by rintro _ _ ⟨⟩)
  | takeRecent now =>
    exact h.keep (fun _ => startedAt?_takeRecent ..) (by rintro _ ⟨⟩) (by rintro _ _ ⟨⟩)

/-- A bucket in which nothing has been counted begins at the last start of its phase, unless it was
changed by something that moves its beginning. -/
def Begun (ops : List Operation) (b : Board) : Prop :=
  ∀ phase metric now i c, StartedAt ops phase now i → LeftAlone ops phase metric i →
    b.bucket? phase metric = some c → c.total.requests = 0 → c.start = now

theorem begun_empty (executor : Nat) : Begun [] { executor := executor } := by
  intro phase metric now i c started
  cases started.starts

/-- What does not start a phase changes the buckets of the phases that have started in ways that do
not move their beginning. -/
theorem Begun.keep (h : Begun ops b) {b' : Board} (starts : ∀ phase now, op ≠ .startPhase phase now)
    (change : ∀ phase metric now i c, StartedAt ops phase now i → op ≠ .prune phase →
      LeftAlone (ops ++ [op]) phase metric i → b'.bucket? phase metric = some c →
        c.total.requests = 0 → c.start = now ∨
          ∃ d, b.bucket? phase metric = some d ∧ d.total.requests = 0 ∧ c.start = d.start) :
    Begun (ops ++ [op]) b' := by
  intro phase metric now i c started alone hc empty
  rcases startedAt_snoc.mp started with ⟨_, he⟩ | ⟨started, hp, _⟩
  · exact absurd he (starts phase now)
  · rcases change phase metric now i c started hp alone hc empty with done | ⟨d, hd, hempty, he⟩
    · exact done
    · rw [he]
      exact h phase metric now i d started alone.of_snoc hd hempty

theorem StartedAt.lt {now i : Nat} (h : StartedAt ops phase now i) : i < ops.length :=
  lt_of_getElem? h.starts

theorem Begun.startPhase (h : Begun ops b) (phase : String) (now : Nat) :
    Begun (ops ++ [.startPhase phase now]) (b.startPhase phase now) := by
  intro other metric t i c started alone hc empty
  rw [bucket?_startPhase] at hc
  rcases startedAt_snoc.mp started with ⟨_, he⟩ | ⟨started, _, hs⟩
  · obtain ⟨rfl, rfl⟩ := Operation.startPhase.inj he
    rw [if_pos rfl] at hc
    obtain ⟨d, _, rfl⟩ := Option.map_eq_some_iff.mp hc
    rw [Bucket.requests_begin] at empty
    exact Bucket.start_begin empty now
  · have hne : other ≠ phase := by
      rintro rfl
      exact hs now rfl
    rw [if_neg hne] at hc
    exact h other metric t i c started alone.of_snoc hc empty

theorem Begun.perform (h : Begun ops b) (dated : Dated ops b) (op : Operation) :
    Begun (ops ++ [op]) (op.perform b) := by
  cases op with
  | startPhase phase now => exact h.startPhase phase now
  | ensure phase metric now =>
    refine h.keep (by rintro _ _ ⟨⟩) fun other m t i c started _ _ hc empty => ?_
    simp only [Operation.perform, bucket?_made] at hc
    split at hc
    · rename_i he
      obtain ⟨rfl, rfl⟩ := he
      cases hd : b.bucket? other m with
      | none =>
        rw [hd, (dated other t).mpr ⟨i, started⟩] at hc
        cases hc
        exact .inl rfl
      | some d =>
        rw [hd] at hc
        cases hc
        exact .inr ⟨d, rfl, empty, rfl⟩
    · exact .inr ⟨c, hc, empty, rfl⟩
  | update phase metric f =>
    refine h.keep (by rintro _ _ ⟨⟩) fun other m t i c started _ alone hc empty => ?_
    simp only [Operation.perform, bucket?_update] at hc
    split at hc
    · rename_i he
      obtain ⟨rfl, rfl⟩ := he
      obtain ⟨d, hd, rfl⟩ := Option.map_eq_some_iff.mp hc
      exact .inr ⟨d, hd, alone.snoc_last started.lt (.inl rfl) d empty⟩
    · exact .inr ⟨c, hc, empty, rfl⟩
  | applyToPhase phase f =>
    refine h.keep (by rintro _ _ ⟨⟩) fun other m t i c started _ alone hc empty => ?_
    simp only [Operation.perform, bucket?_applyToPhase] at hc
    split at hc
    · rename_i he
      subst he
      obtain ⟨d, hd, rfl⟩ := Option.map_eq_some_iff.mp hc
      exact .inr ⟨d, hd, alone.snoc_last started.lt (.inr rfl) d empty⟩
    · exact .inr ⟨c, hc, empty, rfl⟩
  | prune phase =>
    refine h.keep (by rintro _ _ ⟨⟩) fun other m t i c _ hp _ hc empty => ?_
    simp only [Operation.perform, bucket?_prune] at hc
    split at hc
    · cases hc
    · exact .inr ⟨c, hc, empty, rfl⟩
  | snapshot only =>
    exact h.keep (by rintro _ _ ⟨⟩) fun _ _ _ _ c _ _ _ hc empty => .inr ⟨c, hc, empty, rfl⟩
  | takeRecent now =>
    refine h.keep (by rintro _ _ ⟨⟩) fun other m t i c _ _ _ hc empty => ?_
    simp only [Operation.perform, bucket?_takeRecent] at hc
    obtain ⟨d, hd, rfl⟩ := Option.map_eq_some_iff.mp hc
    exact .inr ⟨d, hd, empty, rfl⟩

end Perform

section Listings
variable {b : Board}

/-- A bucket is found under its names, as there is no other of these names. -/
theorem holds_iff_bucket? (names : b.phaseNames.Nodup) (sorted : b.Sorted)
    {phase metric : String} {c : Bucket} :
    b.Holds phase metric c ↔ b.bucket? phase metric = some c := by
  rw [bucket?, Option.bind_eq_some_iff]
  constructor
  · rintro ⟨p, hp, rfl, hc⟩
    refine ⟨p, ?_, Dict.get?_of_mem_entries (sorted p hp).nodup hc⟩
    unfold entry?
    cases hf : b.phases.find? (·.phase == p.phase) with
    | none => exact absurd (List.find?_eq_none.mp hf p hp) (by simp)
    | some q =>
      have named := entry?_phase hf
      exact congrArg some (List.inj_on_of_nodup_map names (List.mem_of_find?_eq_some hf) hp named)
  · rintro ⟨p, hp, hc⟩
    exact ⟨p, List.mem_of_find?_eq_some hp, entry?_phase hp, Dict.mem_entries_of_get? hc⟩

/-- Each bucket, or each of one phase, is listed once: by phase in the given order, and then by the
bytes of the metric. -/
structure Lists (b : Board) (before : String → String → Prop) (only : Option String)
    (copy : Bucket → Bucket) (l : List Snapshot) : Prop where
  complete : ∀ phase metric c, b.bucket? phase metric = some c → only.all (phase == ·) →
    ⟨phase, metric, b.executor, copy c⟩ ∈ l
  sound : ∀ s ∈ l, only.all (s.phase == ·) ∧ s.executor = b.executor ∧
    ∃ c, b.bucket? s.phase s.metric = some c ∧ s.bucket = copy c
  once : (l.map fun s => (s.phase, s.metric)).Nodup
  order : l.Pairwise fun s t => before s.phase t.phase ∨
    (s.phase = t.phase ∧ Text.bytes s.metric < Text.bytes t.metric)

theorem lists_copies {before : String → String → Prop} (names : b.phaseNames.Nodup)
    (order : b.phaseNames.Pairwise before) (sorted : b.Sorted) (only : Option String)
    (copy : Bucket → Bucket) : Lists b before only copy
      ((b.phases.filter fun p => only.all (p.phase == ·)).flatMap fun p =>
        snapshotsOf b.executor { p with metrics := p.metrics.map copy }) := by
  have mem : ∀ s : Snapshot, (s ∈ (b.phases.filter fun p => only.all (p.phase == ·)).flatMap
        fun p => snapshotsOf b.executor { p with metrics := p.metrics.map copy }) ↔
      only.all (s.phase == ·) ∧ s.executor = b.executor ∧
        ∃ c, b.bucket? s.phase s.metric = some c ∧ s.bucket = copy c := by
    intro s
    simp only [List.mem_flatMap, List.mem_filter, snapshotsOf, Dict.map, List.map_map, List.mem_map,
      ← holds_iff_bucket? names sorted]
    constructor
    · rintro ⟨p, ⟨hp, ho⟩, ⟨metric, c⟩, hc, rfl⟩
      exact ⟨ho, rfl, c, ⟨p, hp, rfl, hc⟩, rfl⟩
    · rintro ⟨ho, hx, c, ⟨p, hp, he, hc⟩, hb⟩
      refine ⟨p, ⟨hp, he ▸ ho⟩, (s.metric, c), hc, ?_⟩
      simp only [Function.comp, he, ← hx, ← hb]
  have metrics : ∀ p : PhaseBuckets, (snapshotsOf b.executor
      { p with metrics := p.metrics.map copy }).map (·.metric) = p.metrics.keys := by
    intro p
    simp only [snapshotsOf, List.map_map, Dict.map, Dict.keys]
    rfl
  have phases : ∀ p : PhaseBuckets, ∀ s ∈ snapshotsOf b.executor
      { p with metrics := p.metrics.map copy }, s.phase = p.phase := by
    intro p s hs
    obtain ⟨_, _, rfl⟩ := List.mem_map.mp hs
    rfl
  refine ⟨fun phase metric c hc ho => (mem _).mpr ⟨ho, rfl, c, hc, rfl⟩, fun s => (mem s).mp, ?_,
    ?_⟩
  · refine List.pairwise_map.mpr (List.pairwise_flatMap.mpr ⟨fun p hp => ?_, ?_⟩)
    · have keys := (sorted p (List.mem_filter.mp hp).1).nodup
      rw [← metrics p] at keys
      exact (List.pairwise_map.mp keys).imp fun hne he => hne (Prod.mk.inj he).2
    · refine ((List.pairwise_map.mp names).filter _).imp fun hne => ?_
      intro s hs t ht he
      exact hne ((phases _ s hs).symm.trans ((Prod.mk.inj he).1.trans (phases _ t ht)))
  · refine List.pairwise_flatMap.mpr ⟨fun p hp => ?_, ?_⟩
    · have keys := Dict.sorted_iff.mp (sorted p (List.mem_filter.mp hp).1)
      rw [← metrics p] at keys
      refine (List.pairwise_map.mp keys).imp_of_mem fun hs ht hlt => .inr ⟨?_, Text.bytes_lt hlt⟩
      exact (phases p _ hs).trans (phases p _ ht).symm
    · refine ((List.pairwise_map.mp order).filter _).imp fun hb => ?_
      intro s hs t ht
      rw [phases _ s hs, phases _ t ht]
      exact .inl hb

end Listings

/-- Some of the buckets were changed, and nothing else. -/
structure Rewrites (b b' : Board) (chosen : String → String → Prop) (f : Bucket → Bucket) :
    Prop where
  names : b'.phaseNames = b.phaseNames
  starts : ∀ phase, b'.startedAt? phase = b.startedAt? phase
  those : ∀ phase metric, chosen phase metric →
    b'.bucket? phase metric = (b.bucket? phase metric).map f
  others : ∀ phase metric, ¬ chosen phase metric →
    b'.bucket? phase metric = b.bucket? phase metric

/-- The board is a map from phases and metrics to buckets, after these operations. -/
structure KeyedMap (ops : List Operation) (b : Board) : Prop where
  phases : b.phaseNames.Nodup
  metrics : ∀ p ∈ b.phases, p.metrics.keys.Nodup
  present : ∀ phase, phase ∈ b.phaseNames ↔ ∃ i, OpenedAt ops phase i
  order : b.phaseNames.Pairwise (Before ops)
  snapshot : ∀ only, Lists b (Before ops) only id (b.snapshot only)
  windows : ∀ now, Lists b (Before ops) none (fun c => (c.takeRecent now).1) (b.takeRecent now).1
  update : ∀ phase metric f,
    Rewrites b (b.update phase metric f) (fun p m => p = phase ∧ m = metric) f
  write : ∀ (ref : Reference) f,
    Rewrites b ((ref.write f).perform b) (fun p m => p = ref.phase ∧ m = ref.metric) f
  apply : ∀ phase f, Rewrites b (b.applyToPhase phase f) (fun p _ => p = phase) f
  takeRecent : ∀ now,
    Rewrites b (b.takeRecent now).2 (fun _ _ => True) fun c => (c.takeRecent now).2
  ensure : ∀ phase metric now name m, (b.ensure phase metric now).bucket? name m =
    if name = phase ∧ m = metric then
      some ((b.bucket? name m).getD (.opened ((b.startedAt? phase).getD now)))
    else b.bucket? name m
  prune : ∀ phase, (b.prune phase).phaseNames = b.phaseNames.filter (· != phase) ∧
    ∀ name m, (b.prune phase).bucket? name m = if name = phase then none else b.bucket? name m
  begun : Begun ops b

theorem rewrites_update (b : Board) (phase metric : String) (f : Bucket → Bucket) :
    Rewrites b (b.update phase metric f) (fun p m => p = phase ∧ m = metric) f where
  names := phaseNames_perform (.update phase metric f)
    (by rintro _ (⟨_, ⟨⟩⟩ | ⟨_, _, ⟨⟩⟩)) (by rintro _ ⟨⟩)
  starts := fun _ => startedAt?_update ..
  those := fun _ _ h => by rw [bucket?_update, if_pos h]
  others := fun _ _ h => by rw [bucket?_update, if_neg h]

theorem rewrites_applyToPhase (b : Board) (phase : String) (f : Bucket → Bucket) :
    Rewrites b (b.applyToPhase phase f) (fun p _ => p = phase) f where
  names := phaseNames_perform (.applyToPhase phase f)
    (by rintro _ (⟨_, ⟨⟩⟩ | ⟨_, _, ⟨⟩⟩)) (by rintro _ ⟨⟩)
  starts := fun _ => startedAt?_applyToPhase ..
  those := fun _ _ h => by rw [bucket?_applyToPhase, if_pos h]
  others := fun _ _ h => by rw [bucket?_applyToPhase, if_neg h]

theorem rewrites_takeRecent (b : Board) (now : Nat) :
    Rewrites b (b.takeRecent now).2 (fun _ _ => True) fun c => (c.takeRecent now).2 where
  names := phaseNames_perform (.takeRecent now)
    (by rintro _ (⟨_, ⟨⟩⟩ | ⟨_, _, ⟨⟩⟩)) (by rintro _ ⟨⟩)
  starts := fun _ => startedAt?_takeRecent ..
  those := fun _ _ _ => bucket?_takeRecent ..
  others := fun _ _ h => absurd trivial h

/-- What holds of an empty board and is kept by every operation holds after any operations. -/
theorem after_induction {P : List Operation → Board → Prop} (executor : Nat)
    (start : P [] { executor := executor })
    (step : ∀ ops b op, P ops b → P (ops ++ [op]) (op.perform b)) (ops : List Operation) :
    P ops (after executor ops) := by
  induction ops using List.reverseRecOn with
  | nil => exact start
  | append_singleton ops op ih =>
    rw [after, List.foldl_append]
    exact step ops _ op ih

/-- Whatever is done with a board, it is a map from phases and metrics to buckets: it has one entry
for a phase and one bucket for a metric of it, and its phases are in the order in which they came up
since they were last pruned. Every listing has each bucket once, in that order and then by the bytes
of the metric. A change through a name or a reference makes no bucket and touches none but its own,
a change of a phase touches the buckets of this phase, and pruning removes just these. A bucket in
which nothing has been counted begins when its phase was started last, unless it was changed by
something that moves its beginning. -/
theorem board_is_keyed_map (executor : Nat) (ops : List Operation) :
    KeyedMap ops (after executor ops) := by
  have listed : Listed ops (after executor ops) :=
    after_induction executor (listed_empty executor) (fun _ _ op h => h.perform op) ops
  have sorted : (after executor ops).Sorted :=
    after_induction (P := fun _ b => b.Sorted) executor (fun _ hp => nomatch hp)
      (fun _ _ op h => h.perform op) ops
  have dates : Dated ops (after executor ops) ∧ Begun ops (after executor ops) :=
    after_induction (P := fun ops b => Dated ops b ∧ Begun ops b) executor
      ⟨dated_empty executor, begun_empty executor⟩
      (fun _ _ op h => ⟨h.1.perform op, h.2.perform h.1 op⟩) ops
  have names : (after executor ops).phaseNames.Nodup :=
    listed.order.imp fun hb => hb.ne
  exact {
    phases := names
    metrics := fun p hp => (sorted p hp).nodup
    present := listed.mem
    order := listed.order
    snapshot := fun only => by
      have same : ∀ p : PhaseBuckets, p.metrics.map id = p.metrics := fun p => by
        simp only [Dict.map, id, List.map_id']
      have listing := lists_copies names listed.order sorted only id
      simp only [same] at listing
      exact listing
    windows := fun now => by
      have listing := lists_copies names listed.order sorted none fun c => (c.takeRecent now).1
      simp only [Option.all_none, List.filter_true] at listing
      exact listing
    update := rewrites_update _
    write := fun ref => rewrites_update _ ref.phase ref.metric
    apply := rewrites_applyToPhase _
    takeRecent := rewrites_takeRecent _
    ensure := fun phase metric now name m => bucket?_made _ phase metric now name m
    prune := fun phase => ⟨phaseNames_prune _ phase, fun name m => bucket?_prune _ phase name m⟩
    begun := dates.2
  }

/-- A phase that is started twice, with a bucket from before that and one that came later. -/
def twoStarts : List Operation :=
  [.ensure "login" "early" 700, .startPhase "login" 900, .startPhase "login" 1000,
    .ensure "login" "late" 1500, .applyToPhase "login" (·.finish 2000)]

theorem both_begin_with_phase : StartedAt twoStarts "login" 1000 2 ∧
    ∀ metric ∈ ["early", "late"], ∃ c,
      (after 0 twoStarts).bucket? "login" metric = some c ∧ c.start = 1000 := by
  have started : StartedAt twoStarts "login" 1000 2 := by
    refine ⟨rfl, fun j t hj hg => ?_, fun j hj hg => ?_⟩ <;>
      obtain _ | _ | _ | _ | _ | j := j <;> first | omega | cases hg
  have alone : ∀ metric, LeftAlone twoStarts "login" metric 2 := by
    rintro metric (_ | _ | _ | _ | _ | j) op f hj hg hw
    any_goals omega
    · cases hg
      rcases hw with hw | hw <;> cases hw
    · cases hg
      rcases hw with hw | hw
      · cases hw
      · cases hw
        exact Bucket.keepsBeginning_finish 2000
    · cases hg
  have empty : ∀ metric ∈ ["early", "late"], ∃ c,
      (after 0 twoStarts).bucket? "login" metric = some c ∧ c.total.requests = 0 := by
    intro metric hm
    rcases List.mem_pair.mp hm with rfl | rfl <;> exact ⟨_, rfl, rfl⟩
  refine ⟨started, fun metric hm => ?_⟩
  obtain ⟨c, hc, none⟩ := empty metric hm
  exact ⟨c, hc, (board_is_keyed_map 0 twoStarts).begun _ _ _ _ c started (alone metric) hc none⟩

/-- A phase whose bucket is said to begin at another time after the phase has started. -/
def startedByItself : List Operation :=
  [.startPhase "login" 1000, .ensure "login" "page" 1500, .applyToPhase "login" (·.begin 5)]

/-- An empty bucket need not begin with its phase if it is written by whatever one likes. -/
theorem begins_elsewhere : StartedAt startedByItself "login" 1000 0 ∧
    ∃ c, (after 0 startedByItself).bucket? "login" "page" = some c ∧ c.total.requests = 0 ∧
      c.start = 5 := by
  refine ⟨⟨rfl, fun j t hj hg => ?_, fun j hj hg => ?_⟩, _, rfl, rfl, rfl⟩ <;>
    obtain _ | _ | _ | j := j <;> first | omega | cases hg

end Board
end LoadGen
