import LoadGen.Measure.Board

namespace LoadGen

namespace Window

/-- The same counts, said to begin at another time. -/
def dated (w : Window) (since : Nat) : Window := { w with since := since }

@[simp] theorem dated_dated (w : Window) (s t : Nat) : (w.dated s).dated t = w.dated t := rfl

@[simp] theorem dated_add (w : Window) (since : Nat) (e : Event) :
    (w.dated since).add e = (w.add e).dated since := by
  cases e <;> rfl

theorem dated_foldl (w : Window) (since : Nat) (events : List Event) :
    events.foldl add (w.dated since) = (events.foldl add w).dated since := by
  induction events generalizing w with
  | nil => rfl
  | cons e rest ih => rw [List.foldl_cons, dated_add, ih, List.foldl_cons]

end Window

namespace Bucket

/-- A bucket some time later. It may have counted more events, and its measurement may have been
said to begin, but no count was taken away. -/
def Counted (b c : Bucket) : Prop :=
  ∃ (events : List Event) (since : Nat), c.total = events.foldl .add (b.total.dated since)

/-- A bucket some time later, whose end is the same. -/
structure Grown (b c : Bucket) : Prop where
  stop : c.stop = b.stop
  counted : Counted b c

theorem Counted.refl (b : Bucket) : Counted b b := ⟨[], b.total.since, rfl⟩

theorem Counted.trans {a b c : Bucket} (h : Counted a b) (k : Counted b c) : Counted a c := by
  obtain ⟨es, s, he⟩ := h
  obtain ⟨fs, t, hf⟩ := k
  refine ⟨es ++ fs, t, ?_⟩
  rw [hf, he, List.foldl_append]
  simp only [Window.dated_foldl, Window.dated_dated]

theorem Grown.refl (b : Bucket) : Grown b b := ⟨rfl, .refl b⟩

theorem grown_begin (b : Bucket) (now : Nat) : Grown b (b.begin now) := by
  unfold begin
  split
  · exact ⟨rfl, [], now, rfl⟩
  · exact .refl b

theorem grown_record (b : Bucket) (stamp : Nat) (e : Event) : Grown b (b.record stamp e) :=
  ⟨rfl, [e], b.total.since, rfl⟩

theorem grown_takeRecent (b : Bucket) (now : Nat) : Grown b (b.takeRecent now).2 :=
  ⟨rfl, [], b.total.since, rfl⟩

end Bucket

namespace Board

/-- The board has the bucket for the phase and the metric. -/
def Holds (b : Board) (phase metric : String) (c : Bucket) : Prop :=
  ∃ p ∈ b.phases, p.phase = phase ∧ (metric, c) ∈ p.metrics.entries

/-- Every bucket of the phase has ended at that time. -/
def Ended (b : Board) (phase : String) (time : Nat) : Prop :=
  ∀ metric c, b.Holds phase metric c → c.stop = some time

/-- One board has the buckets of another, each of them changed in some way. -/
structure Mapped (b b' : Board) (R : String → Bucket → Bucket → Prop) : Prop where
  executor : b'.executor = b.executor
  back : ∀ phase metric c', b'.Holds phase metric c' →
    ∃ c, b.Holds phase metric c ∧ R phase c c'
  forth : ∀ phase metric c, b.Holds phase metric c →
    ∃ c', b'.Holds phase metric c' ∧ R phase c c'

theorem mem_snapshot {b : Board} {s : Snapshot} :
    s ∈ b.snapshot ↔ b.Holds s.phase s.metric s.bucket ∧ s.executor = b.executor := by
  simp only [snapshot, List.mem_flatMap, List.mem_filter, Option.all_none, and_true, snapshotsOf,
    List.mem_map]
  constructor
  · intro held
    obtain ⟨p, hp, ⟨metric, c⟩, hc, rfl⟩ := held
    exact ⟨⟨p, hp, rfl, hc⟩, rfl⟩
  · intro held
    obtain ⟨⟨p, hp, he, hc⟩, hx⟩ := held
    refine ⟨p, hp, (s.metric, s.bucket), hc, ?_⟩
    rw [he, ← hx]

theorem mapped_map {b : Board} {R : String → Bucket → Bucket → Prop}
    {g : PhaseBuckets → PhaseBuckets} (hp : ∀ p, (g p).phase = p.phase)
    (hm : ∀ p, ∃ h : String → Bucket → Bucket,
      (g p).metrics.entries = p.metrics.entries.map (fun q => (q.1, h q.1 q.2)) ∧
        ∀ metric c, R p.phase c (h metric c)) :
    Mapped b { b with phases := b.phases.map g } R where
  executor := rfl
  back := by
    intro phase metric c' held
    obtain ⟨p', hp', rfl, hc⟩ := held
    obtain ⟨p, hin, rfl⟩ := List.mem_map.mp hp'
    obtain ⟨h, he, hr⟩ := hm p
    rw [he] at hc
    obtain ⟨⟨m, c⟩, hq, heq⟩ := List.mem_map.mp hc
    cases heq
    rw [hp]
    exact ⟨c, ⟨p, hin, rfl, hq⟩, hr m c⟩
  forth := by
    intro phase metric c held
    obtain ⟨p, hin, rfl, hc⟩ := held
    obtain ⟨h, he, hr⟩ := hm p
    refine ⟨h metric c, ⟨g p, List.mem_map_of_mem hin, hp p, ?_⟩, hr metric c⟩
    rw [he]
    exact List.mem_map.mpr ⟨(metric, c), hc, rfl⟩

theorem mapped_update (b : Board) (phase metric : String) {f : Bucket → Bucket}
    (hf : ∀ c, Bucket.Grown c (f c)) :
    Mapped b (b.update phase metric f) fun _ => Bucket.Grown := by
  refine mapped_map (fun p => ?_) fun p => ?_
  · split <;> rfl
  · split
    · refine ⟨fun m c => if m = metric then f c else c, ?_, fun m c => ?_⟩
      · refine List.map_congr_left fun ⟨m, c⟩ _ => ?_
        dsimp only
        split <;> rfl
      · dsimp only
        split
        · exact hf c
        · exact .refl c
    · exact ⟨fun _ c => c, (List.map_id _).symm, fun _ c => .refl c⟩

theorem mapped_takeRecent (b : Board) (now : Nat) :
    Mapped b (b.takeRecent now).2 fun _ => Bucket.Grown :=
  mapped_map (fun _ => rfl) fun _ =>
    ⟨fun _ c => (c.takeRecent now).2, rfl, fun _ c => Bucket.grown_takeRecent c now⟩

theorem mapped_finish (b : Board) (phase : String) (time : Nat) :
    Mapped b (b.applyToPhase phase (·.finish time)) fun p c c' =>
      c' = if p = phase then c.finish time else c := by
  refine mapped_map (fun p => ?_) fun p => ?_
  · split <;> rfl
  · split
    · exact ⟨fun _ c => c.finish time, rfl, fun _ _ => rfl⟩
    · exact ⟨fun _ c => c, (List.map_id _).symm, fun _ _ => rfl⟩

theorem mem_alter {phase : String} {f : PhaseBuckets → PhaseBuckets} {l : List PhaseBuckets}
    {p : PhaseBuckets} (h : p ∈ alter phase f l) :
    p ∈ l ∨ ∃ q, (q ∈ l ∨ q = { phase := phase }) ∧ q.phase = phase ∧ p = f q := by
  induction l with
  | nil => exact .inr ⟨_, .inr rfl, rfl, List.mem_singleton.mp h⟩
  | cons a rest ih =>
    simp only [alter] at h
    split at h
    · rename_i he
      rcases List.mem_cons.mp h with rfl | h
      · exact .inr ⟨a, .inl List.mem_cons_self, he, rfl⟩
      · exact .inl (List.mem_cons_of_mem _ h)
    · rcases List.mem_cons.mp h with rfl | h
      · exact .inl List.mem_cons_self
      · rcases ih h with hl | ⟨q, hq, hp, he⟩
        · exact .inl (List.mem_cons_of_mem _ hl)
        · exact .inr ⟨q, hq.imp_left (List.mem_cons_of_mem _), hp, he⟩

theorem mem_alter_of_mem (phase : String) (f : PhaseBuckets → PhaseBuckets)
    {l : List PhaseBuckets} {p : PhaseBuckets} (h : p ∈ l) :
    p ∈ alter phase f l ∨ (p.phase = phase ∧ f p ∈ alter phase f l) := by
  induction l with
  | nil => simp at h
  | cons a rest ih =>
    simp only [alter]
    split
    · rename_i he
      rcases List.mem_cons.mp h with rfl | h
      · exact .inr ⟨he, List.mem_cons_self⟩
      · exact .inl (List.mem_cons_of_mem _ h)
    · rcases List.mem_cons.mp h with rfl | h
      · exact .inl List.mem_cons_self
      · exact (ih h).imp (List.mem_cons_of_mem _) fun h => ⟨h.1, List.mem_cons_of_mem _ h.2⟩

theorem mapped_startPhase (b : Board) (phase : String) (now : Nat) :
    Mapped b (b.startPhase phase now) fun _ => Bucket.Grown where
  executor := rfl
  back := by
    intro name metric c' held
    obtain ⟨p', hp', rfl, hc⟩ := held
    rcases mem_alter hp' with hp | ⟨p, hp, _, rfl⟩
    · exact ⟨c', ⟨p', hp, rfl, hc⟩, .refl c'⟩
    · obtain ⟨⟨m, c⟩, hm, he⟩ := List.mem_map.mp hc
      cases he
      rcases hp with hp | rfl
      · exact ⟨c, ⟨p, hp, rfl, hm⟩, Bucket.grown_begin c now⟩
      · cases hm
  forth := by
    intro name metric c held
    obtain ⟨p, hp, rfl, hc⟩ := held
    rcases mem_alter_of_mem phase (fun p =>
      { p with startedAt := some now, metrics := p.metrics.map (·.begin now) }) hp with hp | ⟨_, hp⟩
    · exact ⟨c, ⟨p, hp, rfl, hc⟩, .refl c⟩
    · exact ⟨c.begin now, ⟨_, hp, rfl, List.mem_map.mpr ⟨(metric, c), hc, rfl⟩⟩,
        Bucket.grown_begin c now⟩

theorem holds_ensure {b : Board} {phase metric : String} {now : Nat} {name m : String} {c : Bucket}
    (h : (b.ensure phase metric now).Holds name m c) :
    b.Holds name m c ∨ (name = phase ∧ m = metric ∧ c.stop = none) := by
  obtain ⟨p', hp', rfl, hc⟩ := h
  rcases mem_alter hp' with hp | ⟨p, hp, he, rfl⟩
  · exact .inl ⟨p', hp, rfl, hc⟩
  · have kept : ∀ p₁ : PhaseBuckets, p₁.phase = p.phase → (m, c) ∈ p.metrics.entries →
        b.Holds p₁.phase m c := by
      intro p₁ hp₁ hin
      rcases hp with hp | rfl
      · exact ⟨p, hp, hp₁.symm, hin⟩
      · cases hin
    split at hc
    · rename_i hk
      rw [if_pos hk]
      exact .inl (kept p rfl hc)
    · rename_i hk
      rw [if_neg hk]
      rcases Dict.mem_entries_insert hc with hc | hc
      · cases hc
        exact .inr ⟨he, rfl, rfl⟩
      · exact .inl (kept _ rfl hc)

theorem holds_ensure_of_holds {b : Board} (phase metric : String) (now : Nat) {name m : String}
    {c : Bucket} (h : b.Holds name m c) : (b.ensure phase metric now).Holds name m c := by
  obtain ⟨p, hp, rfl, hc⟩ := h
  rcases mem_alter_of_mem phase (fun p => if p.metrics.contains metric then p
    else { p with metrics := p.metrics.insert metric (.opened (p.startedAt.getD now)) }) hp with
    hp | ⟨_, hp⟩
  · exact ⟨p, hp, rfl, hc⟩
  · split at hp
    · exact ⟨p, hp, rfl, hc⟩
    · rename_i hn
      refine ⟨_, hp, rfl, Dict.mem_entries_insert_of_mem ?_ _ hc⟩
      intro same
      subst same
      exact hn (Dict.get?_isSome_of_mem_keys (List.mem_map_of_mem hc))

theorem holds_prune {b : Board} {phase name metric : String} {c : Bucket} :
    (b.prune phase).Holds name metric c ↔ b.Holds name metric c ∧ name ≠ phase := by
  constructor
  · intro held
    obtain ⟨p, hp, rfl, hc⟩ := held
    obtain ⟨hin, hne⟩ := List.mem_filter.mp hp
    exact ⟨⟨p, hin, rfl, hc⟩, by simpa using hne⟩
  · intro held
    obtain ⟨⟨p, hp, rfl, hc⟩, hne⟩ := held
    exact ⟨p, List.mem_filter.mpr ⟨hp, by simpa using hne⟩, rfl, hc⟩

section Lookup
variable (b : Board) (phase metric name m : String) (now : Nat) (f : Bucket → Bucket)

theorem find?_alter (phase : String) (f : PhaseBuckets → PhaseBuckets)
    (hf : ∀ p, (f p).phase = p.phase) (l : List PhaseBuckets) (name : String) :
    (alter phase f l).find? (·.phase == name) =
      if name = phase then some (f ((l.find? (·.phase == phase)).getD { phase := phase }))
      else l.find? (·.phase == name) := by
  induction l with
  | nil =>
    by_cases hn : name = phase
    · simp [alter, hf, hn]
    · simp [alter, hf, hn, Ne.symm hn]
  | cons p rest ih =>
    by_cases hp : p.phase = phase
    · by_cases hn : name = phase
      · simp [alter, hf, hp, hn]
      · simp [alter, hf, hp, hn, Ne.symm hn]
    · by_cases hn : name = phase
      · subst hn
        simp [alter, hp, ih]
      · simp only [alter, hp, if_false, List.find?_cons, ih, hn]

/-- Looking an entry up in entries that were changed under the names they have. -/
theorem find?_map {g : PhaseBuckets → PhaseBuckets} (hg : ∀ p, (g p).phase = p.phase)
    (l : List PhaseBuckets) (name : String) :
    (l.map g).find? (·.phase == name) = (l.find? (·.phase == name)).map g := by
  rw [List.find?_map]
  congr 2
  funext p
  simp only [Function.comp, hg]

/-- When the phase started, if it has an entry and has started since that was made. -/
def startedAt? (b : Board) (phase : String) : Option Nat := (b.entry? phase).bind (·.startedAt)

variable {b phase name} in
theorem entry?_phase {p : PhaseBuckets} (h : b.entry? name = some p) : p.phase = name := by
  simpa using List.find?_some h

theorem entry?_startPhase : Board.entry? (b.startPhase phase now) name =
    if name = phase then
      let p := (b.entry? phase).getD { phase := phase }
      some { p with startedAt := some now, metrics := p.metrics.map (·.begin now) }
    else b.entry? name :=
  find?_alter phase (fun p =>
    { p with startedAt := some now, metrics := p.metrics.map (·.begin now) })
    (fun _ => rfl) b.phases name

theorem bucket?_startPhase : (b.startPhase phase now).bucket? name m =
    if name = phase then (b.bucket? name m).map (·.begin now) else b.bucket? name m := by
  rw [bucket?, entry?_startPhase]
  split
  · rename_i he
    subst he
    rw [bucket?]
    cases b.entry? name with
    | none => rfl
    | some p => simp
  · rfl

theorem startedAt?_startPhase : (b.startPhase phase now).startedAt? name =
    if name = phase then some now else b.startedAt? name := by
  rw [startedAt?, entry?_startPhase]
  split <;> rfl

theorem entry?_update : Board.entry? (b.update phase metric f) name = (b.entry? name).map fun p =>
    if p.phase = phase then { p with metrics := p.metrics.modify metric f } else p :=
  find?_map (fun p => by split <;> rfl) b.phases name

theorem bucket?_update : (b.update phase metric f).bucket? name m =
    if name = phase ∧ m = metric then (b.bucket? name m).map f else b.bucket? name m := by
  rw [bucket?, entry?_update, bucket?]
  cases hp : b.entry? name with
  | none => simp
  | some p =>
    have named := entry?_phase hp
    by_cases hn : name = phase
    · by_cases hm : m = metric
      · simp [named, hn, hm]
      · simp [named, hn, hm, Dict.get?_modify_of_ne]
    · simp [named, hn]

theorem startedAt?_update : (b.update phase metric f).startedAt? name = b.startedAt? name := by
  rw [startedAt?, entry?_update, startedAt?]
  cases b.entry? name with
  | none => rfl
  | some p =>
    simp only [Option.map_some, Option.bind_some]
    split <;> rfl

theorem entry?_applyToPhase : Board.entry? (b.applyToPhase phase f) name =
    (b.entry? name).map fun p =>
      if p.phase = phase then { p with metrics := p.metrics.map f } else p :=
  find?_map (fun p => by split <;> rfl) b.phases name

theorem bucket?_applyToPhase : (b.applyToPhase phase f).bucket? name m =
    if name = phase then (b.bucket? name m).map f else b.bucket? name m := by
  rw [bucket?, entry?_applyToPhase, bucket?]
  cases hp : b.entry? name with
  | none => simp
  | some p =>
    have named := entry?_phase hp
    by_cases hn : name = phase <;> simp [named, hn]

theorem startedAt?_applyToPhase :
    (b.applyToPhase phase f).startedAt? name = b.startedAt? name := by
  rw [startedAt?, entry?_applyToPhase, startedAt?]
  cases b.entry? name with
  | none => rfl
  | some p =>
    simp only [Option.map_some, Option.bind_some]
    split <;> rfl

theorem entry?_takeRecent : Board.entry? (b.takeRecent now).2 name = (b.entry? name).map fun p =>
    { p with metrics := p.metrics.map fun c => (c.takeRecent now).2 } :=
  find?_map (g := fun p : PhaseBuckets =>
    { p with metrics := p.metrics.map fun c => (c.takeRecent now).2 }) (fun _ => rfl) b.phases name

theorem bucket?_takeRecent : (b.takeRecent now).2.bucket? name m =
    (b.bucket? name m).map fun c => (c.takeRecent now).2 := by
  rw [bucket?, entry?_takeRecent, bucket?]
  cases b.entry? name <;> simp

theorem startedAt?_takeRecent : (b.takeRecent now).2.startedAt? name = b.startedAt? name := by
  rw [startedAt?, entry?_takeRecent, startedAt?]
  cases b.entry? name <;> rfl

theorem entry?_prune : Board.entry? (b.prune phase) name =
    if name = phase then none else b.entry? name := by
  rw [prune, entry?, List.find?_filter, entry?]
  split
  · rename_i he
    subst he
    simp
  · rename_i hne
    congr 1
    funext p
    by_cases hp : p.phase = name
    · simp [hp, hne]
    · simp [hp]

theorem bucket?_prune : (b.prune phase).bucket? name m =
    if name = phase then none else b.bucket? name m := by
  rw [bucket?, entry?_prune]
  split <;> rfl

theorem startedAt?_prune : (b.prune phase).startedAt? name =
    if name = phase then none else b.startedAt? name := by
  rw [startedAt?, entry?_prune]
  split <;> rfl

/-- The bucket that is asked for is there afterwards, and the others stay. A new one begins with its
phase if that has started, and else now. -/
theorem bucket?_made : ∀ name m, (b.ensure phase metric now).bucket? name m =
    if name = phase ∧ m = metric then
      some ((b.bucket? name m).getD (.opened ((b.startedAt? phase).getD now)))
    else b.bucket? name m := by
  intro name m
  have kept : ∀ p : PhaseBuckets, (if p.metrics.contains metric then p
      else { p with metrics := p.metrics.insert metric (.opened (p.startedAt.getD now)) }).phase =
      p.phase := by
    intro p
    split <;> rfl
  simp only [bucket?, startedAt?, ensure, entry?, find?_alter _ _ kept]
  by_cases hn : name = phase
  · subst hn
    rw [if_pos rfl]
    have view : ∀ o : Option PhaseBuckets, (o.bind fun p => p.metrics.get? m) =
        (o.getD { phase := name }).metrics.get? m := by
      intro o
      cases o <;> rfl
    have began : ∀ o : Option PhaseBuckets, (o.bind (·.startedAt)) =
        (o.getD { phase := name }).startedAt := by
      intro o
      cases o <;> rfl
    rw [view (b.phases.find? _), began (b.phases.find? _)]
    generalize (b.phases.find? (·.phase == name)).getD { phase := name } = p
    by_cases hm : m = metric
    · subst hm
      simp only [Option.bind_some, and_self, if_true]
      split
      · rename_i there
        obtain ⟨c, hc⟩ := Option.isSome_iff_exists.mp there
        simp [hc]
      · rename_i missing
        have gone : p.metrics.get? m = none := by simpa [Dict.contains] using missing
        simp [gone]
    · simp only [Option.bind_some, true_and, hm, if_false]
      split
      · rfl
      · exact Dict.get?_insert_of_ne hm _ _
  · simp [hn]

theorem startedAt?_ensure : (b.ensure phase metric now).startedAt? name = b.startedAt? name := by
  have kept : ∀ p : PhaseBuckets, (if p.metrics.contains metric then p
      else { p with metrics := p.metrics.insert metric (.opened (p.startedAt.getD now)) }).phase =
      p.phase := by
    intro p
    split <;> rfl
  simp only [startedAt?, ensure, entry?, find?_alter _ _ kept]
  split
  · rename_i he
    subst he
    cases b.phases.find? (·.phase == name) with
    | none => simp [Dict.contains, Dict.empty, Dict.get?, Dict.find]
    | some p =>
      simp only [Option.bind_some, Option.getD_some]
      split <;> rfl
  · rfl

end Lookup

end Board
end LoadGen
