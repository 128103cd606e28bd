import LoadGen.Proofs.SurveyOrders

namespace LoadGen

/-- When a phase started on a loop, and when its buckets did. -/
def PhaseBuckets.dates (p : PhaseBuckets) : String × Option Nat × List (String × Nat) :=
  (p.phase, p.startedAt, p.metrics.entries.map fun (metric, c) => (metric, c.start))

namespace Board

def dates (b : Board) : List (String × Option Nat × List (String × Nat)) :=
  b.phases.map PhaseBuckets.dates

theorem phaseNames_eq (b : Board) : b.phaseNames = b.dates.map (·.1) := by
  simp [phaseNames, dates, PhaseBuckets.dates]

theorem phaseNames_of_dates {b b' : Board} (h : b'.dates = b.dates) :
    b'.phaseNames = b.phaseNames := by
  rw [phaseNames_eq, phaseNames_eq, h]

theorem dates_map (b : Board) {g : PhaseBuckets → PhaseBuckets} (h : ∀ p, (g p).dates = p.dates) :
    ({ b with phases := b.phases.map g } : Board).dates = b.dates := by
  simp [dates, h]

theorem dates_update (b : Board) (phase metric : String) {f : Bucket → Bucket}
    (hf : ∀ c, (f c).start = c.start) : (b.update phase metric f).dates = b.dates := by
  apply dates_map
  intro p
  split
  · simp only [PhaseBuckets.dates, Dict.modify, List.map_map]
    congr 2
    apply List.map_congr_left
    intro q _
    simp only [Function.comp]
    split <;> simp [hf]
  · rfl

theorem dates_applyToPhase (b : Board) (phase : String) {f : Bucket → Bucket}
    (hf : ∀ c, (f c).start = c.start) : (b.applyToPhase phase f).dates = b.dates := by
  apply dates_map
  intro p
  split
  · simp [PhaseBuckets.dates, Dict.map, hf]
  · rfl

theorem dates_takeRecent (b : Board) (now : Nat) : (b.takeRecent now).2.dates = b.dates := by
  apply dates_map
  intro p
  simp [PhaseBuckets.dates, Dict.map, Bucket.takeRecent]

theorem mem_phaseNames_alter {phase name : String} {f : PhaseBuckets → PhaseBuckets}
    (hf : ∀ p, (f p).phase = p.phase) {l : List PhaseBuckets} :
    name ∈ (alter phase f l).map (·.phase) ↔ name ∈ l.map (·.phase) ∨ name = phase := by
  induction l with
  | nil => simp [alter, hf]
  | cons p rest ih =>
    simp only [alter]
    split
    · rename_i he
      simp only [List.map_cons, hf, List.mem_cons, he]
      tauto
    · simp only [List.map_cons, List.mem_cons, ih]
      tauto

theorem mem_phaseNames_startPhase {b : Board} {phase name : String} {now : Nat} :
    name ∈ (b.startPhase phase now).phaseNames ↔ name ∈ b.phaseNames ∨ name = phase :=
  mem_phaseNames_alter (f := fun p =>
    { p with startedAt := some now, metrics := p.metrics.map (·.begin now) }) fun _ => rfl

theorem mem_phaseNames_ensure {b : Board} {phase metric name : String} {now : Nat} :
    name ∈ (b.ensure phase metric now).phaseNames ↔ name ∈ b.phaseNames ∨ name = phase :=
  mem_phaseNames_alter fun p => by split <;> rfl

theorem mem_phaseNames_prune {b : Board} {phase name : String} :
    name ∈ (b.prune phase).phaseNames ↔ name ∈ b.phaseNames ∧ name ≠ phase := by
  simp only [phaseNames, prune, List.mem_map, List.mem_filter]
  constructor
  · intro held
    obtain ⟨p, ⟨hp, hne⟩, rfl⟩ := held
    exact ⟨⟨p, hp, rfl⟩, by simpa using hne⟩
  · intro held
    obtain ⟨⟨p, hp, rfl⟩, hne⟩ := held
    exact ⟨p, ⟨hp, by simpa using hne⟩, rfl⟩

theorem prune_others (b : Board) {phase other : String} (h : other ≠ phase) :
    Board.entry? (b.prune phase) other = b.entry? other := by
  rw [entry?_prune, if_neg h]

end Board

namespace Runner

def current? (r : Runner) (key : String) : Option String := (r.groups.get? key).bind (·.current)

/-- The boards have the same dates. New orders come last, and no phase is to be written down with
them. -/
structure SameDates (r r' : Runner) : Prop where
  size : r'.loops.size = r.loops.size
  groups : r'.groups.keys = r.groups.keys
  currents : ∀ key, r'.current? key = r.current? key
  keys : ∀ phase, r'.keyOf phase = r.keyOf phase
  dates : ∀ key loop, (r'.board? key loop).map Board.dates = (r.board? key loop).map Board.dates
  orders : ∀ loop, ∃ more, r'.orders loop = r.orders loop ++ more ∧ ∀ t ∈ more, t.isStamp = false

theorem current?_modifyBoard (r : Runner) (key : String) (loop : Nat) (f : Board → Board)
    (other : String) : (r.modifyBoard key loop f).current? other = r.current? other := by
  simp only [current?, Runner.modifyBoard, Runner.modifyGroup, Dict.get?_modify]
  split
  · cases r.groups.get? other <;> rfl
  · rfl

section Queue

theorem orders_foldl_push {α : Type} (place : α → Nat) (task : α → Task)
    (ht : ∀ a, (task a).isOrder = true) {l : List α} {r : Runner} (hr : r.loops.Running)
    (hp : ∀ a ∈ l, place a < r.loops.size) (loop : Nat) :
    (l.foldl (fun r a => r.push (place a) (task a)) r).orders loop =
      r.orders loop ++ (l.filter (place · = loop)).map task := by
  induction l generalizing r with
  | nil => simp
  | cons a l ih =>
    have size : (r.push (place a) (task a)).loops.size = r.loops.size := LoopGroup.size_push ..
    have inside := hp a List.mem_cons_self
    have rest := ih (LoopGroup.running_push hr (place a) (task a)) fun b hb => by
      rw [size]
      exact hp b (List.mem_cons_of_mem _ hb)
    rw [List.foldl_cons, rest, orders_push hr inside (ht a), List.filter_cons]
    by_cases he : place a = loop <;> simp [he]

theorem filter_range (n loop : Nat) :
    (List.range n).filter (· = loop) = if loop < n then [loop] else [] := by
  induction n with
  | zero => simp
  | succ n ih =>
    rw [List.range_succ, List.filter_append, ih]
    by_cases he : n = loop
    · simp [he]
    · have less : loop < n + 1 ↔ loop < n := by omega
      simp [he, less]

theorem orders_enterGroup {r : Runner} (hr : r.loops.Running) (key name : String) (loop : Nat) :
    (r.enterGroup key name).orders loop =
      r.orders loop ++ if loop < r.loops.size then [.stamp key name r.now] else [] := by
  have entered := orders_foldl_push id (fun _ => .stamp key name r.now) (fun _ => rfl)
    (l := List.range r.loops.size) (r := r.modifyGroup key fun g => { g with current := some name })
    hr (fun _ ha => List.mem_range.mp ha) loop
  simp only [id_eq, filter_range] at entered
  refine entered.trans ?_
  split <;> rfl

theorem mem_orders_beginPruning {r : Runner} (hr : r.loops.Running) {phase key : String}
    (hq : phase ∈ r.pruneQueue) (hk : key ∈ r.groups.keys) {loop : Nat} (hl : loop < r.loops.size) :
    ∃ more, r.beginPruning.2.orders loop = r.orders loop ++ more ∧
      .prune key phase ∈ more ∧ ∀ t ∈ more, t.isStamp = false := by
  have inside : ∀ p ∈ r.pruneQueue.flatMap fun phase => r.groups.keys.flatMap fun key =>
      (List.range r.loops.size).map fun e => (phase, key, e), p.2.2 < r.loops.size := by
    simp only [List.mem_flatMap, List.mem_map, List.mem_range]
    rintro _ ⟨_, _, _, _, _, he, rfl⟩
    exact he
  refine ⟨_, orders_foldl_push (fun p : String × String × Nat => p.2.2)
    (fun p => .prune p.2.1 p.1) (fun _ => rfl) (r := { r with pruneQueue := [] }) hr inside loop,
    ?_, ?_⟩
  · simp only [List.mem_map, List.mem_filter, List.mem_flatMap, List.mem_range, decide_eq_true_eq]
    exact ⟨(phase, key, loop), ⟨⟨phase, hq, key, hk, loop, hl, rfl⟩, rfl⟩, rfl⟩
  · intro t ht
    obtain ⟨p, _, rfl⟩ := List.mem_map.mp ht
    rfl

end Queue

namespace SameDates
variable {r r₁ r₂ r' : Runner}

theorem unmoved (h : r'.loops = r.loops) (loop : Nat) :
    ∃ more, r'.orders loop = r.orders loop ++ more ∧ ∀ t ∈ more, t.isStamp = false :=
  ⟨[], by simp [Runner.orders, h], by simp⟩

theorem elsewhere (hl : r'.loops = r.loops) (hi : r'.instances = r.instances)
    (hg : r'.groups = r.groups) : SameDates r r' where
  size := by rw [hl]
  groups := by rw [hg]
  currents := fun _ => by rw [current?, current?, hg]
  keys := fun _ => by rw [keyOf, keyOf, hi]
  dates := fun _ _ => by rw [board?, board?, hg]
  orders := unmoved hl

theorem refl (r : Runner) : SameDates r r := elsewhere rfl rfl rfl

theorem trans (h : SameDates r r₁) (k : SameDates r₁ r₂) : SameDates r r₂ where
  size := k.size.trans h.size
  groups := k.groups.trans h.groups
  currents := fun key => (k.currents key).trans (h.currents key)
  keys := fun phase => (k.keys phase).trans (h.keys phase)
  dates := fun key loop => (k.dates key loop).trans (h.dates key loop)
  orders := by
    intro loop
    obtain ⟨more, he, hn⟩ := h.orders loop
    obtain ⟨more', he', hn'⟩ := k.orders loop
    refine ⟨more ++ more', by rw [he', he, List.append_assoc], fun t ht => ?_⟩
    exact (List.mem_append.mp ht).elim (hn t) (hn' t)

theorem push (r : Runner) (loop : Nat) {t : Task} (ht : t.isStamp = false) :
    SameDates r (r.push loop t) :=
  { refl r with
    size := LoopGroup.size_push ..
    orders := by
      intro other
      cases ho : t.isOrder with
      | false => exact ⟨[], by simp [(SameRecord.push r loop ho).orders], by simp⟩
      | true =>
        rcases orders_push_or r loop ho other with he | he
        · exact ⟨[], by simp [he], by simp⟩
        · exact ⟨[t], he, by simpa using ht⟩ }

theorem foldl {α : Type} {f : Runner → α → Runner} (h : ∀ r a, SameDates r (f r a)) (r : Runner)
    (l : List α) : SameDates r (l.foldl f r) := by
  induction l generalizing r with
  | nil => exact refl r
  | cons a l ih => exact (h r a).trans (ih (f r a))

theorem modifyBoard (r : Runner) (key : String) (loop : Nat) {f : Board → Board}
    (hf : ∀ b, (f b).dates = b.dates) : SameDates r (r.modifyBoard key loop f) :=
  { refl r with
    groups := Dict.keys_modify ..
    currents := current?_modifyBoard r key loop f
    dates := by
      intro key' loop'
      rw [board?_modifyBoard]
      split
      · simp [Function.comp_def, hf]
      · rfl
    orders := unmoved rfl }

theorem stand (r : Runner) (phase : String) (s : Standing) :
    SameDates r (r.modifyInstance phase fun i => { i with standing := s }) :=
  { refl r with
    keys := keyOf_modifyInstance r phase fun _ => rfl
    orders := unmoved rfl }

theorem deliver (r : Runner) (phase : String) (n : Notice) : SameDates r (r.deliver phase n) := by
  rw [deliver_eq]
  exact elsewhere rfl rfl rfl

theorem lower (r : Runner) (loop fence : Nat) (f : Fence) : SameDates r (r.lower loop fence f) :=
  (modifyBoard r f.group loop fun b =>
      b.dates_applyToPhase f.phase (f := (·.finish f.time)) fun _ => rfl).trans
    (elsewhere rfl rfl rfl)

theorem sealed (r : Runner) (loop fence : Nat) : SameDates r (r.sealed loop fence) := by
  cases hf : r.fences[fence]? with
  | none =>
    simp only [Runner.sealed, hf]
    exact refl r
  | some f =>
    rw [sealed_eq hf]
    split
    · exact (lower r loop fence f).trans (push _ 0 rfl)
    · exact lower r loop fence f

theorem announce (r : Runner) (fence : Nat) : SameDates r (r.announce fence) := by
  simp only [Runner.announce]
  split
  · exact refl r
  · split
    · exact deliver ..
    · exact elsewhere rfl rfl rfl

theorem read (loop survey slot : Nat) (key : String) (r : Runner) :
    SameDates r (r.read loop survey slot key) := by
  unfold Runner.read
  split
  · rename_i s b _ hb
    split
    · exact elsewhere rfl rfl rfl
    · rename_i now _
      have closed : SameDates r (r.modifyBoard key loop fun _ => (b.takeRecent now).2) := by
        refine { refl r with
          groups := Dict.keys_modify ..
          currents := current?_modifyBoard r key loop _
          dates := fun key' loop' => ?_
          orders := unmoved rfl }
        rw [board?_modifyBoard]
        split
        · rename_i he
          obtain ⟨rfl, rfl⟩ := he
          have there : r.board? key' loop' = some b := hb
          simp [there, b.dates_takeRecent now]
        · rfl
      exact closed.trans (elsewhere rfl rfl rfl)
  · exact refl r

theorem sealOn (here : Option Nat) (fence : Nat) (f : Fence) (r : Runner) (executor : Nat) :
    SameDates r (sealOn here fence f r executor) := by
  unfold Runner.sealOn
  split
  · exact modifyBoard r f.group executor fun b =>
      b.dates_applyToPhase f.phase (f := (·.finish f.time)) fun _ => rfl
  · split
    · exact (push r executor (t := .seal fence) rfl).trans (elsewhere rfl rfl rfl)
    · exact elsewhere rfl rfl rfl

theorem raiseFence (here : Option Nat) (f : Fence) (r : Runner) :
    SameDates r (raiseFence here f r) := by
  have noted : SameDates r { r with fences := r.fences ++ [f] } := elsewhere rfl rfl rfl
  refine noted.trans (.trans ?_ (push _ 0 (t := .announce r.fences.length) rfl))
  exact foldl (sealOn here r.fences.length f) _ _

theorem beginSurvey (r : Runner) (recent : Option Nat) : SameDates r (r.beginSurvey recent).2 := by
  have noted : ∀ surveys, SameDates r { r with surveys := surveys } := fun _ =>
    elsewhere rfl rfl rfl
  exact (noted _).trans (foldl (fun r (p : (String × Nat) × Nat) =>
    push r p.1.2 (t := .read _ p.2 p.1.1) rfl) _ _)

theorem beginPruning (r : Runner) : SameDates r r.beginPruning.2 := by
  have emptied : SameDates r { r with pruneQueue := [] } := elsewhere rfl rfl rfl
  exact emptied.trans (foldl (fun r (p : String × String × Nat) =>
    push r p.2.2 (t := .prune p.2.1 p.1) rfl) _ _)

end SameDates

theorem SameRecord.dates {r r' : Runner} (h : SameRecord r r') : SameDates r r' where
  size := h.size
  groups := h.groups
  currents := by
    intro key
    have view : ∀ q : Runner, q.current? key =
        ((q.groups.get? key).map Group.record).bind Prod.fst := by
      intro q
      rw [current?, Option.bind_map]
      rfl
    rw [view, view, h.records]
  keys := h.keyOf_eq
  dates := fun key loop => by rw [h.ends.boards]
  orders := fun loop => ⟨[], by rw [h.orders, List.append_nil], by simp⟩

/-- A change of the dates, or of the orders to write them down. -/
inductive Dating (r : Runner) : Runner → Prop
  | same {r' : Runner} : SameDates r r' → Dating r r'
  | ensure {phase key : String} (loop : Nat) (metric : String) :
      r.keyOf phase = some key → r.status? phase ≠ some .terminated →
        Dating r (r.modifyBoard key loop (·.ensure phase metric r.now))
  | enter {phase key : String} : r.keyOf phase = some key → r.status? phase = some .notStarted →
      Dating r (r.enterGroup key phase)

theorem dates_move {r : Runner} (here : Option Nat) {phase : String} {i : Instance} {s : Standing}
    (hi : r.instances.get? phase = some i)
    (hg : ∀ key, r.keyOf phase = some key → (r.groups.get? key).isSome) :
    SameDates r (r.move here phase s) := by
  obtain ⟨r₁, same, hm⟩ := move_cases here (s := s) hi hg
  have stood := (SameDates.stand r phase s).trans same.dates
  rcases hm with ⟨_, he⟩ | ⟨key, _, _, he⟩
  · rw [he]
    exact stood.trans (.deliver ..)
  · rw [he]
    exact stood.trans (.raiseFence ..)

theorem Stage.dating {r r' : Runner} (h : Stage r r') : Dating r r' := by
  cases h with
  | same h => exact .same h.dates
  | ensure loop metric hk ht => exact .ensure loop metric hk ht
  | record b stamp e =>
    exact .same (.modifyBoard r b.group b.executor fun c =>
      c.dates_update b.phase b.metric fun _ => rfl)
  | enter hk hn => exact .enter hk hn
  | move here hi _ hg _ => exact .same (dates_move here hi hg)

theorem Upshot.dates {r r' : Runner} {here : Option Nat} (o : r.Owned) (h : Upshot r here r') :
    SameDates r r' := by
  cases h with
  | same h => exact h.dates
  | @move r₁ phase i s h hi _ _ =>
    refine h.dates.trans (dates_move here hi fun key hk => h.grouped (o.grouped phase key ?_))
    rw [← h.keyOf_eq]
    exact hk

/-- A change leaves the dates as they are, unless a session asks for a metric. -/
theorem Shift.dates {m : Remit} {r r' : Runner} (o : r.Owned) (h : Shift m r r') : SameDates r r' ∨
    ∃ session metric b, m.buckets session ∧ r.AtWork session ∧
      r.bucketFor session metric = .ok (b, r') := by
  cases h with
  | aside h => exact .inl h.record.dates
  | @ensure session s phase metric hb work hs hp =>
    refine .inr ⟨session, metric, ⟨s.group, s.executor, phase, metric⟩, hb, work, ?_⟩
    simp only [bucketFor, hs, hp]
  | record b stamp e =>
    exact .inl (.modifyBoard r b.group b.executor fun c =>
      c.dates_update b.phase b.metric fun _ => rfl)
  | clock => exact .inl (.elsewhere rfl rfl rfl)
  | deed here d _ hd h => exact .inl ((effect_of_deed hd h).upshot.dates o)

theorem dates_perform (loop : Nat) (r : Runner) {t : Task} (ht : t.isOrder = true)
    (hs : t.isStamp = false) (hp : ∀ key phase, t ≠ .prune key phase) :
    SameDates r (r.perform loop t) := by
  cases t with
  | stamp => cases hs
  | «seal» fence => exact .sealed r loop fence
  | announce fence => exact .announce r fence
  | read survey slot key => exact .read loop survey slot key r
  | prune key phase => exact absurd rfl (hp key phase)
  | resume => cases ht
  | pace => cases ht
  | expire => cases ht

end Runner
end LoadGen
