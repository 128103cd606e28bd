import LoadGen.Proofs.Confinement

namespace LoadGen

theorem Dict.get?_erase_of_ne {α : Type} {key other : String} (h : other ≠ key) (d : Dict α) :
    (d.erase key).get? other = d.get? other := by
  obtain ⟨l⟩ := d
  simp only [get?, erase]
  induction l with
  | nil => rfl
  | cons p rest ih =>
    by_cases hk : p.1 = key
    · rw [List.filter_cons_of_neg (by simpa using hk), ih]
      simp [find, hk, h]
    · rw [List.filter_cons_of_pos (by simpa using hk)]
      simp only [find, ih]

theorem Standing.Onward.kept {now : Nat} {s t : Standing} (h : s.Onward now t) :
    t.active = s.active ∧ (t.status = .notStarted → s.status = .notStarted) := by
  refine ⟨h.active, fun he => absurd h.rank ?_⟩
  rw [he]
  exact Nat.not_lt_zero _

theorem Standing.start_kept {name : String} {now : Nat} {s t : Standing}
    (h : s.start name now = .ok t) :
    t.active = s.active ∧ (t.status = .notStarted → s.status = .notStarted) := by
  unfold start at h
  split at h
  · rename_i fresh
    cases h
    exact ⟨rfl, fun _ => fresh⟩
  · cases h

namespace Runner

/-- A step that comes down to writes inside a region, after which the same sessions are in hand. -/
abbrev Writes (home : String → Option String) (R : Region) (held : List Nat) (r r' : Runner) : Prop :=
  Touches home R (r, held) (r', held)

variable {home : String → Option String} {R : Region} {held : List Nat} {r r₁ r' : Runner}

theorem Writes.trans (h : Writes home R held r r₁) (k : Writes home R held r₁ r') :
    Writes home R held r r' := Relation.ReflTransGen.trans h k

theorem Writes.keyed (h : Writes home R held r r') (k : Keyed home r) : Keyed home r' := k.touches h

theorem Writes.abides (h : Writes home R held r r') : Abides r r' := Touches.abides h

theorem Writes.foldl {α : Type} {f : Runner → α → Runner} (h : ∀ r a, Writes home R held r (f r a))
    (r : Runner) (l : List α) : Writes home R held r (l.foldl f r) := by
  induction l generalizing r with
  | nil => exact .refl
  | cons a l ih => exact (h r a).trans (ih (f r a))

section Loops

theorem writes_notes (hi : r'.instances = r.instances) (hg : r'.groups = r.groups)
    (hs : r'.sessions = r.sessions) (hq : r'.requests = r.requests) (hr : r'.runs = r.runs)
    (hc : r'.runCount = r.runCount) (hp : r'.phases = r.phases)
    (hd : r'.destinations = r.destinations) (hl : r'.loops = r.loops) (ht : r'.pacers = r.pacers)
    (hf : r'.fences = r.fences) : Writes home R held r r' :=
  .single (.apart ⟨hi, hg, hs, hq, hr, hc, hp, hd, by rw [hl], fun _ _ => by rw [ht],
    fun f hm => .inl ⟨f, hf ▸ hm, rfl, rfl⟩, fun t h => .inl (by rwa [Pending, hl] at h)⟩)

/-- The loops change, and have no new task that would enter a phase into a foreign board. -/
theorem writes_loops (r : Runner) {loops : LoopGroup Task} (size : loops.size = r.loops.size)
    (tasks : ∀ t, ({ r with loops := loops } : Runner).Pending t → r.Pending t ∨ t.Homed home) :
    Writes home R held r { r with loops := loops } :=
  .single (.apart ⟨rfl, rfl, rfl, rfl, rfl, rfl, rfl, rfl, size, fun _ _ => rfl,
    fun f hm => .inl ⟨f, hm, rfl, rfl⟩, tasks⟩)

theorem writes_fewer (r : Runner) {loops : LoopGroup Task} (size : loops.size = r.loops.size)
    (posted : ∀ loop t, t ∈ loops.posted loop → t ∈ r.loops.posted loop)
    (timed : ∀ loop t, t ∈ loops.timed loop → ∃ other, t ∈ r.loops.timed other) :
    Writes home R held r { r with loops := loops } := by
  refine writes_loops r size fun t ht => .inl ?_
  obtain ⟨loop, ht | ht⟩ := ht
  · exact ⟨loop, .inl (posted loop t ht)⟩
  · obtain ⟨other, ho⟩ := timed loop t ht
    exact ⟨other, .inr ho⟩

theorem writes_push (r : Runner) (executor : Nat) {t : Task} (ht : t.Homed home) :
    Writes home R held r (r.push executor t) := by
  refine writes_loops r (LoopGroup.size_push ..) fun u hu => ?_
  obtain ⟨loop, hu | hu⟩ := hu
  · rcases r.loops.posted_push_or executor t loop with same | one
    · exact .inl ⟨loop, .inl (same ▸ hu)⟩
    · have hu : u ∈ r.loops.posted loop ++ [t] := one ▸ hu
      rcases List.mem_append.mp hu with hu | hu
      · exact .inl ⟨loop, .inl hu⟩
      · rw [List.mem_singleton.mp hu]
        exact .inr ht
  · exact .inl ⟨loop, .inr (LoopGroup.timed_push hu)⟩

theorem writes_foldl_push {α : Type} (place : α → Nat) (task : α → Task)
    (ht : ∀ a, (task a).Homed home) (l : List α) (r : Runner) :
    Writes home R held r (l.foldl (fun r a => r.push (place a) (task a)) r) :=
  Writes.foldl (fun r a => writes_push r (place a) (ht a)) r l

theorem writes_arm (r : Runner) (executor : Nat) (delay : Duration) {t : Task}
    (ht : t.Homed home) :
    Writes home R held r { r with loops := (r.loops.arm executor delay t).2 } := by
  have quiet := LoopGroup.quiet_arm r.loops executor delay t
  refine writes_loops r quiet.size fun u hu => ?_
  obtain ⟨loop, hu | hu⟩ := hu
  · exact .inl ⟨loop, .inl (quiet.posted loop ▸ hu)⟩
  · rcases LoopGroup.timed_arm hu with rfl | ⟨other, hu⟩
    · exact .inr ht
    · exact .inl ⟨other, .inr hu⟩

theorem writes_armAt (r : Runner) (executor : Nat) (due : Duration) {t : Task}
    (ht : t.Homed home) :
    Writes home R held r { r with loops := r.loops.armAt executor due t } := by
  have quiet := LoopGroup.quiet_armAt r.loops executor due t
  refine writes_loops r quiet.size fun u hu => ?_
  obtain ⟨loop, hu | hu⟩ := hu
  · exact .inl ⟨loop, .inl (quiet.posted loop ▸ hu)⟩
  · rcases LoopGroup.timed_armAt hu with rfl | ⟨other, hu⟩
    · exact .inr ht
    · exact .inl ⟨other, .inr hu⟩

theorem writes_disarm (r : Runner) (executor id : Nat) :
    Writes home R held r { r with loops := r.loops.disarm executor id } := by
  have quiet := LoopGroup.quiet_disarm r.loops executor id
  exact writes_fewer r quiet.size (fun loop t ht => quiet.posted loop ▸ ht)
    fun _ _ => LoopGroup.timed_disarm

theorem writes_advance (r : Runner) (executor : Nat) (time : Duration) :
    Writes home R held r { r with loops := r.loops.advance executor time } := by
  have quiet := LoopGroup.quiet_advance r.loops executor time
  exact writes_fewer r quiet.size (fun loop t ht => quiet.posted loop ▸ ht)
    fun _ _ => LoopGroup.timed_advance

theorem writes_next {loop : Nat} {t : Task} {loops : LoopGroup Task}
    (h : r.loops.next? loop = some (t, loops)) :
    Writes home R held r { r with loops := loops } ∧ r.Pending t := by
  have took := LoopGroup.took_of_next? h
  refine ⟨writes_fewer r took.size (fun other u hu => ?_) fun other u hu => ⟨other, took.timed _ _ hu⟩,
    loop, ?_⟩
  · by_cases he : other = loop
    · subst he
      rcases took.first with first | ⟨_, same⟩
      · rw [first]
        exact List.mem_cons_of_mem _ hu
      · exact same ▸ hu
    · exact took.others other he ▸ hu
  · rcases took.first with first | ⟨timed, _⟩
    · rw [first]
      exact .inl List.mem_cons_self
    · exact .inr timed

end Loops

section Groups

/-- A board of the group changes, and takes up phases of the group alone. -/
theorem writes_modifyBoard (r : Runner) {key : String} (executor : Nat) {f : Board → Board}
    (hk : R.keys key) (hf : ∀ g b, r.groups.get? key = some g → g.boards[executor]? = some b →
      (f b).executor = b.executor ∧
        ∀ phase ∈ (f b).phaseNames, phase ∈ b.phaseNames ∨ home phase = some key) :
    Writes home R held r (r.modifyBoard key executor f) := by
  refine .single (.group key hk fun g hg => { Group.Kept.refl _ g with
    boards := List.length_modify ..
    board := ?_ })
  intro loop b' hb'
  rw [List.getElem?_modify] at hb'
  split at hb'
  · rename_i he
    subst he
    obtain ⟨b, hb, rfl⟩ := Option.map_eq_some_iff.mp hb'
    exact ⟨b, hb, hf g b hg hb⟩
  · exact ⟨b', by simpa using hb', rfl, fun _ => .inl⟩

theorem writes_sameBoard (r : Runner) {key : String} (executor : Nat) {f : Board → Board}
    (hk : R.keys key) (hx : ∀ b, (f b).executor = b.executor)
    (hf : ∀ b, (f b).phaseNames = b.phaseNames) :
    Writes home R held r (r.modifyBoard key executor f) :=
  writes_modifyBoard r executor hk fun _ b _ _ => ⟨hx b, fun _ hm => .inl (hf b ▸ hm)⟩

theorem writes_modifyQueues (r : Runner) {key : String} (executor : Nat) (f : Queues → Queues)
    (hk : R.keys key) : Writes home R held r (r.modifyQueues key executor f) :=
  .single (.group key hk fun g _ => { Group.Kept.refl _ g with queues := List.length_modify .. })

end Groups

section Notices

theorem writes_deliver (r : Runner) (phase : String) (n : Notice) :
    Writes home R held r (r.deliver phase n) := by
  rw [deliver_eq]
  exact writes_notes rfl rfl rfl rfl rfl rfl rfl rfl rfl rfl rfl

theorem writes_report (r : Runner) (f : Failure) : Writes home R held r (r.report f) := by
  unfold report
  split <;> exact writes_notes rfl rfl rfl rfl rfl rfl rfl rfl rfl rfl rfl

theorem writes_endBuckets (r : Runner) (executor : Nat) (f : Fence) (hk : R.keys f.group) :
    Writes home R held r (r.endBuckets executor f) :=
  writes_sameBoard r executor hk (fun _ => rfl) fun b =>
    Board.phaseNames_of_dates (b.dates_applyToPhase f.phase fun _ => rfl)

theorem writes_modifyFence (r : Runner) (fence : Nat) {f : Fence → Fence}
    (h : ∀ g, (f g).phase = g.phase ∧ (f g).group = g.group) :
    Writes home R held r { r with fences := r.fences.modify fence f } := by
  refine .single (.apart ⟨rfl, rfl, rfl, rfl, rfl, rfl, rfl, rfl, rfl, fun _ _ => rfl, ?_,
    fun _ => .inl⟩)
  intro f' hm
  obtain ⟨n, hn⟩ := List.mem_iff_getElem?.mp hm
  rw [List.getElem?_modify] at hn
  split at hn
  · obtain ⟨f₀, hf, rfl⟩ := Option.map_eq_some_iff.mp hn
    exact .inl ⟨f₀, List.mem_of_getElem? hf, (h f₀).1, (h f₀).2⟩
  · exact .inl ⟨f', List.mem_of_getElem? (by simpa using hn), rfl, rfl⟩

theorem writes_sealOn (here : Option Nat) (fence : Nat) (f : Fence) (hk : R.keys f.group)
    (r : Runner) (executor : Nat) : Writes home R held r (sealOn here fence f r executor) := by
  unfold sealOn
  split
  · exact writes_endBuckets r executor f hk
  · split
    · have pushed : Writes home R held r (r.push executor (.seal fence)) :=
        writes_push r executor trivial
      exact pushed.trans (writes_modifyFence _ fence fun _ => ⟨rfl, rfl⟩)
    · exact writes_modifyFence r fence fun _ => ⟨rfl, rfl⟩

theorem writes_raiseFence (here : Option Nat) (f : Fence) (hk : R.keys f.group)
    (homed : home f.phase = some f.group) (r : Runner) :
    Writes home R held r (raiseFence here f r) := by
  have noted : Writes home R held r { r with fences := r.fences ++ [f] } := by
    refine .single (.apart ⟨rfl, rfl, rfl, rfl, rfl, rfl, rfl, rfl, rfl, fun _ _ => rfl, ?_,
      fun _ => .inl⟩)
    intro f' hm
    rcases List.mem_append.mp hm with hm | hm
    · exact .inl ⟨f', hm, rfl, rfl⟩
    · rw [List.mem_singleton.mp hm]
      exact .inr homed
  have all : Writes home R held { r with fences := r.fences ++ [f] } _ :=
    Writes.foldl (writes_sealOn here r.fences.length f hk) _ (List.range r.loops.size)
  exact (noted.trans all).trans (writes_push _ 0 trivial)

theorem home_of_groupOf? (k : Keyed home r) {phase key : String} {i : Instance} {g : Group}
    (hi : r.instances.get? phase = some i) (hg : r.groupOf? i.phase = some (key, g)) :
    home phase = some key := by
  rw [← k.declared, keyOf, hi]
  exact (groupOf?_eq_some.mp hg).1

theorem writes_tell (here : Option Nat) {phase : String} (hc : R.Covers home phase)
    (k : Keyed home r) : Writes home R held r (r.tell here phase) := by
  unfold tell
  split
  · exact .refl
  · rename_i i hi
    dsimp only
    split
    · exact writes_deliver ..
    · rename_i key g hg
      have homed := home_of_groupOf? k hi hg
      split
      · exact writes_raiseFence here _ (hc.keys key homed) homed r
      · exact writes_deliver ..

theorem writes_sealed (loop fence : Nat) (r : Runner)
    (hk : ∀ f ∈ r.fences, r.fences[fence]? = some f → R.keys f.group) :
    Writes home R held r (r.sealed loop fence) := by
  unfold Runner.sealed
  split
  · exact .refl
  · rename_i f hf
    dsimp only
    have ended : Writes home R held r (r.endBuckets loop f) :=
      writes_endBuckets r loop f (hk f (List.mem_of_getElem? hf) hf)
    have lowered := ended.trans (writes_modifyFence _ fence (f := fun f' =>
      { f' with pending := f.pending - 1 }) fun _ => ⟨rfl, rfl⟩)
    split
    · exact lowered.trans (writes_push _ 0 trivial)
    · exact lowered

theorem writes_announce (fence : Nat) (r : Runner) : Writes home R held r (r.announce fence) := by
  unfold announce
  split
  · exact .refl
  · split
    · exact writes_deliver ..
    · exact writes_modifyFence r fence fun _ => ⟨rfl, rfl⟩

theorem writes_wake (phase : String) (r : Runner) : Writes home R held r (r.wake phase) :=
  Writes.foldl (fun r (run : Run) =>
    writes_push r (r.executorOf run.session) (t := .resume run.id) trivial) r _

end Notices

section Phases

/-- Where a phase stands is made known, to its runs first if they are to end. -/
theorem writes_told (here : Option Nat) {phase : String} (hc : R.Covers home phase) (wakes : Bool)
    (k : Keyed home r) :
    Writes home R held r ((if wakes then r.wake phase else r).tell here phase) := by
  cases wakes with
  | true =>
    have woken : Writes home R held r (r.wake phase) := writes_wake phase r
    exact woken.trans (writes_tell here hc (woken.keyed k))
  | false => exact writes_tell here hc k

theorem writes_move (here : Option Nat) {phase : String} {s : Standing}
    (hc : R.Covers home phase) (k : Keyed home r) (h : ∀ i, r.instances.get? phase = some i →
      s.active = i.standing.active ∧ (s.status = .notStarted → i.standing.status = .notStarted)) :
    Writes home R held r (r.move here phase s) := by
  have stands : Writes home R held r (r.modifyInstance phase fun i => { i with standing := s }) :=
    .single (.phase phase hc.self fun i hi => ⟨rfl, (h i hi).1, (h i hi).2⟩)
  exact stands.trans (writes_told here hc _ (stands.keyed k))

theorem writes_moveIf (here : Option Nat) {phase : String} {i : Instance} {s? : Option Standing}
    (hc : R.Covers home phase) (k : Keyed home r) (hi : r.instances.get? phase = some i)
    (h : ∀ s, s? = some s → i.standing.Onward r.now s) :
    Writes home R held r (r.moveIf here phase s?) := by
  cases s? with
  | none => exact .refl
  | some s =>
    refine writes_move here hc k fun j hj => ?_
    cases hi.symm.trans hj
    exact (h s rfl).kept

theorem writes_failPhase (here : Option Nat) {phase : String} (f : Failure)
    (hc : R.Covers home phase) (k : Keyed home r) :
    Writes home R held r (r.failPhase here phase f) := by
  have blamed : Writes home R held r (r.modifyInstance phase fun i =>
      { i with standing := i.standing.blame f }) :=
    .single (.phase phase hc.self fun _ _ => ⟨rfl, rfl, fun h => h⟩)
  unfold failPhase
  dsimp only
  split
  · exact blamed
  · rename_i i hi
    exact blamed.trans (writes_moveIf here hc (blamed.keyed k) hi fun s => Standing.terminate_onward)

theorem writes_enterGroup {key phase : String} (hk : R.keys key) (homed : home phase = some key)
    (r : Runner) : Writes home R held r (r.enterGroup key phase) := by
  have entered : Writes home R held r (r.modifyGroup key fun g =>
      { g with current := some phase }) := by
    refine .single (.group key hk fun g _ => { Group.Kept.refl _ g with current := ?_ })
    intro other he
    cases he
    exact .inr homed
  exact entered.trans (writes_foldl_push (fun i => i) (fun _ => .stamp key phase r.now)
    (fun _ => homed) _ _)

theorem writes_begin {phase : String} (hc : R.Covers home phase) (k : Keyed home r)
    (h : r.begin phase = .ok r') : Writes home R held r r' := by
  obtain ⟨i, hi, h⟩ := bind_eq_ok.mp h
  obtain ⟨s, hs, h⟩ := bind_eq_ok.mp h
  cases h
  have hi := instance?_eq_ok.mp hi
  have started := Standing.start_kept hs
  split
  · rename_i key g hg
    have homed := home_of_groupOf? k hi hg
    have entered : Writes home R held r (r.enterGroup key phase) :=
      writes_enterGroup (hc.keys key homed) homed r
    refine entered.trans (writes_move none hc (entered.keyed k) fun j hj => ?_)
    rw [(spares_enterGroup r key phase).instances, hi] at hj
    cases hj
    exact started
  · refine writes_move none hc k fun j hj => ?_
    cases hi.symm.trans hj
    exact started

theorem writes_setLimit {phase : String} (hp : R.phases phase) (h : r.setLimit phase = .ok r') :
    Writes home R held r r' := by
  obtain ⟨i, _, h⟩ := bind_eq_ok.mp h
  cases h
  exact .single (.phase phase hp fun _ _ => ⟨rfl, rfl, fun h => h⟩)

end Phases

section Sessions

/-- Whoever asks in vain, the phase that the group started last is flagged. -/
theorem writes_depleted {key : String} (k : Keyed home r)
    (ho : ∀ other, home other = some key → R.phases other) :
    Writes home R held r (r.depleted key) := by
  have logged : Writes home R held r r.logDepletion := by
    unfold logDepletion
    split
    · exact .refl
    · exact writes_notes rfl rfl rfl rfl rfl rfl rfl rfl rfl rfl rfl
  unfold depleted
  dsimp only
  split
  · rename_i phase hp
    obtain ⟨g, hg, hcur⟩ := Option.bind_eq_some_iff.mp hp
    have homed := (logged.keyed k).current key g phase hg hcur
    exact logged.trans (.single (.phase phase (ho phase homed) fun _ _ => ⟨rfl, rfl, fun h => h⟩))
  · exact logged

theorem writes_miss {key : String} (k : Keyed home r) (hk : R.keys key)
    (ho : ∀ other, home other = some key → R.phases other) (h : r.acquire key = (none, r')) :
    Writes home R held r r' := by
  cases acquires h with
  | nowhere => exact .refl
  | @never g group got =>
    have left : Writes home R held r (r.modifyGroup key fun h =>
        { h with pool := (g.pool.acquire fun _ => r.sessions.length).2 }) := by
      refine .single (.group key hk fun g' hg' => ?_)
      cases group.symm.trans hg'
      rw [Pool.acquire_none got]
      exact { Group.Kept.refl _ g with }
    exact left.trans (writes_depleted (left.keyed k) ho)

theorem touches_acquire {key : String} {session : Nat} (k : Keyed home r) (hk : R.keys key)
    (h : r.acquire key = (some session, r')) :
    Touches home R (r, held) (r', session :: held) :=
  .single (.take hk (drawn_of_acquire (fun _ hg => k.made hg) h))

theorem Drawn.member {key : String} {session : Nat} (k : Keyed home r)
    (h : Drawn r key session r') : session ∈ r'.members key := by
  cases h with
  | @again g pool hg hf _ _ _ he =>
    rw [he]
    exact k.free key g hg session (by rw [hf]; exact List.mem_cons_self)
  | anew _ _ _ _ _ _ _ hs he =>
    rw [he, hs]
    exact mem_members.mpr ⟨_, List.getElem?_concat_length .., rfl⟩

theorem touches_employ {session : Nat} {phase key : String} (hc : R.Covers home phase)
    (homed : home phase = some key) (hm : session ∈ r.members key)
    (running : r.status? phase = some .running) :
    Touches home R (r, session :: held) (r.employ session phase, held) := by
  unfold employ spawn
  dsimp only
  split
  · have hired : Touches home R (r, session :: held) (r.hire session phase, held) :=
      .single (.hire hc homed hm running)
    exact hired.trans (writes_push _ _ (t := .resume r.runCount) trivial)
  · exact .single (.lose hc homed hm running)

theorem writes_answers {phase : String} {a : Answer} (hc : R.Covers home phase) (k : Keyed home r)
    (h : Answers r phase a r') : Writes home R held r r' := by
  cases h with
  | refused => exact .refl
  | short hi hg _ ha =>
    have hk := hc.keys _ (home_of_groupOf? k hi hg)
    exact writes_miss k hk (fun other => hc.others _ other hk) ha
  | @granted i key _ session r₁ hi hg running ha =>
    have homed := home_of_groupOf? k hi hg
    have taken : Touches home R (r, held) (r₁, session :: held) :=
      touches_acquire k (hc.keys key homed) ha
    have drawn := drawn_of_acquire (fun _ hg => k.made hg) ha
    have status : r₁.status? phase = some .running := by
      rw [status?, (spares_acquire ha).instances, hi, ← running]
      rfl
    exact taken.trans (touches_employ hc homed (drawn.member k) status)

end Sessions

section Pacing

theorem writes_pacers (r : Runner) {phase : String} {pacers : Dict Pacer} (hp : R.phases phase)
    (h : ∀ other, other ≠ phase → pacers.get? other = r.pacers.get? other) :
    Writes home R held r { r with pacers := pacers } :=
  .single (.apart ⟨rfl, rfl, rfl, rfl, rfl, rfl, rfl, rfl, rfl,
    fun other hn => h other fun he => hn (he ▸ hp), fun f hm => .inl ⟨f, hm, rfl, rfl⟩,
    fun _ => .inl⟩)

theorem writes_hires {name : String} {log : List Occurrence} (hc : R.Covers home name)
    (k : Keyed home r) (h : Hires name r log r') : Writes home R held r r' := by
  induction h generalizing held with
  | refl => exact .refl
  | asks => exact writes_answers hc k (answers ..)
  | sets p => exact writes_pacers _ hc.self fun other hne => Dict.get?_insert_of_ne hne ..
  | calls => exact writes_push _ 0 trivial
  | arms due => exact writes_armAt _ 0 due trivial
  | trans _ _ ih later =>
    have first : Writes home R held _ _ := ih k
    exact first.trans (later (first.keyed k))

theorem writes_paces {phase : String} {log : List Occurrence} (hc : R.Covers home phase)
    (k : Keyed home r) (h : Paces phase r log r') : Writes home R held r r' := by
  cases h with
  | idle => exact .refl
  | stops => exact writes_pacers r hc.self fun other hne => Dict.get?_erase_of_ne hne _
  | hires hi _ h => exact writes_hires (by rwa [k.names phase _ hi]) k h

theorem writes_startPacer (r : Runner) (phase : String) :
    Writes home R held r (r.startPacer phase) := by
  unfold startPacer
  split
  · exact writes_push _ 0 trivial
  · exact .refl

end Pacing

end Runner
end LoadGen
