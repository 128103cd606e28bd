import LoadGen.Proofs.Readings

namespace LoadGen.Runner

section Places

theorem Course.groups_nodup {r₀ r : Runner} {es : List Happening} (h₀ : r₀.Initial)
    (h : Course r₀ es r) : r.groups.keys.Nodup := by
  rw [(Course.refl.lasting h₀ h).groups]
  exact (fresh_of_initial h₀).keys

theorem surveyPlaces_nodup {r : Runner} (h : r.groups.keys.Nodup) : r.surveyPlaces.Nodup := by
  have active : r.activeGroups.Nodup := h.sublist (List.Sublist.map _ List.filter_sublist)
  refine List.nodup_flatMap.mpr ⟨fun key _ => ?_, active.imp fun hne => ?_⟩
  · exact List.nodup_range.map fun a b hab => (Prod.mk.inj hab).2
  · intro p hp hq
    obtain ⟨_, _, rfl⟩ := List.mem_map.mp hp
    obtain ⟨_, _, he⟩ := List.mem_map.mp hq
    exact hne (Prod.mk.inj he).1.symm

theorem mem_surveyPlaces {r : Runner} {key : String} {loop : Nat} :
    (key, loop) ∈ r.surveyPlaces ↔ key ∈ r.activeGroups ∧ loop < r.loops.size := by
  simp [surveyPlaces]

theorem replies_of_mapM {replies : List Reply} {answers : List (List Snapshot)}
    (h : replies.mapM Reply.snapshots? = some answers) : replies = answers.map .answered := by
  induction replies generalizing answers with
  | nil =>
    cases h
    rfl
  | cons reply rest ih =>
    simp only [List.mapM_cons, Option.bind_eq_bind, Option.bind_eq_some_iff, Option.pure_def] at h
    obtain ⟨a, ha, l, hl, he⟩ := h
    cases he
    cases reply with
    | answered snapshots =>
      cases ha
      rw [ih hl, List.map_cons]
    | pending => cases ha
    | dropped => cases ha

theorem surveyed_eq_ok {r : Runner} {survey : Nat} {s : Survey} {snaps : List Snapshot}
    (hs : r.surveys[survey]? = some s) (h : r.surveyed survey = .ok snaps) :
    ∃ answers : List (List Snapshot),
      s.replies = answers.map .answered ∧ snaps = answers.flatten := by
  unfold surveyed at h
  rw [hs, Option.bind_some] at h
  split at h
  · rename_i answers ha
    cases h
    exact ⟨answers, replies_of_mapM ha, rfl⟩
  · cases h

end Places

theorem Fenced.endedOn_unique {r : Runner} (o : r.Fenced) {loop loop' : Nat} {phase : String}
    {time time' : Nat} (h : r.EndedOn loop phase time) (k : r.EndedOn loop' phase time') :
    time = time' := by
  obtain ⟨m, f, hf, hp, rfl, _⟩ := h
  obtain ⟨n, g, hg, hq, rfl, _⟩ := k
  obtain rfl := o.fence_unique hf hg (hp.trans hq.symm)
  rw [Option.some.inj (hf.symm.trans hg)]

/-- What a pass has handed over of a phase from one loop, which had these buckets when it read them
at `q`. -/
structure HandedOver (r₀ : Runner) (snaps : List Snapshot) (phase key : String) (time loop : Nat)
    (q : Runner) (b : Board) : Prop where
  same : ∀ s : Snapshot, s.phase = phase → s.executor = loop → (s ∈ snaps ↔ s ∈ b.snapshot)
  /-- All that was counted up to the reading. -/
  counted : ∀ es es' rd bd, Course r₀ es rd → Course rd es' q → rd.board? key loop = some bd →
    ∀ metric c, bd.Holds phase metric c → ∃ s ∈ snaps, s.phase = phase ∧ s.metric = metric ∧
      s.executor = loop ∧ Bucket.Counted c s.bucket
  announced : phase ∈ q.ended → q.EndedOn loop phase time
  ended : q.EndedOn loop phase time → ∀ s ∈ snaps, s.phase = phase → s.executor = loop →
    s.bucket.stop = some time
  unended : ¬ q.EndedOn loop phase time → ∀ s ∈ snaps, s.phase = phase → s.executor = loop →
    s.bucket.stop = none

section Pass
variable {r₀ rb r : Runner} {es : List Happening} {snaps : List Snapshot}

/-- What has been handed over comes from the places that were asked. -/
structure Handed (rb r : Runner) (snaps : List Snapshot) (answers : List (List Snapshot)) : Prop where
  whole : snaps = answers.flatten
  length : answers.length = rb.surveyPlaces.length
  read : ∀ (slot : Nat) a, answers[slot]? = some a → ∃ key loop q b,
    rb.surveyPlaces[slot]? = some (key, loop) ∧ Reading (rb.beginSurvey none).2 r key loop q b ∧
      a = b.snapshot

theorem Asked.handed (a : Asked (rb.beginSurvey none).2 r rb.surveys.length rb.surveyPlaces)
    (h : r.surveyed rb.surveys.length = .ok snaps) : ∃ answers, Handed rb r snaps answers := by
  obtain ⟨s, hs, _, hl, ha⟩ := a.replies
  obtain ⟨answers, hr, whole⟩ := surveyed_eq_ok hs h
  rw [hr, List.length_map] at hl
  refine ⟨answers, whole, hl, fun slot snapshots hslot => ha slot snapshots ?_⟩
  rw [hr, List.getElem?_map, hslot]
  rfl

/-- A snapshot of a phase was taken in the group of the phase, on the loop that it names. -/
theorem Handed.origin {answers : List (List Snapshot)} (h : Handed rb r snaps answers)
    (h₀ : r₀.Initial) (hb : Course r₀ es (rb.beginSurvey none).2) {phase key : String}
    (hk : r.keyOf phase = some key) {s : Snapshot} (hs : s ∈ snaps) (hp : s.phase = phase) :
    ∃ (slot : Nat) (a : List Snapshot), answers[slot]? = some a ∧ s ∈ a ∧
      rb.surveyPlaces[slot]? = some (key, s.executor) := by
  rw [h.whole] at hs
  obtain ⟨a, ha, hs⟩ := List.mem_flatten.mp hs
  obtain ⟨slot, ha⟩ := List.mem_iff_getElem?.mp ha
  obtain ⟨key', loop, q, b, place, reading, rfl⟩ := h.read slot a ha
  obtain ⟨held, hx⟩ := Board.mem_snapshot.mp hs
  obtain ⟨_, before⟩ := reading.before
  obtain ⟨_, after⟩ := reading.after
  have measured := (hb.trans before).measured h₀
  have home := measured.home key' loop b reading.board _ _ _ held
  rw [hp, ← ((hb.trans before).lasting h₀ after).keys, hk] at home
  cases home
  have placed := (measured.placed key loop b reading.board).2
  exact ⟨slot, _, ha, hs, by rw [hx, placed]; exact place⟩

/-- Of the group of a phase, what was handed over from a loop is what the loop read. -/
theorem Handed.at_loop {answers : List (List Snapshot)} (h : Handed rb r snaps answers)
    (h₀ : r₀.Initial) (hb : Course r₀ es rb) {phase key : String}
    (hk : r.keyOf phase = some key) (hg : key ∈ rb.activeGroups) {loop : Nat}
    (hl : loop < rb.loops.size) :
    ∃ q b, Reading (rb.beginSurvey none).2 r key loop q b ∧ ∀ s : Snapshot,
      s.phase = phase → s.executor = loop → (s ∈ snaps ↔ s ∈ b.snapshot) := by
  obtain ⟨slot, place⟩ := List.mem_iff_getElem?.mp (mem_surveyPlaces.mpr ⟨hg, hl⟩)
  have inside : slot < answers.length := by
    rw [h.length]
    exact (List.getElem?_eq_some_iff.mp place).1
  have answer := List.getElem?_eq_getElem inside
  obtain ⟨key', loop', q, b, place', reading, read⟩ := h.read slot _ answer
  cases place.symm.trans place'
  refine ⟨q, b, reading, fun s hp hx => ?_⟩
  rw [← read]
  constructor
  · intro hin
    obtain ⟨slot', a, ha, hs, place'⟩ :=
      h.origin h₀ (hb.next (e := .beginSurvey none) trivial rfl) hk hin hp
    rw [hx] at place'
    have hlt := (List.getElem?_eq_some_iff.mp place').1
    obtain rfl := (List.getElem?_inj hlt (surveyPlaces_nodup (hb.groups_nodup h₀))).mp
      (place'.trans place.symm)
    cases answer.symm.trans ha
    exact hs
  · intro hin
    rw [h.whole]
    exact List.mem_flatten.mpr ⟨_, List.getElem_mem inside, hin⟩

end Pass

/-- What a loop read of a phase that is about to be pruned, which ended at that time. -/
theorem Reading.handedOver {r₀ base r r' q : Runner} {es es₂ : List Happening} {key : String}
    {loop : Nat} {b : Board} (reading : Reading base r key loop q b) (h₀ : r₀.Initial)
    (hl : r₀.listening = true) (begun : Course r₀ es base) (later : Course r es₂ r') {phase : String}
    (hk : r'.keyOf phase = some key) (hq : phase ∈ r'.pruneQueue) {time : Nat}
    (ended' : ∀ loop, r'.EndedOn loop phase time) {snaps : List Snapshot}
    (same : ∀ s : Snapshot, s.phase = phase → s.executor = loop → (s ∈ snaps ↔ s ∈ b.snapshot)) :
    HandedOver r₀ snaps phase key time loop q b := by
  obtain ⟨es₃, before⟩ := reading.before
  obtain ⟨es₄, after⟩ := reading.after
  have toRead := begun.trans before
  have rest := after.trans later
  have fenced := toRead.fenced h₀
  have fenced' := (toRead.trans rest).fenced h₀
  have measured := toRead.measured h₀
  have lasting := toRead.lasting h₀ rest
  have hkq : q.keyOf phase = some key := by rw [← lasting.keys]; exact hk
  obtain ⟨inside, placed⟩ := measured.placed key loop b reading.board
  have when : ∀ t, q.EndedOn loop phase t → t = time := fun t ht =>
    fenced'.endedOn_unique (lasting.endedOn loop inside phase t ht) (ended' loop)
  have stops : ∀ s ∈ snaps, s.phase = phase → s.executor = loop → ∀ t,
      s.bucket.stop = some t ↔ q.EndedOn loop phase t := by
    intro s hin hp hx t
    obtain ⟨held, _⟩ := Board.mem_snapshot.mp ((same s hp hx).mp hin)
    rw [← hp]
    exact measured.stops key loop b reading.board _ _ _ held t
  exact {
    same := same
    counted := by
      intro es₅ es₆ rd bd hd toq hbd metric c hc
      have waits : ¬ q.Gone phase := fun gone => (toRead.gone h₀ hl rest hkq gone).2 hq
      have hkd : rd.keyOf phase = some key := by
        rw [← (hd.lasting h₀ toq).keys]
        exact hkq
      obtain ⟨b', hb', kept⟩ := hd.keeps h₀ hl toq hkd waits key loop bd hbd
      cases reading.board.symm.trans hb'
      obtain ⟨c', hc', counted⟩ := kept metric c hc
      refine ⟨⟨phase, metric, loop, c'⟩, ?_, rfl, rfl, rfl, counted⟩
      exact (same _ rfl rfl).mpr (Board.mem_snapshot.mpr ⟨hc', placed.symm⟩)
    announced := by
      intro told
      obtain ⟨t, ended⟩ := fenced.endedOn (fenced.seen phase key hkq (.inr (.inr told)))
      rw [← when t (ended loop)]
      exact ended loop
    ended := fun ended s hin hp hx => (stops s hin hp hx time).mpr ended
    unended := by
      intro unended s hin hp hx
      apply Option.eq_none_iff_forall_ne_some.mpr
      intro t ht
      have ended := (stops s hin hp hx t).mp ht
      rw [when t ended] at ended
      exact unended ended }

/-- A pass that prunes a phase has handed over what the loops had when they read their buckets. -/
theorem pruned_phase_handed_over {r₀ rb r r' : Runner} {es es₁ es₂ : List Happening}
    {snaps : List Snapshot} (h₀ : r₀.Initial) (hl : r₀.listening = true) (hb : Course r₀ es rb)
    (reads : Course (rb.beginSurvey none).2 es₁ r) (hs : r.surveyed rb.surveys.length = .ok snaps)
    (later : Course r es₂ r') {phase key : String} (hk : r'.keyOf phase = some key)
    (hq : phase ∈ r'.pruneQueue) (hg : key ∈ rb.activeGroups) :
    (∀ s ∈ snaps, s.phase = phase → s.executor < r.loops.size) ∧
      ∃ time, ∀ loop < r.loops.size, ∃ q b, Reading (rb.beginSurvey none).2 r key loop q b ∧
        HandedOver r₀ snaps phase key time loop q b := by
  have begun := hb.next (e := .beginSurvey none) trivial rfl
  have whole := begun.trans reads
  have fenced' := (whole.trans later).fenced h₀
  obtain ⟨answers, handed⟩ := (hb.asked h₀ hl reads).handed hs
  have hk₁ : r.keyOf phase = some key := by
    rw [← (whole.lasting h₀ later).keys]
    exact hk
  have size : r.loops.size = rb.loops.size :=
    (hb.lasting h₀ ((Course.one (e := .beginSurvey none) trivial rfl).trans reads)).size
  obtain ⟨time, ended'⟩ := fenced'.endedOn (fenced'.seen phase key hk (.inl hq))
  refine ⟨fun s hin hp => ?_, time, fun loop inside => ?_⟩
  · obtain ⟨slot, a, _, _, place⟩ := handed.origin h₀ begun hk₁ hin hp
    rw [size]
    exact (mem_surveyPlaces.mp (List.mem_of_getElem? place)).2
  · rw [size] at inside
    obtain ⟨q, b, reading, same⟩ := handed.at_loop h₀ hb hk₁ hg inside
    exact ⟨q, b, reading, reading.handedOver h₀ hl begun later hk hq ended' same⟩

/-- The phase ends after the loops were read and before the pass prunes it. The snapshot that was
handed over has no end, and one request is missing in it. -/
theorem gate_phase_pruned_unseen : ∃ rb r r' es es₁ es₂ snaps s b c,
    Course gateRunner es rb ∧ Course (rb.beginSurvey none).2 es₁ r ∧
      r.surveyed rb.surveys.length = .ok snaps ∧ Course r es₂ r' ∧ "login" ∈ r'.pruneQueue ∧
      .prune "users" "login" ∈ r'.beginPruning.2.orders 0 ∧ s ∈ snaps ∧ s.phase = "login" ∧
      s.bucket.stop = none ∧ r'.board? "users" 0 = some b ∧ b.Holds "login" s.metric c ∧
      s.bucket.total.requests < c.total.requests := by
  have h := Course.one (r := gateRunner) (e := .deed none (.begin "login")) trivial rfl
  have h := h.next (e := .deed none (.enroll "login")) trivial rfl
  have h := h.next (e := .createRequest 0 .complete) trivial rfl
  have h := h.next (e := .command 0 (.begin "page" ⟨"visit", 0⟩))
    ⟨_, rfl, _, List.mem_singleton_self _, rfl⟩ rfl
  have h := h.next (e := .turn 0) (fun _ _ h => by cases h) rfl
  have h := h.next (e := .turn 0) (fun _ _ h => by cases h) rfl
  have h := h.next (e := .turn 1) (fun _ _ h => by cases h) rfl
  have asked : ∀ {es rb}, Course gateRunner es rb →
      Course (rb.beginSurvey none).2 [] (rb.beginSurvey none).2 := fun _ => .refl
  have k := (asked h).next (e := .turn 0) (fun _ _ h => by cases h) rfl
  have k := k.next (e := .createRequest 0 .complete) trivial rfl
  have k := k.next (e := .command 1 (.begin "page" ⟨"visit", 1⟩))
    ⟨_, rfl, _, List.mem_singleton_self _, rfl⟩ rfl
  have k := k.next (e := .turn 1) (fun _ _ h => by cases h) rfl
  have reached : ∀ {q es r}, Course q es r → Course r [] r := fun _ => .refl
  have l := (reached k).next (e := .deed none (.complete 0)) trivial rfl
  have l := l.next (e := .deed none (.terminate "login")) trivial rfl
  have l := l.next (e := .turn 1) (fun _ _ h => by cases h) rfl
  have l := l.next (e := .turn 0) (fun _ _ h => by cases h) rfl
  have l := l.next (e := .turn 0) (fun _ _ h => by cases h) rfl
  exact ⟨_, _, _, _, _, _, _, _, _, _, h, k, rfl, l, List.mem_singleton_self _,
    List.mem_singleton_self _, List.mem_singleton_self _, rfl, rfl, rfl,
    ⟨_, List.mem_singleton_self _, rfl, List.mem_singleton_self _⟩, by decide⟩

/-- The end was announced before the pass began. -/
theorem gate_phase_handed_over : ∃ rb r es es₁ snaps time,
    Course gateRunner es rb ∧ Course (rb.beginSurvey none).2 es₁ r ∧
      r.surveyed rb.surveys.length = .ok snaps ∧ "login" ∈ r.pruneQueue ∧ snaps ≠ [] ∧
      ∀ loop < r.loops.size, ∃ q b, Reading (rb.beginSurvey none).2 r "users" loop q b ∧
        HandedOver gateRunner snaps "login" "users" time loop q b := by
  have h := Course.one (r := gateRunner) (e := .deed none (.begin "login")) trivial rfl
  have h := h.next (e := .deed none (.enroll "login")) trivial rfl
  have h := h.next (e := .createRequest 0 .complete) trivial rfl
  have h := h.next (e := .command 0 (.begin "page" ⟨"visit", 0⟩))
    ⟨_, rfl, _, List.mem_singleton_self _, rfl⟩ rfl
  have h := h.next (e := .deed none (.complete 0)) trivial rfl
  have h := h.next (e := .deed none (.terminate "login")) trivial rfl
  have h := h.next (e := .turn 1) (fun _ _ h => by cases h) rfl
  have h := h.next (e := .turn 1) (fun _ _ h => by cases h) rfl
  have h := h.next (e := .turn 0) (fun _ _ h => by cases h) rfl
  have h := h.next (e := .turn 0) (fun _ _ h => by cases h) rfl
  have h := h.next (e := .turn 0) (fun _ _ h => by cases h) rfl
  have h := h.next (e := .turn 0) (fun _ _ h => by cases h) rfl
  have asked : ∀ {es rb}, Course gateRunner es rb →
      Course (rb.beginSurvey none).2 [] (rb.beginSurvey none).2 := fun _ => .refl
  have k := (asked h).next (e := .turn 0) (fun _ _ h => by cases h) rfl
  have k := k.next (e := .turn 1) (fun _ _ h => by cases h) rfl
  obtain ⟨_, time, handed⟩ := pruned_phase_handed_over gateRunner_initial rfl h k rfl .refl
    (show Runner.keyOf _ "login" = some "users" from rfl) (List.mem_singleton_self _)
    (List.mem_singleton_self _)
  exact ⟨_, _, _, _, _, time, h, k, rfl, List.mem_singleton_self _, nofun, handed⟩

end LoadGen.Runner
