import LoadGen.Proofs.BulkAdmission

namespace LoadGen.Runner

variable {home : String → Option String} {held ids : List Nat} {r r₀ q m r' : Runner}
  {name key : String} {users : Nat} {i i' : Instance} {g g' : Group} {p : Pool Nat} {short : Bool}

/-- What a phase got that asked for sessions, and whether it missed one: the books of the pool, and
where the sessions are. -/
structure Served (name key : String) (p : Pool Nat) (ids : List Nat) (short : Bool)
    (r r' : Runner) : Prop where
  pool : ∃ p', r'.poolOf key = some p' ∧ p'.used = p.used + ids.length ∧
    p'.depletions = p.depletions + short.toNat
  /-- Nothing is made as long as something is free. -/
  grown : r'.sessions.length = r.sessions.length + (ids.length - p.free.length)
  bound : ∀ id ∈ ids, ∃ s, r'.session? id = some s ∧ s.group = key ∧ s.phase = some name
  /-- None of the sessions has done anything yet. -/
  waiting : ∃ fresh, r'.runs = r.runs ++ fresh ∧
    fresh.map (·.session) = ids.filter (fun id => r.loops.isOpen (r'.executorOf id)) ∧
      ∀ run ∈ fresh, run.phase = name ∧ run.point = .fresh

/-- A phase has started and has got sessions out of the pool of its key, all of them at once. -/
structure Opening (r r' : Runner) (held : List Nat) (name key : String) (i i' : Instance) (g : Group)
    (users : Nat) (ids : List Nat) : Prop where
  group : r.groups.get? key = some g
  /-- What is free comes before what has to be made. -/
  offered : ids = (g.pool.offer r.sessions.length).take users
  /-- There are as many as were asked for, or as there are. -/
  count : ids.length = min users (g.pool.max - g.pool.used)
  distinct : ids.Nodup
  unused : ∀ id ∈ ids, id ∉ held ∧ ¬ r.AtWork id
  /-- The pool has nothing left once, and only if there are not enough. -/
  served : Served name key g.pool ids (g.pool.max - g.pool.used < users) r r'
  active : i'.standing.active = i.standing.active + ids.length
  flagged : i'.standing.limitExceeded =
    (i.standing.limitExceeded || decide (g.pool.max - g.pool.used < users))
  /-- If nobody else has a session of the group, there are enough. -/
  enough : (∀ other j, other ≠ name → r.instances.get? other = some j →
    j.phase.key = some key → j.standing.active = 0) → (∀ id ∈ held, id ∉ r.members key) →
      ids.length = users

section Pools

theorem Balanced.offered (s : Balanced r held) (k : Keyed home r)
    (hg : r.groups.get? key = some g) :
    (g.pool.offer r.sessions.length).Nodup ∧
      ∀ id ∈ g.pool.offer r.sessions.length, id ∉ held ∧ ¬ r.AtWork id := by
  have once := s.once key g hg
  rw [List.nodup_append] at once
  obtain ⟨free, _, apart⟩ := once
  constructor
  · refine List.nodup_append.mpr ⟨free, List.nodup_range', fun id hid other ho he => ?_⟩
    rw [List.mem_range'_1] at ho
    have old := k.made hg id hid
    omega
  · intro id hid
    rcases List.mem_append.mp hid with hid | new
    · refine ⟨fun hand => apart id hid id (List.mem_append_right _ hand) rfl, fun work => ?_⟩
      obtain ⟨run, hm, rfl⟩ := work
      exact apart run.session hid run.session
        (List.mem_append_left _ (List.mem_map_of_mem hm)) rfl
    · rw [List.mem_range'_1] at new
      refine ⟨fun hand => ?_, fun work => ?_⟩
      · have old := s.there id hand
        omega
      · obtain ⟨run, hm, rfl⟩ := work
        obtain ⟨_, _, hs⟩ := k.staffed run hm
        have old := lt_of_mem_members hs
        omega

theorem Balanced.untouched (s : Balanced r held) (hg : r.groups.get? key = some g)
    (hi : r.instances.get? name = some i) (own : i.standing.active = 0)
    (others : ∀ other j, other ≠ name → r.instances.get? other = some j →
      j.phase.key = some key → j.standing.active = 0)
    (hands : ∀ id ∈ held, id ∉ r.members key) : g.pool.used = 0 := by
  have nobody : r.activeIn key = 0 := by
    refine List.sum_eq_zero fun n hn => ?_
    obtain ⟨j, hj, rfl⟩ := List.mem_map.mp hn
    obtain ⟨p, hp, rfl⟩ := List.mem_map.mp hj
    have there := Dict.get?_of_mem_entries s.names hp
    rw [Instance.activeFor]
    split
    · rename_i hk
      by_cases he : p.1 = name
      · rw [he, hi] at there
        cases there
        exact own
      · exact others p.1 p.2 he there hk
    · rfl
  have untouched : r.countOf key held = 0 :=
    List.countP_eq_zero.mpr fun id hid => by simpa using hands id hid
  have made := s.made key g hg
  rw [Pool.used]
  omega

theorem maxSessions_le_poolSize {phases : List Phase} {p : Phase} (hp : p ∈ phases)
    (hk : p.key = some key) : p.model.maxSessions ≤ poolSize phases key := by
  have listed : p.model.maxSessions ∈
      (phases.filter (·.key == some key)).map (·.model.maxSessions) :=
    List.mem_map_of_mem (f := fun p : Phase => p.model.maxSessions)
      (List.mem_filter.mpr ⟨hp, by simp [hk]⟩)
  rw [poolSize, List.foldl_max]
  exact (List.le_max?_getD_of_mem listed).trans (Nat.le_max_right ..)

end Pools

section Serving

theorem Intake.served (h : Intake name key ids r r') (hp : r.poolOf key = some p)
    (free : p.free.length ≤ p.created) : Served name key p ids false r r' := by
  obtain ⟨p', hp', lends, _, grown⟩ := h.pool p hp
  exact ⟨⟨p', hp', lends.used free, lends.depletions⟩, grown, h.bound, h.runs⟩

theorem Served.missed (h : Served name key p ids false r m) (k : Missed name key m r') :
    Served name key p ids true r r' where
  pool := by
    obtain ⟨p', hp', used, depletions⟩ := h.pool
    exact ⟨_, k.pool p' hp', used, congrArg (· + 1) depletions⟩
  grown := k.sessions ▸ h.grown
  bound := by simpa only [session?, k.sessions] using h.bound
  waiting := by simpa only [executorOf, session?, k.sessions, k.runs] using h.waiting

/-- It makes no difference what is done to a phase before it asks, and after that. -/
theorem Served.between (h : Served name key p ids short q m) (before : Unmanned r q)
    (after : Unmanned m r') : Served name key p ids short r r' where
  pool := by rw [after.pools]; exact h.pool
  grown := by rw [after.sessions, h.grown, before.sessions]
  bound := by simpa only [session?, after.sessions] using h.bound
  waiting := by
    simpa only [executorOf, session?, after.sessions, after.runs, before.runs, before.isOpen]
      using h.waiting

theorem startSessions_served (users : Nat) (k : Keyed home r)
    (hi : r.instances.get? name = some i) (hk : i.phase.key = some key)
    (running : i.standing.status = .running) (hp : r.poolOf key = some p)
    (current : r.currentOf key = some name) (free : p.free.length ≤ p.created)
    (fits : p.created ≤ p.max) :
    let ids := (p.offer r.sessions.length).take users
    Served name key p ids (p.max - p.used < users) r (startSessions name users r) ∧
      ∃ s, (startSessions name users r).instances.get? name = some { i with standing := s } ∧
        s.status = .running ∧ s.active = i.standing.active + ids.length ∧
          s.limitExceeded = (i.standing.limitExceeded || decide (p.max - p.used < users)) := by
  intro ids
  obtain ⟨q, intake, left⟩ := startSessions_intake users k hi hk running hp current
  have served := intake.served hp free
  have manned := intake.active i hi
  rw [Pool.length_offer fits free] at left
  by_cases short : p.max - p.used < users
  · rw [if_pos short] at left
    simp only [short, decide_true, Bool.or_true]
    have flagged := left.flagged _ manned
    exact ⟨served.missed left, _, flagged, running, rfl, rfl⟩
  · rw [if_neg short] at left
    simp only [short, decide_false, Bool.or_false, left]
    exact ⟨served, _, manned, running, rfl, rfl⟩

/-- A phase that has got its sessions goes on to run, or is finished if it got them for good. -/
theorem attemptLaunch_served {model : Model} (hm : model = .atOnce users ∨ model = .always users)
    (hi : (startSessions name users q).instances.get? name = some i)
    (running : i.standing.status = .running) :
    ∃ r' s, q.attemptLaunch name model = (.ok none, r') ∧
      Unmanned (startSessions name users q) r' ∧
        r'.instances.get? name = some { i with standing := s } ∧
          s.status = (if model.repeats then .running else .finished) ∧
            s.active = i.standing.active ∧ s.limitExceeded = i.standing.limitExceeded := by
  rcases hm with rfl | rfl
  · obtain ⟨r', s, done, still, there, finished, same⟩ := finished_of_running hi running
    exact ⟨r', s, done, still, there, finished, same⟩
  · exact ⟨_, i.standing, rfl, ⟨fun _ => rfl, rfl, rfl, fun _ => rfl⟩, hi, running, rfl, rfl⟩

end Serving

section Starting

theorem users_eq {model : Model} (hm : model = .atOnce users ∨ model = .always users) :
    model.maxSessions = users := by rcases hm with rfl | rfl <;> rfl

theorem Abides.listed (h : Abides r₀ r) (h₀ : r₀.Fresh) (hi : r.instances.get? name = some i) :
    i.phase ∈ r.phases := by
  have cast := h.cast name
  rw [hi] at cast
  obtain ⟨i₀, hi₀, he⟩ := Option.map_eq_some_iff.mp cast.symm
  have declared : i₀.phase = i.phase := he
  rw [h.phases, ← declared]
  exact List.mem_of_find?_eq_some (h₀.declared name i₀ hi₀)

/-- A phase that has not started yet starts if it is told to. If it gets all its sessions at once, it
gets as many of them as there are, and none if it has no key. -/
theorem closed_models_start (h₀ : r₀.Initial) (h : Reaches (r₀, []) (r, held))
    (hi : r.instances.get? name = some i) (fresh : i.standing.status = .notStarted)
    (hm : i.phase.model = .atOnce users ∨ i.phase.model = .always users) :
    ∃ r' i', r.order name .start = (.ok none, r') ∧ r'.instances.get? name = some i' ∧
      i'.standing.status = (if i.phase.model.repeats then .running else .finished) ∧
      (i.phase.key = none → Unmanned r r' ∧ i'.standing.active = 0) ∧
      ∀ key, i.phase.key = some key →
        ∃ g ids, Opening r r' held name key i i' g users ids := by
  have k₀ := keyed_of_initial h₀
  have k := h.keyed h₀
  have touches := h.touches (x := (r₀, [])) k₀
  have abides : Abides r₀ r := touches.abides
  have balanced : Balanced r held := touches.balanced k₀ (fresh_of_initial h₀).balanced
  have idle := balanced.idle name i hi fresh
  obtain ⟨q, s, order, kq, begun, hq, running, active, limit, current⟩ := begun_of_start k hi fresh
  rw [order]
  cases hk : i.phase.key with
  | none =>
    have none_served := startSessions_unkeyed users hq hk
    obtain ⟨r', t, done, still, there, status, same, _⟩ :=
      attemptLaunch_served (q := q) hm (none_served.symm ▸ hq) running
    rw [none_served] at still
    refine ⟨r', _, done, there, status, fun _ => ⟨begun.trans still, ?_⟩,
      fun key he => absurd he (Option.some_ne_none key).symm⟩
    exact same.trans (active.trans idle)
  | some key =>
    have keyed : r₀.keyOf name = some key := by rw [← k.declared, keyOf, hi]; exact hk
    obtain ⟨g, hg⟩ := Option.isSome_iff_exists.mp
      (Dict.get?_isSome_of_mem_keys (k.grouped name key keyed))
    have hp : r.poolOf key = some g.pool := by rw [poolOf, hg]; rfl
    obtain ⟨size, fits⟩ := balanced.fits key g hg
    have free : g.pool.free.length ≤ g.pool.created := by
      have made := balanced.made key g hg
      omega
    obtain ⟨served, t, hj, goes, manned, flagged⟩ := startSessions_served users kq hq hk running
      ((begun.pools key).trans hp) (current key g hk hg) free fits
    obtain ⟨r', t', done, still, there, status, same, flag⟩ := attemptLaunch_served hm hj goes
    rw [begun.sessions] at served manned
    obtain ⟨distinct, unused⟩ := balanced.offered k hg
    have count : ((g.pool.offer r.sessions.length).take users).length =
        min users (g.pool.max - g.pool.used) := by
      rw [List.length_take, Pool.length_offer fits free]
    refine ⟨r', _, done, there, status, fun he => absurd he (Option.some_ne_none key),
      fun other he => ?_⟩
    cases he
    refine ⟨g, (g.pool.offer r.sessions.length).take users, ?_⟩
    exact {
      group := hg
      offered := rfl
      count := count
      distinct := distinct.sublist (List.take_sublist _ _)
      unused := fun id hid => unused id (List.mem_of_mem_take hid)
      served := served.between begun still
      active := by
        show t'.active = _
        rw [same]
        show t.active = _
        rw [manned, ← active]
      flagged := by
        show t'.limitExceeded = _
        rw [flag]
        show t.limitExceeded = _
        rw [flagged, ← limit]
      enough := by
        intro others hands
        have all := maxSessions_le_poolSize
          (abides.listed (fresh_of_initial h₀) hi) hk
        rw [users_eq hm] at all
        rw [count, balanced.untouched hg hi idle others hands, size]
        omega }

/-- Somebody has one of three sessions. The phase that asks for all of them gets the others. -/
theorem reads_start_short : ∃ r r' i i' g ids, Reaches (twinRunner, []) (r, [0]) ∧
    r.order "reads" .start = (.ok none, r') ∧
    Opening r r' [0] "reads" "store" i i' g 3 ids ∧ ids = [1, 2] ∧
    i'.standing.limitExceeded = true := by
  have h : Reaches (twinRunner, []) (_, [0]) :=
    .single (.takes (show Runner.acquire _ "store" = (some 0, _) from rfl))
  obtain ⟨r', i', started, _, _, _, opens⟩ := closed_models_start twinRunner_initial h
    (show Dict.get? _ "reads" = some _ from rfl) rfl (.inr rfl)
  obtain ⟨g, ids, opening⟩ := opens "store" rfl
  have group := opening.group
  cases group
  exact ⟨_, r', _, i', _, ids, h, started, opening, opening.offered, opening.flagged⟩

end Starting

end LoadGen.Runner
