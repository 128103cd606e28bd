import LoadGen.Proofs.Stocks

namespace LoadGen

namespace Pool

/-- What a pool hands out, one by one, if nothing is given back: what is free, and then what is made,
which has the next numbers. -/
def offer (p : Pool Nat) (next : Nat) : List Nat := p.free ++ List.range' next (p.max - p.created)

theorem length_offer {p : Pool Nat} (h : p.created ≤ p.max) (free : p.free.length ≤ p.created)
    (next : Nat) : (p.offer next).length = p.max - p.used := by
  rw [offer, List.length_append, List.length_range', used]
  omega

/-- A pool has lent things, those first that were free. -/
structure Lends (p : Pool Nat) (ids : List Nat) (p' : Pool Nat) : Prop where
  free : p'.free = p.free.drop ids.length
  created : p'.created = p.created + (ids.length - p.free.length)
  max : p'.max = p.max
  depletions : p'.depletions = p.depletions

theorem Lends.refl (p : Pool Nat) : p.Lends [] p := ⟨by simp, by simp, rfl, rfl⟩

theorem Lends.trans {p p₁ p' : Pool Nat} {ids ids' : List Nat} (h : p.Lends ids p₁)
    (k : p₁.Lends ids' p') : p.Lends (ids ++ ids') p' where
  free := by rw [k.free, h.free, List.drop_drop, List.length_append]
  created := by
    rw [k.created, h.created, h.free, List.length_drop, List.length_append]
    omega
  max := k.max.trans h.max
  depletions := k.depletions.trans h.depletions

theorem Lends.used {p p' : Pool Nat} {ids : List Nat} (h : p.Lends ids p')
    (free : p.free.length ≤ p.created) : p'.used = p.used + ids.length := by
  rw [Pool.used, Pool.used, h.created, h.free, List.length_drop]
  omega

end Pool

theorem LoopGroup.isOpen_push {τ : Type} (g : LoopGroup τ) (i : Nat) (t : τ) (loop : Nat) :
    (g.push i t).isOpen loop = g.isOpen loop := by
  simp only [isOpen, push, modify, List.getElem?_modify]
  cases g.loops[loop]? with
  | none => rfl
  | some l =>
    by_cases he : i = loop
    · simp [he]
    · simp [he]

def Instance.manned (i : Instance) (n : Nat) : Instance :=
  { i with standing := { i.standing with active := i.standing.active + n } }

namespace Runner
variable {home : String → Option String} {held ids ids' : List Nat} {r r₀ r₁ r' : Runner}
  {name key : String} {session users : Nat} {i : Instance}

def poolOf (r : Runner) (key : String) : Option (Pool Nat) := (r.groups.get? key).map (·.pool)

def currentOf (r : Runner) (key : String) : Option String := (r.groups.get? key).bind (·.current)

/-- Neither the pools nor the sessions nor the runs change, and no loop closes. -/
structure Unmanned (r r' : Runner) : Prop where
  pools : ∀ key, r'.poolOf key = r.poolOf key
  sessions : r'.sessions = r.sessions
  runs : r'.runs = r.runs
  isOpen : ∀ loop, r'.loops.isOpen loop = r.loops.isOpen loop

/-- Sessions have been taken out of the pool of a key, and have gone to work for a phase. None of them
has done anything yet. -/
structure Intake (name key : String) (ids : List Nat) (r r' : Runner) : Prop where
  pool : ∀ p, r.poolOf key = some p → ∃ p', r'.poolOf key = some p' ∧ p.Lends ids p' ∧
    p.offer r.sessions.length = ids ++ p'.offer r'.sessions.length ∧
      r'.sessions.length = r.sessions.length + (ids.length - p.free.length)
  current : r'.currentOf key = r.currentOf key
  active : ∀ i, r.instances.get? name = some i →
    r'.instances.get? name = some (i.manned ids.length)
  seats : r.seats <+: r'.seats
  bound : ∀ id ∈ ids, ∃ s, r'.session? id = some s ∧ s.group = key ∧ s.phase = some name
  others : ∀ id, id < r.sessions.length → id ∉ ids → r'.session? id = r.session? id
  runs : ∃ fresh, r'.runs = r.runs ++ fresh ∧
    fresh.map (·.session) = ids.filter (fun id => r.loops.isOpen (r'.executorOf id)) ∧
      ∀ run ∈ fresh, run.phase = name ∧ run.point = .fresh
  isOpen : ∀ loop, r'.loops.isOpen loop = r.loops.isOpen loop

section Frames

theorem Unmanned.trans (h : Unmanned r r₁) (k : Unmanned r₁ r') : Unmanned r r' where
  pools := fun key => (k.pools key).trans (h.pools key)
  sessions := k.sessions.trans h.sessions
  runs := k.runs.trans h.runs
  isOpen := fun loop => (k.isOpen loop).trans (h.isOpen loop)

theorem Unmanned.foldl {α : Type} {f : Runner → α → Runner} (h : ∀ r a, Unmanned r (f r a))
    (r : Runner) (l : List α) : Unmanned r (l.foldl f r) := by
  induction l generalizing r with
  | nil => exact ⟨fun _ => rfl, rfl, rfl, fun _ => rfl⟩
  | cons a l ih => exact (h r a).trans (ih (f r a))

theorem unmanned_enterGroup (r : Runner) (key name : String) :
    Unmanned r (r.enterGroup key name) := by
  have entered : Unmanned r (r.modifyGroup key fun g => { g with current := some name }) :=
    ⟨Dict.map_get?_modify fun _ _ => rfl, rfl, rfl, fun _ => rfl⟩
  have push : ∀ (r : Runner) (loop : Nat) (t : Task), Unmanned r (r.push loop t) := fun _ _ _ =>
    ⟨fun _ => rfl, rfl, rfl, fun _ => LoopGroup.isOpen_push ..⟩
  exact entered.trans (.foldl (fun r loop => push r loop _) _ _)

theorem move_told (hi : r.instances.get? name = some i) {s : Standing}
    (hs : s.status = .running ∨ s.status = .finished) :
    r.move none name s =
      (r.modifyInstance name fun i => { i with standing := s }).deliver name s.notice := by
  have there : (r.modifyInstance name fun i => { i with standing := s }).instances.get? name =
      some { i with standing := s } := by simp [Runner.modifyInstance, hi]
  have goes : s.status.isTerminating = false := by rcases hs with h | h <;> rw [h] <;> rfl
  have lives : s.notice.status ≠ .terminated := by
    rcases hs with h | h <;> simp [Standing.notice, h]
  simp only [move, goes, tell, there, lives, if_false, Bool.false_eq_true]
  split <;> rfl

theorem unmanned_move (hi : r.instances.get? name = some i) {s : Standing}
    (hs : s.status = .running ∨ s.status = .finished) : Unmanned r (r.move none name s) := by
  rw [move_told hi hs, deliver_eq]
  exact ⟨fun _ => rfl, rfl, rfl, fun _ => rfl⟩

end Frames

section Intake

theorem executorOf_of_seats (h : r.seats <+: r'.seats) {id : Nat} (hid : id < r.sessions.length) :
    r'.executorOf id = r.executorOf id := by
  obtain ⟨rest, he⟩ := h
  have there : id < r.seats.length := r.length_seats ▸ hid
  rw [executorOf_seats, executorOf_seats, ← he, List.getElem?_append_left there]

theorem Intake.refl (name key : String) (r : Runner) : Intake name key [] r r where
  pool := fun p hp => ⟨p, hp, .refl p, rfl, by simp⟩
  current := rfl
  active := fun _ hi => hi
  seats := List.prefix_rfl
  bound := nofun
  others := fun _ _ _ => rfl
  runs := ⟨[], by simp, rfl, nofun⟩
  isOpen := fun _ => rfl

theorem Intake.trans (h : Intake name key ids r r₁) (k : Intake name key ids' r₁ r') :
    Intake name key (ids ++ ids') r r' where
  pool := by
    intro p hp
    obtain ⟨p₁, hp₁, lends, offer, grown⟩ := h.pool p hp
    obtain ⟨p', hp', lends', offer', grown'⟩ := k.pool p₁ hp₁
    refine ⟨p', hp', lends.trans lends', by rw [offer, offer', List.append_assoc], ?_⟩
    rw [grown', grown, lends.free, List.length_drop, List.length_append]
    omega
  current := k.current.trans h.current
  active := by
    intro i hi
    rw [k.active _ (h.active i hi), List.length_append]
    simp only [Instance.manned, Nat.add_assoc]
  seats := h.seats.trans k.seats
  bound := by
    intro id hid
    by_cases again : id ∈ ids'
    · exact k.bound id again
    · obtain ⟨s, hs, hb⟩ := h.bound id ((List.mem_append.mp hid).resolve_right again)
      exact ⟨s, (k.others id (List.getElem?_eq_some_iff.mp hs).1 again).trans hs, hb⟩
  others := by
    intro id hlt hid
    rw [List.mem_append, not_or] at hid
    have longer : r.sessions.length ≤ r₁.sessions.length := by
      rw [← length_seats, ← length_seats]
      exact h.seats.length_le
    exact (k.others id (Nat.lt_of_lt_of_le hlt longer) hid.2).trans (h.others id hlt hid.1)
  runs := by
    obtain ⟨fresh, hr, hs, hf⟩ := h.runs
    obtain ⟨fresh', hr', hs', hf'⟩ := k.runs
    refine ⟨fresh ++ fresh', by rw [hr', hr, List.append_assoc], ?_,
      List.forall_mem_append.mpr ⟨hf, hf'⟩⟩
    rw [List.map_append, List.filter_append, hs, hs']
    congr 1
    · refine List.filter_congr fun id hid => ?_
      obtain ⟨s, hs, _⟩ := h.bound id hid
      rw [executorOf_of_seats k.seats (List.getElem?_eq_some_iff.mp hs).1]
    · simp only [h.isOpen]
  isOpen := fun loop => (k.isOpen loop).trans (h.isOpen loop)

theorem Drawn.lends (h : Drawn r key session r') {p : Pool Nat} (hp : r.poolOf key = some p) :
    ∃ p', r'.poolOf key = some p' ∧ p.Lends [session] p' ∧
      p.offer r.sessions.length = session :: p'.offer r'.sessions.length ∧
        r'.sessions.length = r.sessions.length + (1 - p.free.length) := by
  have lookup : ∀ {g : Group} {pool : Pool Nat}, r.groups.get? key = some g →
      (r.modifyGroup key fun g => { g with pool := pool }).poolOf key = some pool := by
    intro g pool hg
    simp [poolOf, modifyGroup, hg]
  obtain ⟨g₀, hg₀, rfl⟩ := Option.map_eq_some_iff.mp hp
  cases h with
  | @again g pool hg hf hc hm hd he =>
    cases hg.symm.trans hg₀
    subst he
    refine ⟨pool, lookup hg, ⟨by simp [hf], by simp [hf, hc], hm, hd⟩, ?_, by simp [hf, modifyGroup]⟩
    rw [Pool.offer, Pool.offer, hf, hc, hm]
    rfl
  | @anew g pool hg hf hpf room hc hm hd hn he =>
    cases hg.symm.trans hg₀
    subst he
    refine ⟨pool, lookup hg, ⟨by simp [hf, hpf], by simp [hf, hc], hm, hd⟩, ?_, by simp [hf]⟩
    have left : g₀.pool.max - g₀.pool.created = (pool.max - pool.created) + 1 := by omega
    rw [Pool.offer, Pool.offer, hf, hpf, left, List.nil_append, List.nil_append, List.range'_succ, hn]
    simp

theorem Drawn.currentOf (h : Drawn r key session r') : r'.currentOf key = r.currentOf key := by
  have lent : ∀ pool : Pool Nat,
      (r.modifyGroup key fun g => { g with pool := pool }).currentOf key = r.currentOf key := by
    intro pool
    simp only [Runner.currentOf, modifyGroup, Dict.get?_modify_self]
    cases r.groups.get? key <;> rfl
  cases h with
  | again _ _ _ _ _ he | anew _ _ _ _ _ _ _ _ he =>
    rw [he]
    exact lent _

theorem Drawn.session?_old (h : Drawn r key session r') {id : Nat} (hid : id < r.sessions.length) :
    r'.session? id = r.session? id := by
  cases h with
  | again _ _ _ _ _ he => rw [he]; rfl
  | anew _ _ _ _ _ _ _ _ he => rw [he]; exact List.getElem?_append_left hid

/-- What a session that goes to work changes: it is in the books of its phase, and it has a run if its
loop takes it. -/
theorem employ_books (hs : session < r.sessions.length) (name : String) :
    ∃ loops count fresh, r.employ session name = { r.engage session name with
      loops := loops, runCount := count, runs := r.runs ++ fresh } ∧
    (∀ loop, loops.isOpen loop = r.loops.isOpen loop) ∧
    fresh.map (·.session) = [session].filter (fun id => r.loops.isOpen (r.executorOf id)) ∧
    ∀ run ∈ fresh, run.phase = name ∧ run.point = .fresh := by
  have same : (r.engage session name).executorOf session = r.executorOf session :=
    executorOf_of_seats (abides_engage ..).seats hs
  simp only [List.filter_cons, ← same, List.filter_nil]
  unfold employ spawn
  by_cases taken : r.loops.isOpen ((r.engage session name).executorOf session)
  · refine ⟨r.loops.push _ (.resume r.runCount), r.runCount + 1,
      [⟨r.runCount, session, name, .fresh⟩], if_pos taken, fun _ => LoopGroup.isOpen_push ..,
      by rw [if_pos taken]; rfl, by simp⟩
  · exact ⟨r.loops, r.runCount, [], by rw [List.append_nil]; exact if_neg taken, fun _ => rfl,
      by rw [if_neg taken]; rfl, nofun⟩

theorem intake_employ (h : Drawn r key session r₁) (k : Keyed home r) :
    Intake name key [session] r (r₁.employ session name) := by
  obtain ⟨instances, runs, loops⟩ := h.rest
  have there : session ∈ r₁.members key := h.member k
  have bound := abides_engage r₁ session name
  have engaged : ∀ id : Nat, (r₁.engage session name).session? id = (r₁.session? id).map fun s =>
      if session = id then { s with phase := some name } else s := fun _ => List.getElem?_modify ..
  obtain ⟨loops', count, fresh, he, isOpen, sessions, new⟩ :=
    employ_books (lt_of_mem_members there) name
  rw [he]
  exact {
    pool := by
      intro p hp
      obtain ⟨p', hp', lends, offer, grown⟩ := h.lends hp
      have length : (r₁.engage session name).sessions.length = r₁.sessions.length :=
        List.length_modify ..
      exact ⟨p', hp', lends, by rw [length]; exact offer, length.trans grown⟩
    current := h.currentOf
    active := by
      intro i hi
      show (r₁.instances.modify name _).get? name = _
      rw [instances, Dict.get?_modify_self, hi]
      rfl
    seats := h.abides.seats.trans bound.seats
    bound := by
      intro id hid
      rw [List.mem_singleton.mp hid]
      obtain ⟨s, hs, rfl⟩ := mem_members.mp there
      refine ⟨{ s with phase := some name }, ?_, rfl, rfl⟩
      refine (engaged session).trans ?_
      rw [show r₁.session? session = some s from hs]
      simp
    others := by
      intro id hlt hid
      have other : session ≠ id := fun he => hid (he ▸ List.mem_singleton_self _)
      refine (engaged id).trans ?_
      rw [h.session?_old hlt]
      simp [other]
    runs := by
      refine ⟨fresh, by rw [runs], sessions.trans (List.filter_congr fun id hid => ?_), new⟩
      rw [List.mem_singleton.mp hid, loops]
      exact congrArg _ (executorOf_of_seats bound.seats (lt_of_mem_members there)).symm
    isOpen := fun loop => (isOpen loop).trans (by rw [loops]) }

end Intake

section Shortage

/-- A pool had nothing left for a phase that asked for a session. -/
structure Missed (name key : String) (r r' : Runner) : Prop where
  pool : ∀ p, r.poolOf key = some p →
    r'.poolOf key = some { p with depletions := p.depletions + 1 }
  flagged : ∀ i, r.instances.get? name = some i →
    r'.instances.get? name = some { i with standing := i.standing.exceedLimit }
  sessions : r'.sessions = r.sessions
  runs : r'.runs = r.runs
  isOpen : ∀ loop, r'.loops.isOpen loop = r.loops.isOpen loop

theorem missed_acquire {p : Pool Nat} (hp : r.poolOf key = some p)
    (none_left : p.offer r.sessions.length = []) (current : r.currentOf key = some name) :
    ∃ r', r.acquire key = (none, r') ∧ Missed name key r r' := by
  obtain ⟨g, hg, rfl⟩ := Option.map_eq_some_iff.mp hp
  obtain ⟨free, made⟩ := List.append_eq_nil_iff.mp none_left
  have full : ¬ g.pool.created < g.pool.max := by
    have := List.range'_eq_nil_iff.mp made
    omega
  have empty : ∀ make : Nat → Nat, g.pool.acquire make =
      (none, { g.pool with depletions := g.pool.depletions + 1 }) := fun make => by
    simp only [Pool.acquire, free, full, if_false]
  let q := r.modifyGroup key fun g' =>
    { g' with pool := { g.pool with depletions := g.pool.depletions + 1 } }
  have there : q.groups.get? key = some
      { g with pool := { g.pool with depletions := g.pool.depletions + 1 } } := by
    simp [q, modifyGroup, hg]
  refine ⟨q.depleted key, by simp only [acquire, hg, empty]; rfl, ?_⟩
  have begun : (q.logDepletion.groups.get? key).bind (·.current) = some name := by
    rw [currentOf, hg] at current
    rw [groups_logDepletion, there]
    exact current
  simp only [depleted, begun]
  unfold logDepletion
  have flags : ∀ i, r.instances.get? name = some i →
      (r.instances.modify name fun i => { i with standing := i.standing.exceedLimit }).get? name =
        some { i with standing := i.standing.exceedLimit } := fun i hi => by
    rw [Dict.get?_modify_self, hi]
    rfl
  have pool : ∀ p, r.poolOf key = some p →
      q.poolOf key = some { p with depletions := p.depletions + 1 } := by
    intro p hp'
    cases hp.symm.trans hp'
    rw [poolOf, there]
    rfl
  split <;> exact ⟨pool, flags, rfl, rfl, fun _ => rfl⟩

theorem acquire_offered {p : Pool Nat} {rest : List Nat} (hp : r.poolOf key = some p)
    (h : p.offer r.sessions.length = session :: rest) :
    ∃ r₁, r.acquire key = (some session, r₁) := by
  obtain ⟨g, hg, rfl⟩ := Option.map_eq_some_iff.mp hp
  have first : ∀ make : Nat → Nat, make g.pool.created = r.sessions.length →
      (g.pool.acquire make).1 = some session := by
    intro make hn
    unfold Pool.offer at h
    unfold Pool.acquire
    split
    · rename_i id free hf
      rw [hf] at h
      cases h
      rfl
    · rename_i hf
      rw [hf, List.nil_append] at h
      cases left : g.pool.max - g.pool.created with
      | zero =>
        rw [left] at h
        cases h
      | succ n =>
        rw [left, List.range'_succ] at h
        cases h
        have room : g.pool.created < g.pool.max := by omega
        simp only [room, if_true, hn]
  simp only [acquire, hg]
  rw [first _ rfl]
  dsimp only
  split <;> exact ⟨_, rfl⟩

end Shortage

section Starting

/-- A phase that runs gets sessions as long as there are some, and misses one once if there are not
enough. -/
theorem startSessions_intake (n : Nat) (k : Keyed home r) (hi : r.instances.get? name = some i)
    (hk : i.phase.key = some key) (running : i.standing.status = .running) {p : Pool Nat}
    (hp : r.poolOf key = some p) (current : r.currentOf key = some name) :
    ∃ q, Intake name key ((p.offer r.sessions.length).take n) r q ∧
      if (p.offer r.sessions.length).length < n then Missed name key q (startSessions name n r)
      else startSessions name n r = q := by
  -- on the sessions still to come, for every runner: what the pool offers loses its first each time
  induction n generalizing r i p with
  | zero => exact ⟨r, .refl name key r, rfl⟩
  | succ n ih =>
    obtain ⟨g, hg, rfl⟩ := Option.map_eq_some_iff.mp hp
    have group : r.groupOf? i.phase = some (key, g) := by
      rw [groupOf?, hk, Option.bind_some, hg]
      rfl
    cases ho : g.pool.offer r.sessions.length with
    | nil =>
      obtain ⟨r', ha, missed⟩ := missed_acquire hp ho current
      have refused : r.startSession name = (.short, r') := by
        simp only [startSession, hi, group, running, if_true, ha]
      refine ⟨r, .refl name key r, ?_⟩
      simp only [startSessions_succ, refused, List.length_nil, Nat.zero_lt_succ, if_true]
      exact missed
    | cons session rest =>
      obtain ⟨r₁, ha⟩ := acquire_offered hp ho
      have admitted : r.startSession name = (.granted, r₁.employ session name) := by
        simp only [startSession, hi, group, running, if_true, ha]
      have once : Intake name key [session] r (r₁.employ session name) :=
        intake_employ (drawn_of_acquire (fun _ hg => k.made hg) ha) k
      have next : Keyed home (r₁.employ session name) := by
        have writes : Writes home .everything [] r (r.startSession name).2 :=
          writes_answers (.everything home name) k (answers r name)
        rw [admitted] at writes
        exact writes.keyed k
      obtain ⟨p', hp', _, offer, _⟩ := once.pool g.pool hp
      rw [ho, List.singleton_append, List.cons.injEq] at offer
      obtain ⟨-, rfl⟩ := offer
      obtain ⟨q, more, left⟩ := ih next (once.active i hi) hk running hp'
        (once.current.trans current)
      refine ⟨q, once.trans more, ?_⟩
      simpa only [startSessions_succ, admitted, List.length_cons, Nat.succ_lt_succ_iff] using left

theorem startSessions_unkeyed (n : Nat) (hi : r.instances.get? name = some i)
    (hk : i.phase.key = none) : startSessions name n r = r := by
  have refused : r.startSession name = (.refused, r) := by
    simp only [startSession, hi, groupOf?, hk, Option.bind_none]
  cases n with
  | zero => rfl
  | succ n => rw [startSessions_succ, refused]

theorem begun_of_start (k : Keyed home r) (hi : r.instances.get? name = some i)
    (fresh : i.standing.status = .notStarted) :
    ∃ q s, r.order name .start = q.attemptLaunch name i.phase.model ∧ Keyed home q ∧
      Unmanned r q ∧ q.instances.get? name = some { i with standing := s } ∧
        s.status = .running ∧ s.active = i.standing.active ∧
          s.limitExceeded = i.standing.limitExceeded ∧
            ∀ key g, i.phase.key = some key → r.groups.get? key = some g →
              q.currentOf key = some name := by
  have moved : ∀ {q : Runner}, Keyed home q → q.instances.get? name = some i →
      ∃ s, q.attemptRun name = (q.move none name s).attemptLaunch name i.phase.model ∧
        Keyed home (q.move none name s) ∧ Unmanned q (q.move none name s) ∧
          (q.move none name s).instances.get? name = some { i with standing := s } ∧
            s.status = .running ∧ s.active = i.standing.active ∧
              s.limitExceeded = i.standing.limitExceeded ∧
                ∀ key, (q.move none name s).currentOf key = q.currentOf key := by
    intro q kq hq
    let s : Standing := { i.standing.become .running with startedAt := some q.now }
    have writes : Writes home .everything [] q (q.move none name s) :=
      writes_move none (.everything home name) kq fun j hj => by
        cases hq.symm.trans hj
        exact ⟨rfl, fun _ => fresh⟩
    refine ⟨s, ?_, writes.keyed kq, unmanned_move hq (.inl rfl), ?_, rfl, rfl, rfl, ?_⟩
    · simp only [attemptRun, hq, Standing.start, fresh, if_true]
      rfl
    · rw [instances_move]
      simp [modifyInstance, hq]
    · intro key
      rw [move_told hq (.inl rfl), deliver_eq]
      rfl
  simp only [order, attemptStart, hi, fresh, if_true]
  cases hg : r.groupOf? i.phase with
  | none =>
    obtain ⟨s, run, kept, still, there, status, active, limit, _⟩ := moved k hi
    refine ⟨_, s, run, kept, still, there, status, active, limit, fun key g hk hgr => ?_⟩
    simp [groupOf?, hk, hgr] at hg
  | some entry =>
    obtain ⟨key, g⟩ := entry
    have homed := home_of_groupOf? k hi hg
    have entered : Writes home .everything [] r (r.enterGroup key name) :=
      writes_enterGroup trivial homed r
    obtain ⟨s, run, kept, still, there, status, active, limit, current⟩ :=
      moved (entered.keyed k) ((instance_enterGroup r key name name).1.trans hi)
    refine ⟨_, s, run, kept, (unmanned_enterGroup r key name).trans still, there, status, active,
      limit, fun other g' hk hg' => ?_⟩
    rw [current]
    obtain ⟨loops, he⟩ := enterGroup_eq r key name
    rw [groupOf?, hk, Option.bind_some, hg'] at hg
    cases hg
    rw [he]
    simp [currentOf, modifyGroup, hg']

theorem finished_of_running (hi : r.instances.get? name = some i)
    (running : i.standing.status = .running) :
    ∃ q s, r.attemptFinish name = (.ok none, q) ∧ Unmanned r q ∧
      q.instances.get? name = some { i with standing := s } ∧ s.status = .finished ∧
        s.active = i.standing.active ∧ s.limitExceeded = i.standing.limitExceeded := by
  let s : Standing := { i.standing.become .finished with finishedAt := some r.now }
  refine ⟨r.move none name s, s, ?_, unmanned_move hi (.inr rfl), ?_, rfl, rfl, rfl⟩
  · simp only [attemptFinish, hi, Standing.finish, running]
    rfl
  · rw [instances_move]
    simp [modifyInstance, hi]

end Starting
end Runner
end LoadGen
