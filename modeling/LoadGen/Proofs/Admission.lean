import LoadGen.Proofs.Ownership

namespace LoadGen.Runner

theorem members_append {r r' : Runner} {s : Session} (h : r'.sessions = r.sessions ++ [s])
    (key : String) :
    r'.members key = r.members key ++ if s.group = key then [r.sessions.length] else [] := by
  have old : (List.range r.sessions.length).filter (fun id =>
      decide ((r'.sessions[id]?).map (·.group) = some key)) = r.members key := by
    apply List.filter_congr
    intro id hid
    rw [h, List.getElem?_append_left (List.mem_range.mp hid)]
  have new : r'.sessions[r.sessions.length]? = some s := by simp [h]
  have grown : r'.sessions.length = r.sessions.length + 1 := by simp [h]
  rw [members, grown, List.range_succ, List.filter_append, old]
  congr 1
  by_cases hk : s.group = key
  · simp [new, hk]
  · simp [new, hk]

/-- A session is out of its pool, and no run has it yet. -/
structure Lent (r r₁ : Runner) (key : String) (session : Nat) : Prop where
  loops : r₁.loops = r.loops
  instances : r₁.instances = r.instances
  runs : r₁.runs = r.runs
  runCount : r₁.runCount = r.runCount
  pool : ∃ g g₁, r.groups.get? key = some g ∧ r₁.groups.get? key = some g₁ ∧
    g₁.pool.free ⊆ g.pool.free ∧ (session :: g₁.pool.free ++ r.crew key).Perm (r₁.members key) ∧
    g₁.pool.created = (r₁.members key).length
  pools : ∀ k, k ≠ key → r₁.groups.get? k = r.groups.get? k
  members : ∀ k, k ≠ key → r₁.members k = r.members k
  sessions : ∀ id : Nat, id ≠ session → r₁.sessions[id]? = r.sessions[id]?
  seated : ∀ s ∈ r₁.sessions, s.executor < r.loops.size
  now : r₁.now = r.now

theorem lent_free {r : Runner} (o : r.Owned) {key : String} {g : Group} {pool : Pool Nat}
    {session : Nat} (hg : r.groups.get? key = some g) (hf : g.pool.free = session :: pool.free)
    (hm : pool.created = g.pool.created) :
    Lent r (r.modifyGroup key fun h => { h with pool := pool }) key session := by
  obtain ⟨hp, hc⟩ := o.shared key g hg
  rw [hf] at hp
  have hg₁ : (r.modifyGroup key fun h => { h with pool := pool }).groups.get? key =
      some { g with pool := pool } := by simp [Runner.modifyGroup, hg]
  refine ⟨rfl, rfl, rfl, rfl, ⟨g, _, hg, hg₁, ?_, hp, hm.trans hc⟩,
    fun k hk => Dict.get?_modify_of_ne hk .., fun _ _ => rfl, fun _ _ => rfl, o.seated, rfl⟩
  rw [hf]
  exact List.subset_cons_self ..

/-- A pool hands out a session that is made for that, because none is free. -/
theorem lent_new {r r₁ : Runner} (o : r.Owned) {key : String} {g : Group} {pool : Pool Nat}
    {s : Session} (hg : r.groups.get? key = some g) (hf : g.pool.free = []) (he : pool.free = [])
    (hm : pool.created = g.pool.created + 1) (hk : s.group = key)
    (hx : s.executor < r.loops.size) (hs : r₁.sessions = r.sessions ++ [s])
    (hgs : r₁.groups = (r.modifyGroup key fun h => { h with pool := pool }).groups)
    (hl : r₁.loops = r.loops) (hi : r₁.instances = r.instances) (hr : r₁.runs = r.runs)
    (hc : r₁.runCount = r.runCount) (hw : r₁.now = r.now) : Lent r r₁ key r.sessions.length := by
  obtain ⟨hp, hn⟩ := o.shared key g hg
  rw [hf] at hp
  have grown := members_append hs
  have hg₁ : r₁.groups.get? key = some { g with pool := pool } := by
    simp [hgs, Runner.modifyGroup, hg]
  refine ⟨hl, hi, hr, hc, ⟨g, _, hg, hg₁, ?_, ?_, ?_⟩, ?_, ?_, ?_, ?_, hw⟩
  · rw [he]
    exact List.nil_subset _
  · rw [grown key, if_pos hk, he]
    exact (hp.cons _).trans (List.perm_append_singleton ..).symm
  · rw [grown key, if_pos hk, List.length_append, hm, hn]
    rfl
  · intro k hne
    rw [hgs]
    exact Dict.get?_modify_of_ne hne ..
  · intro k hne
    rw [grown k, if_neg (by rw [hk]; exact hne.symm), List.append_nil]
  · intro id hne
    rw [hs]
    rcases Nat.lt_or_gt_of_ne hne with hlt | hgt
    · exact List.getElem?_append_left hlt
    · rw [List.getElem?_eq_none (Nat.le_of_lt hgt), List.getElem?_eq_none]
      rw [List.length_append]
      exact hgt
  · intro t ht
    rw [hs] at ht
    rcases List.mem_append.mp ht with ht | ht
    · exact o.seated t ht
    · rw [List.mem_singleton.mp ht]
      exact hx

theorem lent_of_acquire {r r₁ : Runner} (o : r.Owned) {key : String} {session : Nat}
    (h : r.acquire key = (some session, r₁)) : Lent r r₁ key session := by
  cases acquires h with
  | @anew g group got =>
    rcases Pool.acquire_some got with ⟨hf, _⟩ | ⟨hf, he, _, hm⟩
    · have hin : r.sessions.length ∈ r.members key := by
        apply (o.shared key g group).1.subset
        rw [hf]
        exact List.mem_cons_self
      obtain ⟨s, hs, _⟩ := mem_members.mp hin
      exact absurd (List.getElem?_eq_some_iff.mp hs).1 (Nat.lt_irrefl _)
    · exact lent_new o group hf he hm rfl (Nat.mod_lt _ o.size) rfl rfl rfl rfl rfl rfl rfl
  | again group got old =>
    rcases Pool.acquire_some got with ⟨hf, hm⟩ | ⟨_, _, new, _⟩
    · exact lent_free o group hf hm
    · exact absurd new old

namespace Lent
variable {r r₁ : Runner} {key : String} {session : Nat}

theorem session_of (h : Lent r r₁ key session) :
    ∃ s, r₁.sessions[session]? = some s ∧ s.group = key := by
  obtain ⟨_, g₁, _, _, _, hp, _⟩ := h.pool
  exact mem_members.mp (hp.subset List.mem_cons_self)

theorem apart (h : Lent r r₁ key session) {g₁ : Group} (hg : r₁.groups.get? key = some g₁) :
    session ∉ g₁.pool.free ∧ session ∉ r.crew key := by
  obtain ⟨_, g₂, _, hg₂, _, hp, _⟩ := h.pool
  cases hg.symm.trans hg₂
  have hn := (hp.nodup_iff).mpr (r₁.members_nodup key)
  rw [List.cons_append, List.nodup_cons, List.mem_append, not_or] at hn
  exact hn.1

theorem not_atWork (h : Lent r r₁ key session) (o : r.Owned) : ¬ r.AtWork session := by
  intro held
  obtain ⟨run, hm, rfl⟩ := held
  obtain ⟨s, hs, _, hb⟩ := o.bound run hm
  obtain ⟨g, g₁, hg, hg₁, hf, hp, _⟩ := h.pool
  by_cases hk : s.group = key
  · refine (h.apart hg₁).2 (List.mem_map_of_mem (List.mem_filter.mpr ⟨hm, ?_⟩))
    simp [hb, hk]
  · have hin : run.session ∈ r₁.members s.group := by
      rw [h.members _ hk]
      exact mem_members.mpr ⟨s, hs, rfl⟩
    obtain ⟨t, ht, hgt⟩ := mem_members.mp hin
    obtain ⟨u, hu, hgu⟩ := h.session_of
    cases ht.symm.trans hu
    exact hk (hgt.symm.trans hgu)

end Lent

/-- The books of a phase after a session has gone to work for it. -/
def hire (r : Runner) (session : Nat) (phase : String) : Runner :=
  { (r.modifyInstance phase fun i => { i with standing := i.standing.join }).modifySession session
      fun s => { s with phase := some phase } with
    runs := r.runs ++ [{ id := r.runCount, session := session, phase := phase }]
    runCount := r.runCount + 1 }

section Hire
variable {r r₁ : Runner} {key phase : String} {session : Nat} (h : Lent r r₁ key session)
include h

theorem hire_runs : (r₁.hire session phase).runs =
    r.runs ++ [{ id := r.runCount, session := session, phase := phase }] := by
  rw [hire, h.runs, h.runCount]

theorem hire_get? (name : String) : (r₁.hire session phase).instances.get? name =
    if name = phase then
      (r.instances.get? name).map fun i => { i with standing := i.standing.join }
    else r.instances.get? name := by
  rw [← h.instances]
  exact Dict.get?_modify ..

theorem hire_keyOf (name : String) : (r₁.hire session phase).keyOf name = r.keyOf name := by
  have hm := keyOf_modifyInstance r₁ phase
    (f := fun i => { i with standing := i.standing.join }) (fun _ => rfl) name
  rwa [keyOf, keyOf, h.instances] at hm

theorem hire_crew (hp : r.keyOf phase = some key) (k : String) :
    (r₁.hire session phase).crew k = r.crew k ++ if k = key then [session] else [] := by
  simp only [crew, hire_keyOf h, hire_runs h, List.filter_append, List.map_append]
  congr 1
  by_cases he : k = key
  · simp [he, hp]
  · simp [hp, he, Ne.symm he]

omit h in
theorem hire_members (k : String) : (r₁.hire session phase).members k = r₁.members k := by
  apply members_congr (List.length_modify ..)
  intro id
  simp only [hire, Runner.modifySession, Runner.modifyInstance, List.getElem?_modify]
  split <;> simp [Function.comp_def]

theorem hire_session_of_ne {id : Nat} (hne : id ≠ session) :
    (r₁.hire session phase).sessions[id]? = r.sessions[id]? := by
  rw [← h.sessions id hne]
  simp [hire, Runner.modifySession, Runner.modifyInstance, hne.symm]

theorem hire_bound (o : r.Owned) (hp : r.keyOf phase = some key) :
    ∀ run ∈ (r₁.hire session phase).runs, ∃ s,
      (r₁.hire session phase).sessions[run.session]? = some s ∧ s.phase = some run.phase ∧
        (r₁.hire session phase).keyOf run.phase = some s.group := by
  intro run hm
  rw [hire_runs h] at hm
  rw [hire_keyOf h]
  rcases List.mem_append.mp hm with hm | hm
  · rw [hire_session_of_ne h fun he => h.not_atWork o ⟨run, hm, he⟩]
    exact o.bound run hm
  · obtain ⟨s, hs, hg⟩ := h.session_of
    rw [List.mem_singleton.mp hm]
    refine ⟨{ s with phase := some phase }, ?_, rfl, ?_⟩
    · simp [hire, Runner.modifyInstance, Runner.modifySession, hs]
    · rw [hp, ← hg]

theorem hire_shared (o : r.Owned) (hp : r.keyOf phase = some key) :
    ∀ k g, (r₁.hire session phase).groups.get? k = some g →
      (g.pool.free ++ (r₁.hire session phase).crew k).Perm ((r₁.hire session phase).members k) ∧
        g.pool.created = ((r₁.hire session phase).members k).length := by
  intro k g hg
  change r₁.groups.get? k = some g at hg
  rw [hire_members, hire_crew h hp]
  by_cases he : k = key
  · subst he
    obtain ⟨_, g₁, _, hg₁, _, hperm, hc⟩ := h.pool
    cases hg.symm.trans hg₁
    refine ⟨?_, hc⟩
    rw [if_pos rfl, ← List.append_assoc]
    exact (List.perm_append_singleton ..).trans hperm
  · rw [if_neg he, List.append_nil, h.members k he]
    rw [h.pools k he] at hg
    exact o.shared k g hg

theorem hire_calm (o : r.Owned) :
    ∀ k g, (r₁.hire session phase).groups.get? k = some g → ∀ id ∈ g.pool.free, ∀ s,
      (r₁.hire session phase).sessions[id]? = some s → s.Calm := by
  intro k g hg id hid s hs
  change r₁.groups.get? k = some g at hg
  by_cases he : k = key
  · subst he
    obtain ⟨g₀, g₁, hg₀, hg₁, hf, _⟩ := h.pool
    cases hg.symm.trans hg₁
    rw [hire_session_of_ne h fun e => (h.apart hg).1 (e ▸ hid)] at hs
    exact o.calm k g₀ hg₀ id (hf hid) s hs
  · rw [h.pools k he] at hg
    have hne : id ≠ session := by
      intro same
      subst same
      have hin : id ∈ r₁.members k := by
        rw [h.members k he]
        exact (o.shared k g hg).1.subset (List.mem_append_left _ hid)
      obtain ⟨t, ht, hgt⟩ := mem_members.mp hin
      obtain ⟨u, hu, hgu⟩ := h.session_of
      cases ht.symm.trans hu
      exact he (hgt.symm.trans hgu)
    rw [hire_session_of_ne h hne] at hs
    exact o.calm k g hg id hid s hs

theorem hire_owned (o : r.Owned) {i : Instance} (hi : r.instances.get? phase = some i)
    (hk : i.phase.key = some key) (hs : i.standing.status = .running) :
    (r₁.hire session phase).Owned := by
  have hp : r.keyOf phase = some key := by simp [keyOf, hi, hk]
  have hloops : (r₁.hire session phase).loops = r.loops := h.loops
  exact {
    size := by
      rw [hloops]
      exact o.size
    running := by
      rw [hloops]
      exact o.running
    names := by
      have hn : (r₁.hire session phase).instances.keys = r₁.instances.keys :=
        Dict.keys_modify ..
      rw [hn, h.instances]
      exact o.names
    lawful := by
      intro name j hj
      rw [hire_get? h] at hj
      split at hj
      · rename_i he
        subst he
        rw [hi] at hj
        cases hj
        exact Standing.join_lawful (o.lawful _ _ hi) hs
      · exact o.lawful name j hj
    counted := by
      intro name j hj
      rw [hire_get? h] at hj
      simp only [runsOf, hire_runs h, List.countP_append]
      split at hj
      · rename_i he
        subst he
        rw [hi] at hj
        cases hj
        simp [Standing.join, o.counted _ _ hi, runsOf]
      · rename_i he
        simp [o.counted name j hj, runsOf, Ne.symm he]
    grouped := by
      intro name k hn
      rw [hire_keyOf h] at hn
      change (r₁.groups.get? k).isSome
      by_cases he : k = key
      · obtain ⟨_, g₁, _, hg₁, _⟩ := h.pool
        rw [he, hg₁]
        rfl
      · rw [h.pools k he]
        exact o.grouped name k hn
    ids := by
      rw [hire_runs h, List.map_append, List.nodup_append]
      refine ⟨o.ids, by simp, fun a ha b hb => ?_⟩
      obtain ⟨run, hm, rfl⟩ := List.mem_map.mp ha
      rw [List.mem_singleton.mp hb]
      exact Nat.ne_of_lt (o.numbered run hm)
    numbered := by
      intro run hm
      have hc : (r₁.hire session phase).runCount = r.runCount + 1 :=
        congrArg (· + 1) h.runCount
      rw [hire_runs h] at hm
      rw [hc]
      rcases List.mem_append.mp hm with hm | hm
      · have := o.numbered run hm
        omega
      · simp [List.mem_singleton.mp hm]
    bound := hire_bound h o hp
    shared := hire_shared h o hp
    calm := hire_calm h o
    seated := by
      intro s hm
      rw [hloops]
      obtain ⟨id, hm⟩ := List.mem_iff_getElem?.mp hm
      have hm' : (r₁.sessions.modify session fun s => { s with phase := some phase })[id]? =
          some s := hm
      rw [List.getElem?_modify] at hm'
      obtain ⟨t, ht, he⟩ := Option.map_eq_some_iff.mp hm'
      have hx := h.seated t (List.mem_of_getElem? ht)
      rw [← he]
      split <;> exact hx }

theorem employ_eq (o : r.Owned) : r₁.employ session phase = (r₁.hire session phase).push
    ((r₁.hire session phase).executorOf session) (.resume r₁.runCount) := by
  obtain ⟨s, hs, _⟩ := h.session_of
  have hx : s.executor < r₁.loops.size := by
    rw [h.loops]
    exact h.seated s (List.mem_of_getElem? hs)
  have hopen := LoopGroup.isOpen_of_running (by rw [h.loops]; exact o.running) hx
  have hex : (((r₁.modifyInstance phase fun i =>
      { i with standing := i.standing.join }).modifySession session fun s =>
        { s with phase := some phase }).executorOf session) = s.executor := by
    simp [executorOf, session?, Runner.modifySession, Runner.modifyInstance, hs]
  unfold employ spawn
  dsimp only
  rw [hex, if_pos (by exact hopen), ← hex]
  rfl

theorem holders_employ (o : r.Owned) :
    SameHolders (r₁.hire session phase) (r₁.employ session phase) := by
  rw [employ_eq h o]
  exact .push ..

end Hire

theorem Owned.employ {r r₁ : Runner} (o : r.Owned) {phase key : String} {i : Instance}
    {session : Nat} (h : Lent r r₁ key session) (hi : r.instances.get? phase = some i)
    (hk : i.phase.key = some key) (hs : i.standing.status = .running) :
    (r₁.employ session phase).Owned :=
  (hire_owned h o hi hk hs).same (holders_employ h o)

end LoadGen.Runner
