import LoadGen.Proofs.Happenings
import LoadGen.Proofs.Loops

namespace LoadGen.Runner

structure Fresh (r : Runner) : Prop where
  size : 0 < r.loops.size
  loops : ∀ l ∈ r.loops.loops, l = {}
  names : r.instances.keys.Nodup
  instances : ∀ name i, r.instances.get? name = some i → i.standing = {}
  declared : ∀ name i, r.instances.get? name = some i →
    r.phases.find? (·.name == name) = some i.phase
  grouped : ∀ name i key, r.instances.get? name = some i → i.phase.key = some key →
    (r.groups.get? key).isSome
  groups : ∀ key g, r.groups.get? key = some g → g = newGroup r.phases r.loops.size key
  keys : r.groups.keys.Nodup
  sessions : r.sessions = []
  runs : r.runs = []
  fences : r.fences = []
  surveys : r.surveys = []
  pruneQueue : r.pruneQueue = []
  journal : r.journal = []

theorem Fresh.idle {r : Runner} (h : r.Fresh) (loop : Nat) :
    r.loops.posted loop = [] ∧ r.loops.timed loop = [] := by
  unfold LoopGroup.posted LoopGroup.timed
  cases hl : r.loops.loops[loop]? with
  | none => exact ⟨rfl, rfl⟩
  | some l =>
    rw [h.loops l (List.mem_of_getElem? hl)]
    exact ⟨rfl, rfl⟩

/-- Groups were made, and nothing else happened. -/
structure Made (r r' : Runner) : Prop where
  rest : ∃ groups, r' = { r with groups := groups }
  kept : ∀ key g, r.groups.get? key = some g → r'.groups.get? key = some g
  made : ∀ key g, r'.groups.get? key = some g →
    r.groups.get? key = some g ∨ g = newGroup r.phases r.loops.size key
  keys : r.groups.keys.Nodup → r'.groups.keys.Nodup

theorem Made.refl (r : Runner) : Made r r :=
  ⟨⟨r.groups, rfl⟩, fun _ _ => id, fun _ _ => .inl, id⟩

theorem Made.trans {r₁ r₂ r₃ : Runner} (h : Made r₁ r₂) (k : Made r₂ r₃) : Made r₁ r₃ := by
  obtain ⟨groups, rfl⟩ := h.rest
  obtain ⟨groups', rfl⟩ := k.rest
  refine ⟨⟨groups', rfl⟩, fun key g hg => k.kept key g (h.kept key g hg), fun key g hg => ?_,
    k.keys ∘ h.keys⟩
  rcases k.made key g hg with hg | hg
  · exact h.made key g hg
  · exact .inr hg

theorem made_ensureGroup (r : Runner) (p : Phase) : Made r (r.ensureGroup p) := by
  unfold ensureGroup
  split
  · exact .refl r
  · rename_i key _
    split
    · exact .refl r
    · rename_i hc
      have hn : r.groups.get? key = none := by simpa [Dict.contains] using hc
      refine ⟨⟨_, rfl⟩, fun k g hg => ?_, fun k g hg => ?_,
        fun hk => Dict.keys_insert_nodup hk hn _⟩
      · have hne : k ≠ key := by
          intro same
          subst same
          rw [hn] at hg
          cases hg
        rw [Dict.get?_insert_of_ne hne]
        exact hg
      · by_cases he : k = key
        · subst he
          rw [Dict.get?_insert_self] at hg
          exact .inr (Option.some.inj hg).symm
        · rw [Dict.get?_insert_of_ne he] at hg
          exact .inl hg

theorem ensureGroup_there (r : Runner) (p : Phase) {key : String} (hk : p.key = some key) :
    ((r.ensureGroup p).groups.get? key).isSome := by
  unfold ensureGroup
  rw [hk]
  dsimp only
  split
  · assumption
  · simp

theorem makeInstances_made {phases : List Phase} {instances instances' : Dict Instance}
    {r r' : Runner} (h : makeInstances phases instances r = (.ok instances', r'))
    (hn : instances.keys.Nodup) :
    Made r r' ∧ instances'.keys.Nodup ∧
      ∀ name i, instances'.get? name = some i → instances.get? name = some i ∨
        (instances.get? name = none ∧ i.standing = {} ∧
          phases.find? (·.name == name) = some i.phase ∧
          ∀ key, i.phase.key = some key → (r'.groups.get? key).isSome) := by
  induction phases generalizing instances r with
  | nil =>
    cases h
    exact ⟨.refl _, hn, fun _ _ => .inl⟩
  | cons p rest ih =>
    have made := made_ensureGroup r p
    simp only [makeInstances] at h
    split at h
    · cases h
    · rename_i hc
      have hfree : instances.get? p.name = none := by simpa [Dict.contains] using hc
      obtain ⟨hm, hn', hi⟩ := ih h (Dict.keys_insert_nodup hn hfree _)
      refine ⟨made.trans hm, hn', fun name i hg => ?_⟩
      rcases hi name i hg with hg | hg
      · by_cases he : name = p.name
        · subst he
          rw [Dict.get?_insert_self] at hg
          cases hg
          refine .inr ⟨hfree, rfl, by simp, fun key hk => ?_⟩
          obtain ⟨g, hg⟩ := Option.isSome_iff_exists.mp (ensureGroup_there r p hk)
          rw [hm.kept key g hg]
          rfl
        · rw [Dict.get?_insert_of_ne he] at hg
          exact .inl hg
      · obtain ⟨hno, hs, hf, hk⟩ := hg
        have hne : name ≠ p.name := by
          intro same
          subst same
          rw [Dict.get?_insert_self] at hno
          cases hno
        rw [Dict.get?_insert_of_ne hne] at hno
        refine .inr ⟨hno, hs, ?_, hk⟩
        rw [List.find?_cons_of_neg (by simpa using Ne.symm hne)]
        exact hf

/-- A runner that has been created, and has no phases in play. -/
structure Idle (r : Runner) : Prop where
  loops : ∃ threads, threads ≠ 0 ∧ r.loops = ⟨List.replicate threads {}⟩
  instances : r.instances = .empty
  groups : r.groups = .empty
  sessions : r.sessions = []
  requests : r.requests = []
  runs : r.runs = []
  runCount : r.runCount = 0
  fences : r.fences = []
  surveys : r.surveys = []
  pruneQueue : r.pruneQueue = []
  journal : r.journal = []

theorem idle_of_create {name : String} {agent now processors : Nat} {settings : Settings}
    {phases : List Phase} {plans : List ClientPlan} {r : Runner}
    (h : create name agent now processors settings phases plans = .ok r) : r.Idle := by
  unfold create at h
  split at h
  · cases h
  · obtain ⟨default?, _, h⟩ := bind_eq_ok.mp h
    obtain ⟨loops, hl, h⟩ := bind_eq_ok.mp h
    obtain ⟨clients, _, h⟩ := bind_eq_ok.mp h
    cases h
    unfold LoopGroup.create at hl
    split at hl
    · cases hl
    · rename_i hne
      cases hl
      exact ⟨⟨_, hne, rfl⟩, rfl, rfl, rfl, rfl, rfl, rfl, rfl, rfl, rfl, rfl⟩

theorem init_made {made r : Runner} (h : made.init = (.ok (), r)) :
    ∃ instances q, makeInstances made.phases .empty made = (.ok instances, q) ∧
      r = { q with instances := instances }.startWatchdog := by
  unfold init at h
  split at h
  · cases h
  · split at h
    · cases h
    · rename_i instances q entered
      cases h
      exact ⟨instances, q, entered, rfl⟩

theorem fresh_of_initial {r : Runner} (h : r.Initial) : r.Fresh := by
  obtain ⟨name, agent, now, processors, settings, phases, plans, listening, made, hc, hi⟩ := h
  have idle := idle_of_create hc
  obtain ⟨threads, hne, hl⟩ := idle.loops
  obtain ⟨instances, q, hm, rfl⟩ := init_made hi
  obtain ⟨built, hn, there⟩ := makeInstances_made hm List.nodup_nil
  obtain ⟨groups, rfl⟩ := built.rest
  exact {
    size := by
      change 0 < made.loops.size
      rw [hl]
      simpa [LoopGroup.size] using Nat.pos_of_ne_zero hne
    loops := by
      intro l hm
      change l ∈ made.loops.loops at hm
      rw [hl] at hm
      exact (List.mem_replicate.mp hm).2
    names := hn
    instances := by
      intro name i hi
      rcases there name i hi with hi | hi
      · cases hi
      · exact hi.2.1
    declared := by
      intro name i hi
      rcases there name i hi with hi | hi
      · cases hi
      · exact hi.2.2.1
    grouped := by
      intro name i key hi hk
      rcases there name i hi with hi | hi
      · cases hi
      · exact hi.2.2.2 key hk
    groups := by
      intro key g hgr
      rcases built.made key g hgr with hgr | hgr
      · change made.groups.get? key = some g at hgr
        rw [idle.groups] at hgr
        cases hgr
      · exact hgr
    keys := by
      apply built.keys
      change made.groups.keys.Nodup
      rw [idle.groups]
      exact List.nodup_nil
    sessions := idle.sessions
    runs := idle.runs
    fences := idle.fences
    surveys := idle.surveys
    pruneQueue := idle.pruneQueue
    journal := idle.journal }

theorem unused_of_initial {r : Runner} (h : r.Initial) : r.requests = [] ∧ r.runCount = 0 := by
  obtain ⟨name, agent, now, processors, settings, phases, plans, listening, made, hc, hi⟩ := h
  have idle := idle_of_create hc
  obtain ⟨instances, q, hm, rfl⟩ := init_made hi
  obtain ⟨groups, rfl⟩ := (makeInstances_made hm List.nodup_nil).1.rest
  exact ⟨idle.requests, idle.runCount⟩

/-- A runner for some phases, with nothing to connect to, on so many loops. -/
def ready (threads : Nat) (phases : List Phase) : Except Failure Runner := do
  let made ← create "bench" 0 0 threads {} phases []
  let (done, r) := made.init
  done
  return r

theorem initial_of_ready {threads : Nat} {phases : List Phase} {r : Runner}
    (h : ready threads phases = .ok r) : r.Initial := by
  obtain ⟨made, hc, h⟩ := bind_eq_ok.mp h
  obtain ⟨⟨⟩, hd, h⟩ := bind_eq_ok.mp h
  refine ⟨"bench", 0, 0, threads, {}, phases, [], made.listening, made, hc, ?_⟩
  cases h
  exact Prod.ext hd rfl

/-- A phase whose only session waits at a gate. -/
def gatePhase : Phase where
  name := "login"
  key := some "users"
  model := .always 1
  script := { name := "wait", actions := [.gate] }

/-- A runner on two loops that has nothing but this phase. -/
def gateRunner : Runner := (ready 2 [gatePhase]).toOption.get rfl

theorem gateRunner_initial : gateRunner.Initial :=
  @initial_of_ready 2 [gatePhase] gateRunner rfl

end LoadGen.Runner
