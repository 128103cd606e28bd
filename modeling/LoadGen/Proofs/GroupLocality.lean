import LoadGen.Proofs.Regions

namespace LoadGen.Runner

/-- Whatever names a group and a phase names a phase of that group, and whatever names a session of a
group names one that was made for it. -/
structure Keyed (home : String → Option String) (r : Runner) : Prop where
  declared : ∀ name, r.keyOf name = home name
  names : ∀ name i, r.instances.get? name = some i → i.phase.name = name
  distinct : r.groups.keys.Nodup
  grouped : ∀ name key, home name = some key → key ∈ r.groups.keys
  ids : (r.runs.map (·.id)).Nodup
  numbered : ∀ run ∈ r.runs, run.id < r.runCount
  staffed : ∀ run ∈ r.runs, ∃ key, home run.phase = some key ∧ run.session ∈ r.members key
  bound : ∀ id s phase, r.session? id = some s → s.phase = some phase → home phase = some s.group
  inFlight : ∀ id s, r.session? id = some s → ∀ request ∈ s.inFlight, r.owner? request = some id
  owned : ∀ id ∈ r.owners, id < r.sessions.length
  buckets : ∀ id q b, r.request? id = some q → q.bucket = some b → r.Measures home q.session b
  free : ∀ key g, r.groups.get? key = some g → ∀ id ∈ g.pool.free, id ∈ r.members key
  current : ∀ key g phase, r.groups.get? key = some g → g.current = some phase →
    home phase = some key
  boards : ∀ key g, r.groups.get? key = some g → ∀ b ∈ g.boards, ∀ phase ∈ b.phaseNames,
    home phase = some key
  fences : ∀ f ∈ r.fences, home f.phase = some f.group
  tasks : ∀ t, r.Pending t → t.Homed home

namespace Keyed
variable {home : String → Option String} {R : Region} {r r' : Runner}

theorem made (k : Keyed home r) {key : String} {g : Group} (hg : r.groups.get? key = some g) :
    ∀ id ∈ g.pool.free, id < r.sessions.length :=
  fun id hid => lt_of_mem_members (k.free key g hg id hid)

theorem apart (k : Keyed home r) (h : Apart home R r r') : Keyed home r' := by
  have members : ∀ key, r'.members key = r.members key := fun key =>
    members_congr (by rw [h.sessions]) fun _ => by rw [h.sessions]
  exact {
    declared := fun name => by rw [keyOf, h.instances]; exact k.declared name
    names := by rw [h.instances]; exact k.names
    distinct := by rw [h.groups]; exact k.distinct
    grouped := by rw [h.groups]; exact k.grouped
    ids := by rw [h.runs]; exact k.ids
    numbered := by rw [h.runs, h.runCount]; exact k.numbered
    staffed := by simpa only [h.runs, members] using k.staffed
    bound := by simpa only [session?, h.sessions] using k.bound
    inFlight := by simpa only [session?, owner?, request?, h.sessions, h.requests] using k.inFlight
    owned := by simpa only [owners, h.sessions, h.requests] using k.owned
    buckets := by simpa only [Measures, request?, h.requests, members] using k.buckets
    free := by simpa only [h.groups, members] using k.free
    current := by rw [h.groups]; exact k.current
    boards := by rw [h.groups]; exact k.boards
    fences := by
      intro f hf
      rcases h.fences f hf with ⟨f₀, hf₀, hp, hg⟩ | homed
      · rw [hp, hg]
        exact k.fences f₀ hf₀
      · exact homed
    tasks := fun t ht => (h.tasks t ht).elim (k.tasks t) id }

theorem modifyInstance (k : Keyed home r) (phase : String) {f : Instance → Instance}
    (h : ∀ i, r.instances.get? phase = some i → (f i).phase = i.phase) :
    Keyed home (r.modifyInstance phase f) :=
  { k with
    declared := fun name => ((abides_modifyInstance r phase h).keyOf name).trans (k.declared name)
    names := by
      intro name i hi
      rcases Dict.eq_of_get?_modify hi with ⟨rfl, j, hj, rfl⟩ | ⟨_, hi⟩
      · rw [h j hj]
        exact k.names name j hj
      · exact k.names name i hi }

theorem regroup (k : Keyed home r) {d : Dict Group} (keys : d.keys = r.groups.keys)
    (h : ∀ key g', d.get? key = some g' → ∃ g, r.groups.get? key = some g ∧
      (∀ id ∈ g'.pool.free, id ∈ g.pool.free ∨ id ∈ r.members key) ∧
      (∀ phase, g'.current = some phase → g.current = some phase ∨ home phase = some key) ∧
      ∀ b' ∈ g'.boards, ∀ phase ∈ b'.phaseNames,
        (∃ b ∈ g.boards, phase ∈ b.phaseNames) ∨ home phase = some key) :
    Keyed home { r with groups := d } :=
  { k with
    distinct := keys ▸ k.distinct
    grouped := fun name key hk => keys ▸ k.grouped name key hk
    free := by
      intro key g' hg' id hid
      obtain ⟨g, hg, hf, _⟩ := h key g' hg'
      exact (hf id hid).elim (k.free key g hg id) fun there => there
    current := by
      intro key g' phase hg' hc
      obtain ⟨g, hg, _, hcur, _⟩ := h key g' hg'
      exact (hcur phase hc).elim (k.current key g phase hg) id
    boards := by
      intro key g' hg' b' hb' phase hp
      obtain ⟨g, hg, _, _, hb⟩ := h key g' hg'
      rcases hb b' hb' phase hp with ⟨b, hm, hp⟩ | homed
      · exact k.boards key g hg b hm phase hp
      · exact homed }

theorem modifySession (k : Keyed home r) (id : Nat) {f : Session → Session}
    (h : ∀ s, r.session? id = some s → (f s).seat = s.seat ∧
      (∀ phase, (f s).phase = some phase → s.phase = some phase ∨ home phase = some s.group) ∧
      ∀ request ∈ (f s).inFlight, request ∈ s.inFlight ∨ r.owner? request = some id) :
    Keyed home (r.modifySession id f) := by
  have abides := abides_modifySession r id fun s hs => (h s hs).1
  have either : ∀ {other : Nat} {s' : Session}, (r.modifySession id f).session? other = some s' →
      r.session? other = some s' ∨
        (other = id ∧ ∃ s, r.session? id = some s ∧ s' = f s) := by
    intro other s' hs
    simp only [session?, Runner.modifySession, List.getElem?_modify] at hs ⊢
    split at hs
    · rename_i he
      subst he
      obtain ⟨s, there, rfl⟩ := Option.map_eq_some_iff.mp hs
      exact .inr ⟨rfl, s, there, rfl⟩
    · exact .inl (by simpa using hs)
  exact { k with
    staffed := by
      intro run hm
      obtain ⟨key, hk, there⟩ := k.staffed run hm
      exact ⟨key, hk, abides.member there⟩
    bound := by
      intro other s' phase hs hp
      rcases either hs with hs | ⟨rfl, s, there, rfl⟩
      · exact k.bound other s' phase hs hp
      · rw [(Prod.mk.inj (h s there).1).1]
        exact ((h s there).2.1 phase hp).elim (k.bound other s phase there) fun homed => homed
    inFlight := by
      intro other s' hs request hm
      rcases either hs with hs | ⟨rfl, s, there, rfl⟩
      · exact k.inFlight other s' hs request hm
      · exact ((h s there).2.2 request hm).elim (k.inFlight other s there request) fun own => own
    owned := fun other ho => by
      rw [Runner.modifySession, List.length_modify]
      exact k.owned other ho
    buckets := fun other q b hq hb =>
      ⟨(k.buckets other q b hq hb).1, abides.member (k.buckets other q b hq hb).2⟩
    free := fun key g hg other hf => abides.member (k.free key g hg other hf) }

theorem rewish (k : Keyed home r) {l : List Request} (owners : r.owners <+: l.map (·.session))
    (owned : ∀ id ∈ l.map (·.session), id < r.sessions.length)
    (h : ∀ (id : Nat) q b, l[id]? = some q → q.bucket = some b → r.Measures home q.session b) :
    Keyed home { r with requests := l } := by
  have abides : Abides r { r with requests := l } := { Abides.refl r with owners := owners }
  exact { k with
    inFlight := fun id s hs request hm => abides.owner? (k.inFlight id s hs request hm)
    owned := owned
    buckets := h }

theorem rerun (k : Keyed home r) {l : List Run}
    (h : List.Sublist (l.map Run.core) (r.runs.map Run.core)) : Keyed home { r with runs := l } := by
  have there : ∀ run ∈ l, ∃ run₀ ∈ r.runs, run₀.core = run.core := fun run hm =>
    List.mem_map.mp (h.subset (List.mem_map_of_mem hm))
  exact { k with
    ids := by
      have all := k.ids
      rw [← Run.ids_core] at all ⊢
      exact all.sublist (h.map _)
    numbered := by
      intro run hm
      obtain ⟨run₀, hm₀, he⟩ := there run hm
      rw [← (Run.core_eq he).1]
      exact k.numbered run₀ hm₀
    staffed := by
      intro run hm
      obtain ⟨run₀, hm₀, he⟩ := there run hm
      rw [← (Run.core_eq he).2.1, ← (Run.core_eq he).2.2]
      exact k.staffed run₀ hm₀ }

theorem addRun (k : Keyed home r) {session : Nat} {phase key : String} (hk : home phase = some key)
    (hm : session ∈ r.members key) : Keyed home { r with
      runs := r.runs ++ [{ id := r.runCount, session := session, phase := phase }]
      runCount := r.runCount + 1 } :=
  { k with
    ids := by
      rw [List.map_append, List.nodup_append]
      refine ⟨k.ids, by simp, fun a ha b hb => ?_⟩
      obtain ⟨run, hr, rfl⟩ := List.mem_map.mp ha
      rw [List.mem_singleton.mp hb]
      exact Nat.ne_of_lt (k.numbered run hr)
    numbered := by
      intro run hr
      rcases List.mem_append.mp hr with hr | hr
      · exact Nat.lt_succ_of_lt (k.numbered run hr)
      · rw [List.mem_singleton.mp hr]
        exact Nat.lt_succ_self _
    staffed := by
      intro run hr
      rcases List.mem_append.mp hr with hr | hr
      · exact k.staffed run hr
      · rw [List.mem_singleton.mp hr]
        exact ⟨key, hk, hm⟩ }

theorem addSession (k : Keyed home r) {s : Session} (hp : s.phase = none) (hi : s.inFlight = []) :
    Keyed home { r with sessions := r.sessions ++ [s] } := by
  have abides : Abides r { r with sessions := r.sessions ++ [s] } :=
    { Abides.refl r with seats := ⟨[s.seat], by simp [seats]⟩ }
  have either : ∀ {other : Nat} {s' : Session},
      ({ r with sessions := r.sessions ++ [s] } : Runner).session? other = some s' →
        r.session? other = some s' ∨ s' = s := by
    intro other s' hs
    simp only [session?, List.getElem?_append] at hs ⊢
    split at hs
    · exact .inl hs
    · exact .inr (List.mem_singleton.mp (List.mem_of_getElem? hs))
  exact { k with
    staffed := by
      intro run hm
      obtain ⟨key, hk, there⟩ := k.staffed run hm
      exact ⟨key, hk, abides.member there⟩
    bound := by
      intro other s' phase hs hph
      rcases either hs with hs | rfl
      · exact k.bound other s' phase hs hph
      · cases hp.symm.trans hph
    inFlight := by
      intro other s' hs request hm
      rcases either hs with hs | rfl
      · exact k.inFlight other s' hs request hm
      · rw [hi] at hm
        cases hm
    owned := fun other ho => by
      rw [List.length_append]
      exact Nat.lt_add_right _ (k.owned other ho)
    buckets := fun other q b hq hb =>
      ⟨(k.buckets other q b hq hb).1, abides.member (k.buckets other q b hq hb).2⟩
    free := fun key g hg other hf => abides.member (k.free key g hg other hf) }

theorem engage (k : Keyed home r) {session : Nat} {phase key : String} (hk : home phase = some key)
    (hm : session ∈ r.members key) : Keyed home (r.engage session phase) := by
  have joined := k.modifyInstance phase (f := fun i => { i with standing := i.standing.join })
    fun _ _ => rfl
  refine joined.modifySession session fun s hs => ⟨rfl, fun other ho => .inr ?_, fun _ => .inl⟩
  obtain ⟨t, ht, hg⟩ := mem_members.mp hm
  cases ht.symm.trans hs
  cases ho
  rw [hk, hg]

theorem drawn (k : Keyed home r) {key : String} {session : Nat} (h : Drawn r key session r') :
    Keyed home r' := by
  have lent : ∀ {g : Group} {pool : Pool Nat}, r.groups.get? key = some g →
      (∀ id ∈ pool.free, id ∈ g.pool.free) →
        Keyed home (r.modifyGroup key fun g => { g with pool := pool }) := by
    intro g pool hg hf
    refine k.regroup (Dict.keys_modify ..) fun other g' hg' => ?_
    rcases groups_repool hg hg' with ⟨rfl, rfl⟩ | ⟨_, hg'⟩
    · exact ⟨g, hg, fun id hid => .inl (hf id hid), fun _ => .inl, fun b hb _ hp => .inl ⟨b, hb, hp⟩⟩
    · exact ⟨g', hg', fun _ => .inl, fun _ => .inl, fun b hb _ hp => .inl ⟨b, hb, hp⟩⟩
  cases h with
  | again hg hf _ _ _ he =>
    rw [he]
    exact lent hg fun id hid => by
      rw [hf]
      exact List.mem_cons_of_mem _ hid
  | anew hg _ hp _ _ _ _ _ he =>
    rw [he]
    refine (lent hg ?_).addSession rfl rfl
    rw [hp]
    simp

theorem groupsKept (k : Keyed home r) {d : Dict Group} (keys : d.keys = r.groups.keys)
    (h : ∀ key g', d.get? key = some g' → ∃ g, r.groups.get? key = some g ∧
      (g' = g ∨ g.Kept (home · = some key) g')) : Keyed home { r with groups := d } := by
  refine k.regroup keys fun key g' hg' => ?_
  obtain ⟨g, hg, rfl | kept⟩ := h key g' hg'
  · exact ⟨g', hg, fun _ => .inl, fun _ => .inl, fun b hb _ hp => .inl ⟨b, hb, hp⟩⟩
  · refine ⟨g, hg, fun id hid => .inl (kept.free ▸ hid), kept.current, fun b' hb' phase hp => ?_⟩
    obtain ⟨loop, hl⟩ := List.mem_iff_getElem?.mp hb'
    obtain ⟨b, hb, _, names⟩ := kept.board loop b' hl
    exact (names phase hp).imp (fun there => ⟨b, List.mem_of_getElem? hb, there⟩) fun homed => homed

theorem give (k : Keyed home r) {key : String} {session : Nat} (hm : session ∈ r.members key) :
    Keyed home (r.giveBack key session) := by
  refine k.regroup (Dict.keys_modify ..) fun other g' hg' => ?_
  rcases Dict.eq_of_get?_modify hg' with ⟨rfl, g, hg, rfl⟩ | ⟨_, hg'⟩
  · refine ⟨g, hg, fun id hid => ?_, fun _ => .inl, fun b hb _ hp => .inl ⟨b, hb, hp⟩⟩
    rcases List.mem_cons.mp hid with rfl | hid
    · exact .inr hm
    · exact .inl hid
  · exact ⟨g', hg', fun _ => .inl, fun _ => .inl, fun b hb _ hp => .inl ⟨b, hb, hp⟩⟩

theorem touch {x y : Scene} (k : Keyed home x.1) (h : Touch home R x y) : Keyed home y.1 := by
  cases h with
  | apart h => exact k.apart h
  | phase name _ h => exact k.modifyInstance name fun i hi => (h i hi).phase
  | group key _ h =>
    refine k.groupsKept (Dict.keys_modify ..) fun other g' hg' => ?_
    rcases Dict.eq_of_get?_modify hg' with ⟨rfl, g, hg, rfl⟩ | ⟨_, hg'⟩
    · exact ⟨g, hg, .inr (h g hg)⟩
    · exact ⟨g', hg', .inl rfl⟩
  | groups _ h =>
    refine k.groupsKept (Dict.keys_map ..) fun other g' hg' => ?_
    rw [Dict.get?_map] at hg'
    obtain ⟨g, hg, rfl⟩ := Option.map_eq_some_iff.mp hg'
    exact ⟨g, hg, .inr (h other g hg)⟩
  | session id _ h =>
    refine k.modifySession id fun s hs => ⟨?_, fun _ hp => .inl ?_, (h s hs).inFlight⟩
    · rw [Session.seat, Session.seat, (h s hs).group, (h s hs).executor]
    · rw [← (h s hs).phase, hp]
  | @request r held f id h =>
    have same : (r.requests.modify id f).map (·.session) = r.owners :=
      map_modify_of_entry fun q hq => (h q hq).2.session
    refine k.rewish ?_ ?_ fun other q' b hq' hb => ?_
    · exact ⟨[], by rw [same, List.append_nil]⟩
    · rw [same]
      exact k.owned
    simp only [List.getElem?_modify] at hq'
    split at hq'
    · rename_i he
      subst he
      obtain ⟨q, hq, rfl⟩ := Option.map_eq_some_iff.mp hq'
      rw [(h q hq).2.session]
      exact ((h q hq).2.bucket b hb).elim (k.buckets _ q b hq) fun own => own
    · exact k.buckets other q' b (by simpa [request?] using hq') hb
  | @wish r held q hs hn =>
    have same : (r.requests ++ [q]).map (·.session) = r.owners ++ [q.session] := by simp [owners]
    refine k.rewish ?_ ?_ fun other q' b hq' hb => ?_
    · rw [same]
      exact List.prefix_append ..
    · rw [same]
      obtain ⟨_, _, hm⟩ := hs
      exact List.forall_mem_append.mpr ⟨k.owned, List.forall_mem_singleton.mpr (lt_of_mem_members hm)⟩
    rw [List.getElem?_append] at hq'
    split at hq'
    · exact k.buckets other q' b hq' hb
    · rw [List.mem_singleton.mp (List.mem_of_getElem? hq')] at hb
      cases hn.symm.trans hb
  | @points r held f h =>
    have same := Run.core_map fun run hm => (h run hm).1
    exact k.rerun (same ▸ List.Sublist.refl _)
  | take _ h => exact k.drawn h
  | give _ _ hm => exact k.give hm
  | hire _ hk hm => exact (k.engage hk hm).addRun hk ((abides_engage ..).member hm)
  | lose _ hk hm => exact k.engage hk hm
  | @part r held f run _ _ h =>
    have counted := k.modifyInstance run.phase fun i hi => (h i hi).1
    exact counted.rerun (List.filter_sublist.map _)
  | drop => exact { k.rerun (l := []) (List.nil_sublist _) with }

theorem touches {x y : Scene} (k : Keyed home x.1) (h : Touches home R x y) : Keyed home y.1 := by
  induction h with
  | refl => exact k
  | tail _ h ih => exact ih.touch h

end Keyed

/-- A runner that has just come into play has nothing that could be wrong. -/
theorem keyed_of_initial {r : Runner} (h : r.Initial) : Keyed r.keyOf r := by
  have fresh := fresh_of_initial h
  have nobody : ∀ id : Nat, r.session? id = none := fun id => by rw [session?, fresh.sessions]; rfl
  exact {
    declared := fun _ => rfl
    names := by
      intro name i hi
      simpa using List.find?_some (fresh.declared name i hi)
    distinct := fresh.keys
    grouped := by
      intro name key hk
      obtain ⟨i, hi, hk⟩ := Option.bind_eq_some_iff.mp hk
      obtain ⟨g, hg⟩ := Option.isSome_iff_exists.mp (fresh.grouped name i key hi hk)
      exact Dict.mem_keys_of_get? hg
    ids := by simp [fresh.runs]
    numbered := by simp [fresh.runs]
    staffed := by simp [fresh.runs]
    bound := fun id s _ hs => by simp [nobody] at hs
    inFlight := fun id s hs => by simp [nobody] at hs
    owned := by simp [owners, (unused_of_initial h).1]
    buckets := fun id q _ hq => by simp [request?, (unused_of_initial h).1] at hq
    free := by
      intro key g hg id hid
      rw [fresh.groups key g hg] at hid
      cases hid
    current := by
      intro key g phase hg hc
      rw [fresh.groups key g hg] at hc
      cases hc
    boards := by
      intro key g hg b hb phase hp
      rw [fresh.groups key g hg] at hb
      obtain ⟨e, _, rfl⟩ := List.mem_map.mp hb
      cases hp
    fences := by simp [fresh.fences]
    tasks := by
      intro t ht
      obtain ⟨loop, ht⟩ := ht
      rw [(fresh.idle loop).1, (fresh.idle loop).2] at ht
      rcases ht with ht | ht <;> cases ht }

end LoadGen.Runner
