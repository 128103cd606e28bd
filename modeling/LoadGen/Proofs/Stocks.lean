import LoadGen.Proofs.Placement

namespace LoadGen

/-- The sessions at work for a phase, if it is one of the key. -/
def Instance.activeFor (key : String) (i : Instance) : Nat :=
  if i.phase.key = some key then i.standing.active else 0

theorem Group.Kept.stock {mine : String → Prop} {g g' : Group} (h : g.Kept mine g') :
    g'.stock = g.stock := by simp only [Group.stock, h.free, h.created, h.max]

namespace Dict
variable {α : Type} {d : Dict α} {key : String}

theorem modify_absent (h : d.get? key = none) (nodup : d.keys.Nodup) (f : α → α) :
    d.modify key f = d := by
  have same : d.entries.map (fun p => if p.1 = key then (p.1, f p.2) else (p.1, p.2)) =
      d.entries := by
    rw [List.map_congr_left, List.map_id]
    intro p hp
    rw [if_neg]
    · rfl
    · rintro rfl
      cases h.symm.trans (get?_of_mem_entries nodup hp)
  exact congrArg Dict.mk same

theorem sum_modify {a : α} (h : d.get? key = some a) (nodup : d.keys.Nodup) (f : α → α)
    (w : α → Nat) :
    ((d.modify key f).values.map w).sum + w a = (d.values.map w).sum + w (f a) := by
  obtain ⟨l⟩ := d
  simp only [get?, keys, modify, values, List.map_map] at h nodup ⊢
  induction l with
  | nil => cases h
  | cons p rest ih =>
    obtain ⟨k, b⟩ := p
    rw [List.map_cons, List.nodup_cons] at nodup
    simp only [find] at h
    split at h
    · rename_i he
      cases h
      subst he
      have others : ∀ q ∈ rest, q.1 ≠ key := fun q hq he =>
        nodup.1 (List.mem_map.mpr ⟨q, hq, he⟩)
      have same : rest.map (w ∘ (·.2) ∘ fun p => if p.1 = key then (p.1, f p.2) else (p.1, p.2)) =
          rest.map (w ∘ (·.2)) := List.map_congr_left fun q hq => by simp [others q hq]
      simp only [List.map_cons, List.sum_cons, same, Function.comp, if_true]
      omega
    · rename_i ne
      have tail := ih h nodup.2
      simp only [List.map_cons, List.sum_cons, Function.comp, Ne.symm ne, if_false] at tail ⊢
      omega

end Dict

namespace Runner
variable {home : String → Option String} {R : Region} {held held' : List Nat} {r r' : Runner}
  {key phase : String} {session : Nat} {i : Instance}

/-- The sessions at work for the phases of a key, as these count them. -/
def activeIn (r : Runner) (key : String) : Nat := (r.instances.values.map (·.activeFor key)).sum

/-- Those of some sessions that are of a group. -/
def countOf (r : Runner) (key : String) (ids : List Nat) : Nat :=
  ids.countP fun id => id ∈ r.members key

/-- The sessions that a group has made are all accounted for. -/
structure Balanced (r : Runner) (held : List Nat) : Prop where
  names : r.instances.keys.Nodup
  fits : ∀ key g, r.groups.get? key = some g →
    g.pool.max = poolSize r.phases key ∧ g.pool.created ≤ g.pool.max
  /-- What is free is not in use, and nothing is in use twice. -/
  once : ∀ key g, r.groups.get? key = some g →
    (g.pool.free ++ (r.runs.map (·.session) ++ held)).Nodup
  there : ∀ id ∈ held, id < r.sessions.length
  idle : ∀ name i, r.instances.get? name = some i → i.standing.status = .notStarted →
    i.standing.active = 0
  counted : ∀ name i, r.instances.get? name = some i → r.runsOf name ≤ i.standing.active
  made : ∀ key g, r.groups.get? key = some g →
    g.pool.created = g.pool.free.length + r.activeIn key + r.countOf key held

section Counts

theorem activeIn_modify (hi : r.instances.get? phase = some i) (names : r.instances.keys.Nodup)
    (f : Instance → Instance) (key : String) :
    (r.modifyInstance phase f).activeIn key + i.activeFor key =
      r.activeIn key + (f i).activeFor key := Dict.sum_modify hi names f _

theorem countOf_cons (hm : session ∈ r.members key) (k : String) (ids : List Nat) :
    r.countOf k (session :: ids) = r.countOf k ids + if k = key then 1 else 0 := by
  rw [countOf, countOf, List.countP_cons]
  by_cases he : k = key
  · simp [he, hm]
  · have out : session ∉ r.members k := fun hk => he (key_unique hm hk)
    simp [he, out]

theorem countOf_erase (hm : session ∈ r.members key) (hs : session ∈ held) (k : String) :
    r.countOf k held = r.countOf k (held.erase session) + if k = key then 1 else 0 := by
  rw [← countOf_cons hm, countOf, countOf]
  exact (List.perm_cons_erase hs).countP_eq _

theorem countOf_congr (members : ∀ id ∈ held, id ∈ r'.members key ↔ id ∈ r.members key) :
    r'.countOf key held = r.countOf key held :=
  List.countP_congr fun id hid => by simpa using members id hid

theorem activeFor_eq (hp : i.phase.key = some key) (k : String) :
    i.activeFor k = if k = key then i.standing.active else 0 := by
  rw [Instance.activeFor, hp]
  by_cases he : k = key
  · simp [he]
  · simp [he, Ne.symm he]

theorem nodup_of_once {l : List Nat} (h : (l ++ (r.runs.map (·.session) ++ held)).Nodup)
    (new : session ∉ l ++ (r.runs.map (·.session) ++ held)) :
    (l ++ (r.runs.map (·.session) ++ session :: held)).Nodup := by
  rw [← List.append_assoc] at h new ⊢
  exact List.perm_middle.nodup_iff.mpr (List.nodup_cons.mpr ⟨new, h⟩)

end Counts

section Keeping

theorem Balanced.aside (s : Balanced r held) (abides : Abides r r')
    (instances : r'.instances = r.instances) (seats : r'.seats = r.seats)
    (stocks : ∀ key, (r'.groups.get? key).map Group.stock = (r.groups.get? key).map Group.stock)
    (runs : List.Sublist (r'.runs.map Run.core) (r.runs.map Run.core)) : Balanced r' held := by
  have before : ∀ {key : String} {g' : Group}, r'.groups.get? key = some g' →
      ∃ g, r.groups.get? key = some g ∧ g'.pool.free = g.pool.free ∧
        g'.pool.created = g.pool.created ∧ g'.pool.max = g.pool.max := by
    intro key g' hg'
    have same := stocks key
    rw [hg'] at same
    obtain ⟨g, hg, he⟩ := Option.map_eq_some_iff.mp same.symm
    simp only [Group.stock, Prod.mk.injEq] at he
    exact ⟨g, hg, he.1.symm, he.2.1.symm, he.2.2.symm⟩
  have length : r'.sessions.length = r.sessions.length := by rw [← length_seats, seats, length_seats]
  have working : List.Sublist (r'.runs.map (·.session)) (r.runs.map (·.session)) := by
    rw [← Run.sessions_core, ← Run.sessions_core r.runs]
    exact runs.map _
  exact {
    names := instances ▸ s.names
    fits := by
      intro key g' hg'
      obtain ⟨g, hg, _, created, max⟩ := before hg'
      rw [created, max, abides.phases]
      exact s.fits key g hg
    once := by
      intro key g' hg'
      obtain ⟨g, hg, free, _⟩ := before hg'
      rw [free]
      exact (s.once key g hg).sublist ((List.Sublist.refl _).append (working.append_right held))
    there := length ▸ s.there
    idle := instances ▸ s.idle
    counted := by
      intro name i hi
      rw [runsOf_core]
      exact (runs.countP_le).trans (runsOf_core r name ▸ s.counted name i (instances ▸ hi))
    made := by
      intro key g' hg'
      obtain ⟨g, hg, free, created, _⟩ := before hg'
      have active : r'.activeIn key = r.activeIn key := by rw [activeIn, activeIn, instances]
      have hands : r'.countOf key held = r.countOf key held :=
        countOf_congr fun id _ => by rw [members_of_seats seats]
      rw [free, created, active, hands]
      exact s.made key g hg }

/-- A phase counts sessions in or out, as they come from somebody's hands or go there. -/
theorem Balanced.recount (s : Balanced r held) (hi : r.instances.get? phase = some i)
    {f : Instance → Instance} {l : List Run}
    (idle : (f i).standing.status = .notStarted → (f i).standing.active = 0)
    (counted : l.countP (·.phase = phase) ≤ (f i).standing.active)
    (others : ∀ name, name ≠ phase → l.countP (·.phase = name) ≤ r.runsOf name)
    (there : ∀ id ∈ held', id < r.sessions.length)
    (once : ∀ free : List Nat, (free ++ (r.runs.map (·.session) ++ held)).Nodup →
      (free ++ (l.map (·.session) ++ held')).Nodup)
    (made : ∀ key, (f i).activeFor key + r.countOf key held' =
      i.activeFor key + r.countOf key held) :
    Balanced { r with instances := r.instances.modify phase f, runs := l } held' where
  names := (Dict.keys_modify ..).symm ▸ s.names
  fits := s.fits
  once := fun key g hg => once _ (s.once key g hg)
  there := there
  idle := by
    intro name j hj
    rcases Dict.eq_of_get?_modify hj with ⟨rfl, j, before, rfl⟩ | ⟨_, hj⟩
    · cases hi.symm.trans before
      exact idle
    · exact s.idle name j hj
  counted := by
    intro name j hj
    rcases Dict.eq_of_get?_modify hj with ⟨rfl, j, before, rfl⟩ | ⟨ne, hj⟩
    · cases hi.symm.trans before
      exact counted
    · exact (others name ne).trans (s.counted name j hj)
  made := by
    intro key g hg
    have before := s.made key g hg
    have change := activeIn_modify hi s.names f key
    have moved := made key
    show g.pool.created =
      g.pool.free.length + (r.modifyInstance phase f).activeIn key + r.countOf key held'
    omega

/-- A session goes to work for a phase, whether or not its loop takes it. -/
theorem Balanced.employed (s : Balanced r (session :: held)) (hi : r.instances.get? phase = some i)
    (hk : i.phase.key = some key) (hm : session ∈ r.members key)
    (running : i.standing.status = .running) {l : List Run}
    (hl : l = r.runs ∨ ∃ run : Run, run.session = session ∧ run.phase = phase ∧
      l = r.runs ++ [run]) :
    Balanced { r with
      instances := r.instances.modify phase fun i => { i with standing := i.standing.join }
      runs := l } held := by
  have counted : r.runs.countP (·.phase = phase) ≤ i.standing.active := s.counted phase i hi
  refine s.recount hi (fun h => ?_) ?_ (fun name ne => ?_)
    (fun id hid => s.there id (List.mem_cons_of_mem _ hid)) (fun free h => ?_) fun k => ?_
  · cases running.symm.trans h
  · show _ ≤ i.standing.active + 1
    rcases hl with rfl | ⟨run, rfl, rfl, rfl⟩
    · exact counted.trans (Nat.le_succ _)
    · rw [List.countP_append]
      simpa using counted
  · rcases hl with rfl | ⟨run, rfl, rfl, rfl⟩
    · exact Nat.le_refl _
    · rw [List.countP_append]
      simp [runsOf, Ne.symm ne]
  · rcases hl with rfl | ⟨run, rfl, rfl, rfl⟩
    · exact h.sublist ((List.Sublist.refl _).append
        ((List.Sublist.refl _).append (List.sublist_cons_self ..)))
    · simpa using h
  · have joined : ({ i with standing := i.standing.join } : Instance).activeFor k =
        if k = key then i.standing.active + 1 else 0 :=
      activeFor_eq (i := { i with standing := i.standing.join }) hk k
    rw [joined, activeFor_eq hk, countOf_cons hm]
    split <;> omega

theorem Balanced.part (s : Balanced r held) (k : Keyed home r) {run : Run} (hm : run ∈ r.runs)
    {f : Instance → Instance} (h : ∀ i, r.instances.get? run.phase = some i →
      (f i).phase = i.phase ∧ (f i).standing.active = i.standing.active - 1 ∧
        ((f i).standing.status = .notStarted → i.standing.status = .notStarted)) :
    Balanced { r with
      instances := r.instances.modify run.phase f
      runs := r.runs.filter (·.id != run.id) } (run.session :: held) := by
  obtain ⟨key, homed, hs⟩ := k.staffed run hm
  obtain ⟨i, hi, hk⟩ := Option.bind_eq_some_iff.mp ((k.declared run.phase).trans homed)
  obtain ⟨same, active, started⟩ := h i hi
  have perm : (run :: r.runs.filter (·.id != run.id)).Perm r.runs := by
    have split := List.filter_append_perm (fun other => other.id == run.id) r.runs
    rw [filter_id k.ids hm] at split
    exact split
  have counted : (r.runs.filter (·.id != run.id)).countP (·.phase = run.phase) + 1 ≤
      i.standing.active := by
    have all := s.counted run.phase i hi
    rwa [runsOf, ← perm.countP_eq, List.countP_cons_of_pos (by simp)] at all
  refine s.recount hi (fun h => ?_) ?_ (fun name _ => ?_) (fun id hid => ?_)
    (fun free h => ?_) fun other => ?_
  · rw [active, s.idle run.phase i hi (started h)]
  · omega
  · exact (List.filter_sublist).countP_le
  · rcases List.mem_cons.mp hid with rfl | hid
    · exact lt_of_mem_members hs
    · exact s.there id hid
  · refine (List.Perm.append_left free ?_).nodup_iff.mp h
    have moved := ((perm.map (·.session)).symm.append_right held).trans List.perm_middle.symm
    exact moved
  · have counts : (f i).activeFor other = if other = key then i.standing.active - 1 else 0 := by
      rw [activeFor_eq (same ▸ hk), active]
    rw [counts, activeFor_eq hk, countOf_cons hs]
    split <;> omega

theorem Balanced.modifyInstance (s : Balanced r held) {f : Instance → Instance}
    (h : ∀ i, r.instances.get? phase = some i → i.Kept (f i)) :
    Balanced (r.modifyInstance phase f) held := by
  cases hi : r.instances.get? phase with
  | none =>
    have same : r.modifyInstance phase f = r := by
      rw [Runner.modifyInstance, Dict.modify_absent hi s.names]
    rwa [same]
  | some i =>
    have kept := h i hi
    refine s.recount (l := r.runs) hi (fun fresh => ?_) ?_ (fun _ _ => Nat.le_refl _)
      s.there (fun _ => id) fun key => ?_
    · rw [kept.active]
      exact s.idle phase i hi (kept.started fresh)
    · rw [kept.active]
      exact s.counted phase i hi
    · rw [Instance.activeFor, Instance.activeFor, kept.phase, kept.active]

end Keeping

section Moving

theorem Balanced.unused (s : Balanced r held) (k : Keyed home r) (h : Drawn r key session r') :
    session ∉ r.runs.map (·.session) ++ held ∧
      ∀ other g', r'.groups.get? other = some g' → session ∉ g'.pool.free := by
  cases h with
  | @again g pool hg hf _ _ _ he =>
    subst he
    have lent := s.once key g hg
    rw [hf, List.cons_append, List.nodup_cons, List.mem_append, not_or] at lent
    refine ⟨lent.1.2, fun other g' hg' => ?_⟩
    rcases groups_repool hg hg' with ⟨rfl, rfl⟩ | ⟨ne, hg'⟩
    · exact lent.1.1
    · intro free
      have hm : session ∈ r.members key := k.free key g hg session (hf ▸ List.mem_cons_self)
      exact ne (key_unique hm (k.free other g' hg' session free))
  | @anew g pool hg _ hp _ _ _ _ hn he =>
    subst he
    refine ⟨fun used => ?_, fun other g' hg' free => ?_⟩
    · rcases List.mem_append.mp used with work | hand
      · obtain ⟨run, hr, same⟩ := List.mem_map.mp work
        obtain ⟨_, _, hm⟩ := k.staffed run hr
        exact Nat.ne_of_lt (lt_of_mem_members hm) (same.trans hn)
      · exact Nat.ne_of_lt (s.there session hand) hn
    · rcases groups_repool hg hg' with ⟨rfl, rfl⟩ | ⟨_, hg'⟩
      · rw [hp] at free
        cases free
      · exact Nat.ne_of_lt (k.made hg' session free) hn

theorem Balanced.drawn (s : Balanced r held) (k : Keyed home r) (h : Drawn r key session r') :
    Balanced r' (session :: held) := by
  obtain ⟨instances, runs, _⟩ := h.rest
  obtain ⟨g, pool, hg, groups, less, hm, one, room⟩ := h.stock
  obtain ⟨idle, nowhere⟩ := s.unused k h
  have abides := h.abides
  have there : session ∈ r'.members key := h.member k
  have longer : r.sessions.length ≤ r'.sessions.length := abides.length_le
  exact {
    names := instances ▸ s.names
    fits := by
      intro other g' hg'
      rw [abides.phases]
      rcases groups other g' hg' with ⟨rfl, rfl⟩ | ⟨_, hg'⟩
      · obtain ⟨size, fits⟩ := s.fits other g hg
        exact ⟨hm.trans size, hm.symm ▸ room fits⟩
      · exact s.fits other g' hg'
    once := by
      intro other g' hg'
      rw [runs]
      have new : session ∉ g'.pool.free ++ (r.runs.map (·.session) ++ held) := fun hid =>
        (List.mem_append.mp hid).elim (nowhere other g' hg') idle
      refine nodup_of_once ?_ new
      rcases groups other g' hg' with ⟨rfl, rfl⟩ | ⟨_, hg'⟩
      · exact (s.once other g hg).sublist (less.append_right _)
      · exact s.once other g' hg'
    there := List.forall_mem_cons.mpr
      ⟨lt_of_mem_members there, fun id hid => Nat.lt_of_lt_of_le (s.there id hid) longer⟩
    idle := instances ▸ s.idle
    counted := by
      simp only [runsOf, runs, instances]
      exact s.counted
    made := by
      intro other g' hg'
      have active : r'.activeIn other = r.activeIn other := by rw [activeIn, activeIn, instances]
      have hands : r'.countOf other held = r.countOf other held :=
        countOf_congr fun id hid => abides.member_iff (s.there id hid)
      rw [countOf_cons there, active, hands]
      rcases groups other g' hg' with ⟨rfl, rfl⟩ | ⟨ne, hg'⟩
      · have before := s.made other g hg
        simp only [if_true]
        omega
      · simpa [ne] using s.made other g' hg' }

theorem Balanced.give (s : Balanced r held) (hs : session ∈ held) (hm : session ∈ r.members key) :
    Balanced (r.giveBack key session) (held.erase session) := by
  have lookup : ∀ other, (r.giveBack key session).groups.get? other =
      if other = key then (r.groups.get? other).map fun g => { g with pool := g.pool.release session }
      else r.groups.get? other := fun other => Dict.get?_modify ..
  exact { s with
    fits := by
      intro other g' hg'
      rw [lookup] at hg'
      split at hg'
      · obtain ⟨g, hg, rfl⟩ := Option.map_eq_some_iff.mp hg'
        exact s.fits other g hg
      · exact s.fits other g' hg'
    once := by
      intro other g' hg'
      rw [lookup] at hg'
      split at hg'
      · obtain ⟨g, hg, rfl⟩ := Option.map_eq_some_iff.mp hg'
        have before := s.once other g hg
        refine List.Perm.nodup_iff ?_ |>.mpr before
        have back : (r.runs.map (·.session) ++ held).Perm
            (session :: (r.runs.map (·.session) ++ held.erase session)) :=
          ((List.perm_cons_erase hs).append_left _).trans List.perm_middle
        exact ((back.append_left g.pool.free).trans List.perm_middle).symm
      · exact (s.once other g' hg').sublist ((List.Sublist.refl _).append
          ((List.Sublist.refl _).append List.erase_sublist))
    there := fun id hid => s.there id (List.mem_of_mem_erase hid)
    made := by
      intro other g' hg'
      rw [lookup] at hg'
      have hands := countOf_erase hm hs other
      have active : (r.giveBack key session).activeIn other = r.activeIn other := rfl
      have count : (r.giveBack key session).countOf other (held.erase session) =
          r.countOf other (held.erase session) := rfl
      rw [active, count]
      split at hg'
      · rename_i he
        obtain ⟨g, hg, rfl⟩ := Option.map_eq_some_iff.mp hg'
        have before := s.made other g hg
        rw [if_pos he] at hands
        show g.pool.created = (session :: g.pool.free).length + _ + _
        rw [List.length_cons]
        omega
      · rename_i ne
        have before := s.made other g' hg'
        rw [if_neg ne] at hands
        omega }

theorem Touch.balanced {x y : Scene} (k : Keyed home x.1) (s : Balanced x.1 x.2)
    (h : Touch home R x y) : Balanced y.1 y.2 := by
  have abides := h.abides
  cases h with
  | apart h =>
    exact s.aside abides h.instances (by rw [seats, seats, h.sessions]) (fun _ => by rw [h.groups])
      (by rw [h.runs])
  | phase name _ h => exact s.modifyInstance h
  | group key _ h =>
    exact s.aside abides rfl rfl (Dict.map_get?_modify fun g hg => (h g hg).stock) (.refl _)
  | @groups r held f _ h =>
    refine s.aside abides rfl rfl (fun key => ?_) (.refl _)
    rw [Dict.get?_map]
    cases hg : r.groups.get? key with
    | none => rfl
    | some g => exact congrArg some (h key g hg).stock
  | session id _ h =>
    refine s.aside abides rfl (map_modify_of_entry fun t ht => ?_) (fun _ => rfl) (.refl _)
    rw [Session.seat, Session.seat, (h t ht).group, (h t ht).executor]
  | request | wish => exact s.aside abides rfl rfl (fun _ => rfl) (.refl _)
  | @points r held f h =>
    have same := Run.core_map fun run hm => (h run hm).1
    exact s.aside abides rfl rfl (fun _ => rfl) (same ▸ .refl _)
  | take _ h => exact s.drawn k h
  | give _ hs hm => exact s.give hs hm
  | @hire r held session phase key _ hk hm running =>
    obtain ⟨i, hi, running⟩ := Option.map_eq_some_iff.mp running
    obtain ⟨j, hj, hkey⟩ := Option.bind_eq_some_iff.mp ((k.declared phase).trans hk)
    cases hi.symm.trans hj
    have joined := s.employed hi hkey hm running
      (.inr ⟨⟨r.runCount, session, phase, .fresh⟩, rfl, rfl, rfl⟩)
    have bound := abides_modifySession { r with
      instances := r.instances.modify phase fun i => { i with standing := i.standing.join }
      runs := r.runs ++ [⟨r.runCount, session, phase, .fresh⟩] } session
        (f := fun s => { s with phase := some phase }) fun _ _ => rfl
    exact joined.aside { bound with } rfl (map_modify_of_entry fun _ _ => rfl) (fun _ => rfl)
      (.refl _)
  | @lose r held session phase key _ hk hm running =>
    obtain ⟨i, hi, running⟩ := Option.map_eq_some_iff.mp running
    obtain ⟨j, hj, hkey⟩ := Option.bind_eq_some_iff.mp ((k.declared phase).trans hk)
    cases hi.symm.trans hj
    have joined := s.employed hi hkey hm running (l := r.runs) (.inl rfl)
    exact joined.aside (abides_modifySession _ session fun _ _ => rfl) rfl
      (map_modify_of_entry fun _ _ => rfl) (fun _ => rfl) (.refl _)
  | part hm _ h => exact s.part k hm h
  | drop => exact s.aside abides rfl rfl (fun _ => rfl) (List.nil_sublist _)

theorem Touches.balanced {x y : Scene} (k : Keyed home x.1) (s : Balanced x.1 x.2)
    (h : Touches home R x y) : Balanced y.1 y.2 := by
  induction h with
  | refl => exact s
  | tail h t ih => exact t.balanced (k.touches h) ih

theorem Fresh.balanced (h : r.Fresh) : Balanced r [] where
  names := h.names
  fits := by
    intro key g hg
    rw [h.groups key g hg]
    exact ⟨rfl, Nat.zero_le _⟩
  once := by
    intro key g hg
    rw [h.groups key g hg, h.runs]
    exact List.nodup_nil
  there := nofun
  idle := by
    intro name i hi _
    rw [h.instances name i hi]
  counted := by simp [runsOf, h.runs]
  made := by
    intro key g hg
    have nobody : r.activeIn key = 0 := by
      refine List.sum_eq_zero fun n hn => ?_
      obtain ⟨i, hi, rfl⟩ := List.mem_map.mp hn
      obtain ⟨p, hp, rfl⟩ := List.mem_map.mp hi
      rw [Instance.activeFor, h.instances p.1 p.2 (Dict.get?_of_mem_entries h.names hp)]
      exact ite_self 0
    rw [h.groups key g hg, nobody]
    rfl

end Moving

end Runner
end LoadGen
