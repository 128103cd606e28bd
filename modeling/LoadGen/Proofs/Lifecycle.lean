import LoadGen.Proofs.Conservation

namespace LoadGen.Runner

/-- The phases are the same, and where each of them stands now follows from where it stood, without
a start in between. -/
structure Steady (r r' : Runner) : Prop where
  names : r'.instances.keys = r.instances.keys
  follows : ∀ name i, r.instances.get? name = some i →
    ∃ j, r'.instances.get? name = some j ∧ i.standing.Follows j.standing

theorem Steady.refl (r : Runner) : Steady r r := ⟨rfl, fun _ i hi => ⟨i, hi, .refl _⟩⟩

theorem Steady.trans {r₁ r₂ r₃ : Runner} (h : Steady r₁ r₂) (k : Steady r₂ r₃) :
    Steady r₁ r₃ where
  names := k.names.trans h.names
  follows := by
    intro name i hi
    obtain ⟨j, hj, hf⟩ := h.follows name i hi
    obtain ⟨l, hl, hg⟩ := k.follows name j hj
    exact ⟨l, hl, hf.trans hg⟩

theorem SameHolders.steady {r r' : Runner} (h : SameHolders r r') : Steady r r' := by
  refine ⟨h.names, fun name i hi => ?_⟩
  obtain ⟨j, hj, he⟩ := h.instance_to hi
  have hs := Instance.core_status he
  refine ⟨j, hj, Nat.le_of_eq (by rw [hs]), fun hr => by rwa [← hs], fun hg => ?_,
    Instance.core_startedAt he⟩
  rw [Instance.core_active he] at hg
  omega

theorem steady_of_instances {r r' : Runner} (h : r'.instances = r.instances) : Steady r r' :=
  ⟨by rw [h], fun _ i hi => ⟨i, by rw [h]; exact hi, .refl _⟩⟩

theorem steady_modifyInstance {r : Runner} {phase : String} {f : Instance → Instance}
    (h : ∀ i, r.instances.get? phase = some i → i.standing.Follows (f i).standing) :
    Steady r (r.modifyInstance phase f) := by
  refine ⟨Dict.keys_modify .., fun name i hi => ?_⟩
  simp only [Runner.modifyInstance, Dict.get?_modify, hi]
  split
  · rename_i he
    subst he
    exact ⟨f i, rfl, h i hi⟩
  · exact ⟨i, rfl, .refl _⟩

theorem steady_move (here : Option Nat) {r : Runner} {phase : String} {i : Instance} {s : Standing}
    (hi : r.instances.get? phase = some i) (hs : i.standing.Follows s) :
    Steady r (r.move here phase s) := by
  refine (steady_modifyInstance fun j hj => ?_).trans (holders_move here phase s r).steady
  cases hi.symm.trans hj
  exact hs

theorem steady_employ (r : Runner) {phase : String} (session : Nat)
    (h : ∀ i, r.instances.get? phase = some i → i.standing.status = .running) :
    Steady r (r.employ session phase) := by
  have joined : Steady r (r.modifyInstance phase fun i => { i with standing := i.standing.join }) :=
    steady_modifyInstance fun i hi => Standing.join_follows (h i hi)
  refine joined.trans (steady_of_instances ?_)
  unfold employ spawn
  dsimp only
  split <;> rfl

theorem steady_unwind {r : Runner} (o : r.Owned) (here : Option Nat) {run : Run}
    (hm : run ∈ r.runs) : Steady r (r.unwind here run) := by
  obtain ⟨i, key, hi, _, same⟩ := o.beside_unwind here hm
  have stopped := (@aside_stopSession nobody r run.session).holders.steady
  generalize r.stopSession run.session = q at hi same stopped
  have given : Steady q ({ q with runs := q.runs.filter (·.id != run.id) }.giveBack key
      run.session) := steady_of_instances rfl
  have left : Steady q (q.retire run key (i.standing.leave r.now)) :=
    given.trans (steady_modifyInstance fun j hj => by
      cases hi.symm.trans hj
      exact Standing.leave_follows ..)
  exact (stopped.trans left).trans same.holders.steady

theorem Effect.steady {r r' : Runner} {here : Option Nat} {d : Deed} (o : r.Owned)
    (h : Effect r here d r') : Steady r r' := by
  cases h with
  | aside h => exact h.holders.steady
  | move h hi hs => exact h.holders.steady.trans (steady_move here hi hs.follows)
  | @enroll r₁ phase key i session _ hi hk hs h =>
    have lent := lent_of_acquire o h
    refine (steady_of_instances lent.instances).trans (steady_employ r₁ session fun j hj => ?_)
    rw [lent.instances] at hj
    cases hi.symm.trans hj
    exact hs
  | complete h => exact steady_unwind o here (List.mem_of_find?_eq_some h)

theorem Shift.steady {m : Remit} {r r' : Runner} (o : r.Owned) (h : Shift m r r') : Steady r r' := by
  cases h with
  | aside h => exact h.holders.steady
  | ensure => exact (SameHolders.modifyBoard r ..).steady
  | record => exact (SameHolders.modifyBoard r ..).steady
  | clock => exact steady_of_instances rfl
  | deed here d _ hd h => exact (effect_of_deed hd h).steady o

theorem Shifts.steady {m : Remit} {r r' : Runner} (o : r.Owned) (h : Shifts m r r') : Steady r r' := by
  induction h with
  | refl => exact .refl r
  | tail hs h ih => exact ih.trans (h.steady (o.shifts hs))

theorem Change.steady {r r' : Runner} {e : Happening} (o : r.Owned) (h : Change r e r')
    (hb : ∀ here phase, e ≠ .deed here (.begin phase)) : Steady r r' := by
  cases h with
  | begin h => exact absurd rfl (hb _ _)
  | survey recent => exact (holders_beginSurvey r recent).steady
  | pruning => exact (holders_beginPruning r).steady
  | @order loop t loops hn ht =>
    have took := LoopGroup.took_of_next? hn
    exact ((SameHolders.onLoops r took.size took.running).trans
      (holders_perform loop _ ht)).steady
  | work _ _ h => exact h.steady o

/-- A phase begins: it has not run before, and runs now. The others stand where they stood. -/
theorem begin_stands {r r' : Runner} {phase : String} (o : r.Owned) (h : r.begin phase = .ok r') :
    r'.instances.keys = r.instances.keys ∧ ∀ name i, r.instances.get? name = some i →
      ∃ j, r'.instances.get? name = some j ∧ if name = phase then
        i.standing.status = .notStarted ∧ j.standing.status = .running ∧
          j.standing.active = i.standing.active ∧ j.standing.startedAt = some r.now
      else i.standing.Follows j.standing := by
  obtain ⟨i₀, s, r₁, hi₀, hs, hr, rfl⟩ := begin_cases h
  obtain ⟨_, ha, hn, hrun, hat⟩ := Standing.start_lawful (o.lawful phase i₀ hi₀) hs
  have entered : SameHolders r r₁ := by
    rcases hr with ⟨key, _, rfl⟩ | rfl
    · exact holders_enterGroup ..
    · exact .refl _
  have moved := holders_move none phase s r₁
  refine ⟨moved.names.trans ((Dict.keys_modify ..).trans entered.names), fun name i hi => ?_⟩
  by_cases he : name = phase
  · subst he
    cases hi₀.symm.trans hi
    obtain ⟨j, hj, _⟩ := entered.instance_to hi
    have hm : (r₁.modifyInstance name fun i => { i with standing := s }).instances.get? name =
        some { j with standing := s } := by simp [Runner.modifyInstance, hj]
    obtain ⟨l, hl, hc⟩ := moved.instance_to hm
    refine ⟨l, hl, ?_⟩
    rw [if_pos rfl, Instance.core_status hc, Instance.core_active hc, Instance.core_startedAt hc,
      hat]
    exact ⟨hn, hrun, ha, rfl⟩
  · obtain ⟨j, hj, hf⟩ := entered.steady.follows name i hi
    have hm : (r₁.modifyInstance phase fun i => { i with standing := s }).instances.get? name =
        some j := by simp only [Runner.modifyInstance, Dict.get?_modify_of_ne he, hj]
    obtain ⟨l, hl, hg⟩ := moved.steady.follows name j hm
    exact ⟨l, hl, by rw [if_neg he]; exact hf.trans hg⟩

theorem Change.stands {r r' : Runner} {e : Happening} (o : r.Owned) (h : Change r e r') :
    r'.instances.keys = r.instances.keys ∧ ∀ name i, r.instances.get? name = some i →
      ∃ j, r'.instances.get? name = some j ∧ i.standing.status.rank ≤ j.standing.status.rank ∧
        (i.standing.active < j.standing.active → i.standing.status = .running) ∧
        (j.standing.startedAt.isSome ↔
          i.standing.startedAt.isSome ∨ ∃ here, e = .deed here (.begin name)) := by
  by_cases hb : ∃ here phase, e = .deed here (.begin phase)
  · obtain ⟨here, phase, rfl⟩ := hb
    have hbegin : r.begin phase = .ok r' := by
      cases h with
      | begin h => exact h
      | work hn => exact absurd rfl (hn here phase)
    obtain ⟨names, stands⟩ := begin_stands o hbegin
    refine ⟨names, fun name i hi => ?_⟩
    obtain ⟨j, hj, hs⟩ := stands name i hi
    refine ⟨j, hj, ?_⟩
    split at hs
    · rename_i he
      subst he
      obtain ⟨hn, hrun, ha, hat⟩ := hs
      refine ⟨by simp [hn, Status.rank], fun hg => ?_, ?_⟩
      · rw [ha] at hg
        omega
      · simp [hat]
    · rename_i he
      refine ⟨hs.rank, hs.grows, ?_⟩
      rw [hs.startedAt]
      simp [Ne.symm he]
  · have steady := h.steady o fun here phase he => hb ⟨here, phase, he⟩
    refine ⟨steady.names, fun name i hi => ?_⟩
    obtain ⟨j, hj, hf⟩ := steady.follows name i hi
    refine ⟨j, hj, hf.rank, hf.grows, ?_⟩
    rw [hf.startedAt]
    constructor
    · exact .inl
    · intro held
      rcases held with hs | ⟨here, he⟩
      · exact hs
      · exact absurd ⟨here, name, he⟩ hb

theorem Course.names {r₀ r : Runner} {es : List Happening} (o : r₀.Owned) (h : Course r₀ es r) :
    r.Owned ∧ r.instances.keys = r₀.instances.keys := by
  induction h with
  | refl => exact ⟨o, rfl⟩
  | next _ ha he ih =>
    have change := change_of_after ha he
    exact ⟨ih.1.change change, (change.stands ih.1).1.trans ih.2⟩

/-- The status of a phase never goes back, and the phase has started if and only if it was begun. -/
theorem Course.stands {r₀ r : Runner} {es : List Happening} (o : r₀.Owned) (h : Course r₀ es r)
    {name : String} {i : Instance} (hi : r₀.instances.get? name = some i) :
    ∃ j, r.instances.get? name = some j ∧ i.standing.status.rank ≤ j.standing.status.rank ∧
      (j.standing.startedAt.isSome ↔
        i.standing.startedAt.isSome ∨ ∃ here, .deed here (.begin name) ∈ es) := by
  induction h with
  | refl => exact ⟨i, hi, Nat.le_refl _, by simp⟩
  | next hc ha he ih =>
    obtain ⟨j, hj, hr, hs⟩ := ih
    obtain ⟨_, stands⟩ := (change_of_after ha he).stands (hc.names o).1
    obtain ⟨l, hl, hr', _, hs'⟩ := stands name j hj
    refine ⟨l, hl, Nat.le_trans hr hr', ?_⟩
    rw [hs', hs, or_assoc]
    apply or_congr_right
    simp only [List.mem_append, List.mem_singleton]
    constructor
    · intro held
      rcases held with ⟨here, hm⟩ | ⟨here, hm⟩
      · exact ⟨here, .inl hm⟩
      · exact ⟨here, .inr hm.symm⟩
    · intro held
      rcases held with ⟨here, hm | hm⟩
      · exact .inl ⟨here, hm⟩
      · exact .inr ⟨here, hm.symm⟩

/-- The life of a phase, after what happened so far. -/
structure Lived (r : Runner) (es : List Happening) (name : String) (i : Instance) : Prop where
  lawful : i.standing.Lawful
  counted : i.standing.active = r.runsOf name
  /-- Counting out a run never goes below zero. -/
  positive : ∀ run ∈ r.runs, run.phase = name → 0 < i.standing.active
  begun : i.standing.startedAt.isSome ↔ ∃ here, .deed here (.begin name) ∈ es
  forward : ∀ es' r', Course r es' r' →
    ∃ j, r'.instances.get? name = some j ∧ i.standing.status.rank ≤ j.standing.status.rank
  grows : ∀ e r' j, r.Allowed e → r.after? e = some r' → r'.instances.get? name = some j →
    i.standing.active < j.standing.active → i.standing.status = .running

theorem phase_lifecycle {r₀ r : Runner} {es : List Happening} (h₀ : r₀.Initial)
    (h : Course r₀ es r) {name : String} {i : Instance} (hi : r.instances.get? name = some i) :
    r.Lived es name i := by
  have fresh := fresh_of_initial h₀
  obtain ⟨o, names⟩ := h.names fresh.owned
  refine ⟨o.lawful name i hi, o.counted name i hi, ?_, ?_, ?_, ?_⟩
  · intro run hm he
    rw [o.counted name i hi, runsOf]
    exact List.countP_pos_iff.mpr ⟨run, hm, by simpa using he⟩
  · have hm : name ∈ r₀.instances.keys := by
      rw [← names]
      exact Dict.mem_keys_of_get? hi
    obtain ⟨i₀, hi₀⟩ := Option.isSome_iff_exists.mp (Dict.get?_isSome_of_mem_keys hm)
    obtain ⟨j, hj, _, hs⟩ := h.stands fresh.owned hi₀
    cases hi.symm.trans hj
    rw [hs, fresh.instances name i₀ hi₀]
    simp
  · intro es' r' hc
    obtain ⟨j, hj, hr, _⟩ := hc.stands o hi
    exact ⟨j, hj, hr⟩
  · intro e r' j ha he hj hg
    obtain ⟨_, stands⟩ := (change_of_after ha he).stands o
    obtain ⟨l, hl, _, hgrow, _⟩ := stands name i hi
    cases hj.symm.trans hl
    exact hgrow hg

/-- A phase that was begun and has one session at work. -/
theorem gate_phase_lived : ∃ r i,
    Course gateRunner [.deed none (.begin "login"), .deed none (.enroll "login")] r ∧
      r.instances.get? "login" = some i ∧ i.standing.active = 1 ∧
      r.Lived [.deed none (.begin "login"), .deed none (.enroll "login")] "login" i := by
  have begun := Course.one (r := gateRunner) (e := .deed none (.begin "login")) trivial rfl
  have h := Course.next (e := .deed none (.enroll "login")) begun trivial rfl
  exact ⟨_, _, h, rfl, rfl, phase_lifecycle gateRunner_initial h rfl⟩

end LoadGen.Runner
