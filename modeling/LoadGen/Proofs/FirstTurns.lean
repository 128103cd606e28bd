import LoadGen.Proofs.Conservation

namespace LoadGen.Runner

/-- The runs that get a turn with a happening. -/
def turned (r : Runner) : Happening → List Nat
  | .turn loop => match r.loops.next? loop with
    | some (.resume id, _) => [id]
    | _ => []
  | _ => []

/-- The session of a request has a run that has begun to iterate. -/
def Iterating (r : Runner) (had : List Nat) (request : Nat) : Prop :=
  ∃ q, r.request? request = some q ∧ ∃ run ∈ r.runs, run.session = q.session ∧ run.id ∈ had

/-- Requests are started and entered by iterations only, also those that are started again because
they timed out. -/
def InTime (r : Runner) (had : List Nat) : Happening → Prop
  | .turn loop => ∀ request loops, r.loops.next? loop = some (.expire request, loops) →
      r.Restarts request → r.Iterating had request
  | .command request (.begin ..) => r.Iterating had request
  | .command request .enter => r.Iterating had request
  | .command request .timeOut => r.Restarts request → r.Iterating had request
  | _ => True

/-- What happened between one runner and another, in order, where only iterations start requests.
`had` are the runs that have had a turn: a run begins to iterate with its first one. -/
inductive Worked (r : Runner) (had : List Nat) : List Happening → List Nat → Runner → Prop
  | refl : Worked r had [] had r
  | next {es : List Happening} {e : Happening} {had₁ : List Nat} {r₁ r₂ : Runner} :
      Worked r had es had₁ r₁ → r₁.InTime had₁ e → r₁.after? e = some r₂ →
        Worked r had (es ++ [e]) (had₁ ++ r₁.turned e) r₂

theorem Iterating.inIteration {r : Runner} {had : List Nat} {request : Nat}
    (h : r.Iterating had request) : r.InIteration request := by
  obtain ⟨q, hq, run, hm, hs, _⟩ := h
  exact ⟨q, hq, run, hm, hs⟩

theorem InTime.allowed {r : Runner} {had : List Nat} {e : Happening} (h : r.InTime had e) :
    r.Allowed e := by
  cases e with
  | turn loop => exact fun request loops hn again => (h request loops hn again).inIteration
  | command request c =>
    cases c with
    | begin metric sequence => exact Iterating.inIteration h
    | enter => exact Iterating.inIteration h
    | timeOut => exact fun again => (h again).inIteration
    | _ => trivial
  | _ => trivial

theorem Worked.course {r r' : Runner} {had had' : List Nat} {es : List Happening}
    (h : Worked r had es had' r') : Course r es r' := by
  induction h with
  | refl => exact .refl
  | next _ ht he ih => exact ih.next ht.allowed he

theorem Worked.trans {r r₁ r₂ : Runner} {had had₁ had₂ : List Nat} {es es' : List Happening}
    (h : Worked r had es had₁ r₁) (k : Worked r₁ had₁ es' had₂ r₂) :
    Worked r had (es ++ es') had₂ r₂ := by
  induction k with
  | refl => rwa [List.append_nil]
  | next _ ht he ih =>
    rw [← List.append_assoc]
    exact ih.next ht he

theorem Worked.of_one {r r' : Runner} {had had' : List Nat} {e : Happening}
    (h : Worked r had [e] had' r') : r.InTime had e ∧ r.after? e = some r' := by
  have still : ∀ {es had₁ r₁}, es = [] → Worked r had es had₁ r₁ → had₁ = had ∧ r₁ = r := by
    intro es had₁ r₁ hes h
    cases h with
    | refl => exact ⟨rfl, rfl⟩
    | next => simp at hes
  generalize hes : [e] = es at h
  cases h with
  | refl => cases hes
  | @next es e' _ _ _ h ht he =>
    have none : es = [] := by
      have := congrArg List.length hes
      simpa using this
    subst none
    obtain rfl : e = e' := by simpa using hes
    obtain ⟨rfl, rfl⟩ := still rfl h
    exact ⟨ht, he⟩

/-- How the turns that are queued stand to the orders to write down the start of a phase: the first
turn of a run comes after them, on the loop of the run. -/
structure Turns (r : Runner) (had : List Nat) : Prop where
  past : ∀ id ∈ had, id < r.runCount
  known : ∀ loop id, .resume id ∈ r.loops.posted loop ∨ .resume id ∈ r.loops.timed loop →
    id < r.runCount
  untimed : ∀ run ∈ r.runs, run.id ∉ had → ∀ loop, .resume run.id ∉ r.loops.timed loop
  home : ∀ run ∈ r.runs, run.id ∉ had → ∀ loop, .resume run.id ∈ r.loops.posted loop →
    r.executorOf run.session = loop
  ordered : ∀ run ∈ r.runs, run.id ∉ had →
    Ordered run.id run.phase (r.loops.posted (r.executorOf run.session))
  stamped : ∀ run ∈ r.runs, run.id ∈ had → ∀ key time,
    .stamp key run.phase time ∉ r.loops.posted (r.executorOf run.session)

namespace Turns
variable {r r' : Runner} {had : List Nat} {m : Remit}

theorem turn (t : r.Turns had) (e : Happening) : r.Turns (had ++ r.turned e) := by
  by_cases hn : ∃ loop id loops, e = .turn loop ∧ r.loops.next? loop = some (.resume id, loops)
  · obtain ⟨loop, id, loops, rfl, hn⟩ := hn
    have he : r.turned (.turn loop) = [id] := by simp [turned, hn]
    have took := LoopGroup.took_of_next? hn
    have queued : .resume id ∈ r.loops.posted loop ∨ .resume id ∈ r.loops.timed loop := by
      rcases took.first with hf | ⟨ht, _⟩
      · exact .inl (by simp [hf])
      · exact .inr ht
    rw [he]
    exact {
      past := by
        intro other hm
        rcases List.mem_append.mp hm with hm | hm
        · exact t.past other hm
        · rw [List.mem_singleton.mp hm]
          exact t.known loop id queued
      known := t.known
      untimed := fun run hm hn => t.untimed run hm fun h => hn (List.mem_append_left _ h)
      home := fun run hm hn => t.home run hm fun h => hn (List.mem_append_left _ h)
      ordered := fun run hm hn => t.ordered run hm fun h => hn (List.mem_append_left _ h)
      stamped := by
        intro run hm hin key time hs
        by_cases hold : run.id ∈ had
        · exact t.stamped run hm hold key time hs
        · rcases List.mem_append.mp hin with hin | hin
          · exact hold hin
          · obtain rfl := List.mem_singleton.mp hin
            have posted := queued.resolve_right (t.untimed run hm hold loop)
            have first := took.first.resolve_right fun h => t.untimed run hm hold loop h.1
            obtain rfl := t.home run hm hold loop posted
            have after := t.ordered run hm hold
            rw [first] at hs after
            rcases List.mem_cons.mp hs with hs | hs
            · cases hs
            · exact (List.pairwise_cons.mp after).1 _ hs rfl key time rfl }
  · have he : r.turned e = [] := by
      unfold turned
      split
      · rename_i loop
        split
        · rename_i id loops hq
          exact absurd ⟨loop, id, loops, rfl, hq⟩ hn
        · rfl
      · rfl
    rw [he, List.append_nil]
    exact t

theorem beside {may : Nat → Prop} (t : r.Turns had) (hn : ∀ run ∈ r.runs, run.id < r.runCount)
    (hu : (r.runs.map (·.id)).Nodup) (h : Beside may r r') (hm : ∀ id, may id → id ∈ had) :
    r'.Turns had where
  past := by
    rw [h.holders.runCount]
    exact t.past
  known := by
    rw [h.holders.runCount]
    intro loop id hq
    rcases hq with hq | hq
    · rcases h.calls.posted loop id hq with hq | ⟨run, hrun, rfl, _⟩
      · exact t.known loop id (.inl hq)
      · exact hn run hrun
    · rcases h.calls.timed loop id hq with hq | ⟨other, hq⟩
      · exact t.past id (hm id hq)
      · exact t.known other id (.inr hq)
  untimed := by
    intro run hrun hn loop hq
    obtain ⟨run₀, hrun₀, he⟩ := h.holders.run_of hrun
    obtain ⟨hid, _, _⟩ := Run.core_eq he
    rw [← hid] at hn hq
    rcases h.calls.timed loop _ hq with hq | ⟨other, hq⟩
    · exact hn (hm _ hq)
    · exact t.untimed run₀ hrun₀ hn other hq
  home := by
    intro run hrun hn loop hq
    obtain ⟨run₀, hrun₀, he⟩ := h.holders.run_of hrun
    obtain ⟨hid, hs, _⟩ := Run.core_eq he
    rw [← hid] at hn hq
    rw [← hs, h.holders.executorOf_eq]
    rcases h.calls.posted loop _ hq with hq | ⟨run₁, hrun₁, hid₁, hx⟩
    · exact t.home run₀ hrun₀ hn loop hq
    · rw [← hx, List.inj_on_of_nodup_map hu hrun₀ hrun₁ hid₁.symm]
  ordered := by
    intro run hrun hn
    obtain ⟨run₀, hrun₀, he⟩ := h.holders.run_of hrun
    obtain ⟨hid, hs, hp⟩ := Run.core_eq he
    rw [← hid, ← hs, ← hp, h.holders.executorOf_eq]
    rw [← hid] at hn
    exact h.calls.ordered _ _ _ (t.ordered run₀ hrun₀ hn)
  stamped := by
    intro run hrun hin key time hq
    obtain ⟨run₀, hrun₀, he⟩ := h.holders.run_of hrun
    obtain ⟨hid, hs, hp⟩ := Run.core_eq he
    rw [← hs, ← hp, h.holders.executorOf_eq] at hq
    rw [← hid] at hin
    exact t.stamped run₀ hrun₀ hin key time (h.calls.stamps _ _ rfl hq)

/-- The queues are the same, and so are the runs, apart from some that have ended. -/
theorem fewer (t : r.Turns had) (hl : r'.loops = r.loops) (hs : r'.sessions = r.sessions)
    (hr : r'.runs ⊆ r.runs) (hc : r'.runCount = r.runCount) : r'.Turns had := by
  have lives : ∀ session, r'.executorOf session = r.executorOf session := fun session => by
    simp only [executorOf, session?, hs]
  constructor
  · rw [hc]
    exact t.past
  · rw [hl, hc]
    exact t.known
  · rw [hl]
    exact fun run hm => t.untimed run (hr hm)
  · rw [hl]
    intro run hm
    rw [lives]
    exact t.home run (hr hm)
  · rw [hl]
    intro run hm
    rw [lives]
    exact t.ordered run (hr hm)
  · rw [hl]
    intro run hm
    rw [lives]
    exact t.stamped run (hr hm)

theorem move (t : r.Turns had) (o : r.Owned) (here : Option Nat) (phase : String) (s : Standing) :
    (r.move here phase s).Turns had := by
  have stood : (r.modifyInstance phase fun i => { i with standing := s }).Turns had :=
    t.fewer rfl rfl (List.Subset.refl _) rfl
  exact stood.beside o.numbered o.ids (beside_move here phase s r) fun _ h => h.elim

theorem unwind (t : r.Turns had) (o : r.Owned) (here : Option Nat) {run : Run} (hm : run ∈ r.runs) :
    (r.unwind here run).Turns had := by
  obtain ⟨i, key, _, _, same⟩ := o.beside_unwind here hm
  have stopped := (@aside_stopSession nobody r run.session).beside
  have t₁ := t.beside o.numbered o.ids stopped fun _ h => h.elim
  have o₁ := o.same stopped.holders
  generalize r.stopSession run.session = q at same t₁ o₁
  have retired : (q.retire run key (i.standing.leave r.now)).Turns had :=
    t₁.fewer rfl rfl (List.filter_subset_self _) rfl
  refine retired.beside (fun other ho => o₁.numbered other ?_) (o₁.ids.sublist ?_) same
    fun _ h => h.elim
  · exact (List.mem_filter.mp ho).1
  · exact List.Sublist.map _ List.filter_sublist

section Employ
variable {r₁ : Runner} {phase key : String} {session : Nat}

theorem hire (t : r.Turns had) (o : r.Owned) (h : Lent r r₁ key session) :
    (r₁.hire session phase).Turns had := by
  have loops : (r₁.hire session phase).loops = r.loops := h.loops
  have count : (r₁.hire session phase).runCount = r.runCount + 1 := congrArg (· + 1) h.runCount
  have lives : ∀ run ∈ r.runs,
      (r₁.hire session phase).executorOf run.session = r.executorOf run.session := by
    intro run hm
    have hne : run.session ≠ session := fun he => h.not_atWork o ⟨run, hm, he⟩
    simp only [executorOf, session?, hire_session_of_ne h hne]
  have fresh : ∀ loop, .resume r.runCount ∉ r.loops.posted loop ∧
      .resume r.runCount ∉ r.loops.timed loop := fun loop =>
    ⟨fun hq => Nat.lt_irrefl _ (t.known loop _ (.inl hq)),
      fun hq => Nat.lt_irrefl _ (t.known loop _ (.inr hq))⟩
  have cases : ∀ run ∈ (r₁.hire session phase).runs, run ∈ r.runs ∨ run.id = r.runCount := by
    intro run hm
    rw [hire_runs h] at hm
    rcases List.mem_append.mp hm with hm | hm
    · exact .inl hm
    · rw [List.mem_singleton.mp hm]
      exact .inr rfl
  constructor
  · intro id hid
    have := t.past id hid
    omega
  · intro loop id hq
    rw [loops] at hq
    have := t.known loop id hq
    omega
  · rw [loops]
    intro run hm hn loop
    rcases cases run hm with hm | he
    · exact t.untimed run hm hn loop
    · rw [he]
      exact (fresh loop).2
  · rw [loops]
    intro run hm hn loop hq
    rcases cases run hm with hm | he
    · rw [lives run hm]
      exact t.home run hm hn loop hq
    · rw [he] at hq
      exact absurd hq (fresh loop).1
  · rw [loops]
    intro run hm hn
    rcases cases run hm with hm | he
    · rw [lives run hm]
      exact t.ordered run hm hn
    · rw [he]
      refine List.pairwise_of_forall_mem_list fun u hu v _ hv => ?_
      exact absurd (hv ▸ hu) (fresh _).1
  · rw [loops]
    intro run hm hin
    rcases cases run hm with hm | he
    · rw [lives run hm]
      exact t.stamped run hm hin
    · have := t.past run.id hin
      omega

theorem employ (t : r.Turns had) (o : r.Owned) (h : Lent r r₁ key session) {i : Instance}
    (hi : r.instances.get? phase = some i) (hk : i.phase.key = some key)
    (hs : i.standing.status = .running) : (r₁.employ session phase).Turns had := by
  have hired := hire_owned h o hi hk hs
  have called : Beside nobody (r₁.hire session phase) (r₁.employ session phase) := by
    rw [employ_eq h o]
    refine ⟨.push .., .push _ rfl fun id he => ?_, rfl⟩
    cases he
    exact ⟨_, List.mem_append_right _ (List.mem_singleton_self _), rfl, rfl⟩
  exact (t.hire o h).beside hired.numbered hired.ids called fun _ h => h.elim

end Employ

theorem effect (t : r.Turns had) (o : r.Owned) {here : Option Nat} {d : Deed}
    (h : Effect r here d r') : r'.Turns had := by
  cases h with
  | aside h => exact t.beside o.numbered o.ids h.beside fun _ h => h.elim
  | move h _ _ =>
    exact (t.beside o.numbered o.ids h.beside fun _ h => h.elim).move (o.same h.holders) ..
  | enroll _ hi hk hs h => exact t.employ o (lent_of_acquire o h) hi hk hs
  | complete h => exact t.unwind o here (List.mem_of_find?_eq_some h)

theorem shift (t : r.Turns had) (o : r.Owned) (hm : ∀ id, m.calls id → id ∈ had)
    (h : Shift m r r') : r'.Turns had := by
  have counted : ∀ key loop f, (r.modifyBoard key loop f).Turns had := fun key loop f =>
    t.beside o.numbered o.ids (@Beside.modifyBoard nobody r key loop f) fun _ h => h.elim
  cases h with
  | aside h => exact t.beside o.numbered o.ids h.beside hm
  | ensure => exact counted ..
  | record => exact counted ..
  | clock => exact t.fewer rfl rfl (List.Subset.refl _) rfl
  | deed here d _ hd h => exact t.effect o (effect_of_deed hd h)

theorem stamp (t : r.Turns had) {phase : String} (hn : ∀ run ∈ r.runs, run.phase ≠ phase)
    (loop : Nat) (key : String) (time : Nat) : (r.push loop (.stamp key phase time)).Turns had := by
  have posted := LoopGroup.posted_push_or r.loops loop (.stamp key phase time)
  have turns : ∀ other id, .resume id ∈ (r.push loop (.stamp key phase time)).loops.posted other →
      .resume id ∈ r.loops.posted other := by
    intro other id hq
    rcases posted other with he | he
    · rwa [push, he] at hq
    · rw [push, he] at hq
      simpa using hq
  exact {
    past := t.past
    known := fun other id hq =>
      t.known other id (hq.imp (turns other id) fun h => LoopGroup.timed_push h)
    untimed := fun run hm hno other hq => t.untimed run hm hno other (LoopGroup.timed_push hq)
    home := fun run hm hno other hq => t.home run hm hno other (turns other _ hq)
    ordered := by
      intro run hm hno
      have before := t.ordered run hm hno
      rcases posted (r.executorOf run.session) with he | he
      · rwa [← he] at before
      · have after := before.concat (t := .stamp key phase time) fun k at_ same => by
          simp only [Task.stamp.injEq] at same
          exact hn run hm same.2.1.symm
        rwa [← he] at after
    stamped := by
      intro run hm hin k at_ hq
      apply t.stamped run hm hin k at_
      change _ ∈ (r.loops.push loop _).posted (r.executorOf run.session) at hq
      rcases posted (r.executorOf run.session) with he | he
      · rwa [he] at hq
      · rw [he] at hq
        refine (List.mem_append.mp hq).resolve_right fun hq => ?_
        simp only [List.mem_singleton, Task.stamp.injEq] at hq
        exact hn run hm hq.2.1 }

theorem enterGroup (t : r.Turns had) {key phase : String} (hn : ∀ run ∈ r.runs, run.phase ≠ phase) :
    (r.enterGroup key phase).Turns had := by
  have entered : (r.modifyGroup key fun g => { g with current := some phase }).Turns had :=
    t.fewer rfl rfl (List.Subset.refl _) rfl
  have stamps : ∀ (l : List Nat) (q : Runner), q.Turns had → (∀ run ∈ q.runs, run.phase ≠ phase) →
      (l.foldl (fun q i => q.push i (.stamp key phase r.now)) q).Turns had := by
    intro l
    induction l with
    | nil => exact fun _ t _ => t
    | cons i l ih => exact fun q t hn => ih _ (t.stamp hn i key r.now) hn
  exact stamps _ _ entered hn

theorem begin (t : r.Turns had) (o : r.Owned) {phase : String} (h : r.begin phase = .ok r') :
    r'.Turns had := by
  obtain ⟨i, s, r₁, hi, hs, hr, rfl⟩ := begin_cases h
  obtain ⟨_, _, hn, _⟩ := Standing.start_lawful (o.lawful phase i hi) hs
  have idle : ∀ run ∈ r.runs, run.phase ≠ phase := by
    have none := (o.lawful phase i hi).idle (.inl hn)
    rw [o.counted phase i hi, runsOf, List.countP_eq_zero] at none
    exact fun run hm he => none run hm (by simpa using he)
  rcases hr with ⟨key, _, rfl⟩ | rfl
  · exact (t.enterGroup idle).move (o.same (holders_enterGroup ..)) ..
  · exact t.move o ..

theorem shifts (t : r.Turns had) (o : r.Owned) (hm : ∀ id, m.calls id → id ∈ had)
    (h : Shifts m r r') : r'.Turns had := by
  induction h with
  | refl => exact t
  | tail hs h ih => exact ih.shift (o.shifts hs) hm h

end Turns

/-- A piece of work may make buckets only for runs that have had a turn, and it is one of those that
may wait. -/
structure Ready (m : Remit) (had : List Nat) (r : Runner) : Prop where
  calls : ∀ id, m.calls id → id ∈ had
  buckets : ∀ run ∈ r.runs, m.buckets run.session → run.id ∈ had
  enrolls : ∀ phase, m.deeds (.enroll phase) → ∀ session, ¬ m.buckets session

/-- A run that is there after a change was there before, unless the phases may admit sessions. -/
theorem Shift.run_of {m : Remit} {r r' : Runner} (o : r.Owned)
    (hn : ∀ phase, ¬ m.deeds (.enroll phase)) (h : Shift m r r') {run : Run} (hm : run ∈ r'.runs) :
    ∃ run₀ ∈ r.runs, run₀.id = run.id ∧ run₀.session = run.session := by
  have same : ∀ {q q' : Runner}, SameHolders q q' → ∀ {run}, run ∈ q'.runs →
      ∃ run₀ ∈ q.runs, run₀.id = run.id ∧ run₀.session = run.session := fun h _ hm => by
    obtain ⟨run₀, hm₀, he⟩ := h.run_of hm
    exact ⟨run₀, hm₀, (Run.core_eq he).1, (Run.core_eq he).2.1⟩
  cases h with
  | aside h => exact same h.holders hm
  | ensure => exact ⟨run, hm, rfl, rfl⟩
  | record => exact ⟨run, hm, rfl, rfl⟩
  | clock => exact ⟨run, hm, rfl, rfl⟩
  | deed here d hd hb hc =>
    have h := effect_of_deed hb hc
    clear hc
    cases h with
    | aside h => exact same h.holders hm
    | @move r₁ phase i s h _ _ =>
      obtain ⟨run₁, hm₁, hid, hs⟩ := same (holders_move here phase s r₁) hm
      obtain ⟨run₀, hm₀, hid₀, hs₀⟩ := same h.holders hm₁
      exact ⟨run₀, hm₀, hid₀.trans hid, hs₀.trans hs⟩
    | @enroll _ phase _ _ _ he =>
      rw [he] at hd
      exact absurd hd (hn phase)
    | complete h =>
      obtain ⟨_, _, _, _, left⟩ := o.beside_unwind here (List.mem_of_find?_eq_some h)
      obtain ⟨run₁, hm₁, hid, hs⟩ := same left.holders hm
      have hin := (List.mem_filter.mp hm₁).1
      rw [stopSession_runs] at hin
      exact ⟨run₁, hin, hid, hs⟩

namespace Ready
variable {m : Remit} {had : List Nat} {r r' : Runner}

theorem shift (a : Ready m had r) (o : r.Owned) (h : Shift m r r') : Ready m had r' where
  calls := a.calls
  buckets := by
    intro run hm hb
    obtain ⟨run₀, hm₀, hid, hs⟩ := h.run_of o (fun phase hd => a.enrolls phase hd _ hb) hm
    rw [← hid]
    exact a.buckets run₀ hm₀ (hs ▸ hb)
  enrolls := a.enrolls

theorem shifts (a : Ready m had r) (o : r.Owned) (h : Shifts m r r') : Ready m had r' := by
  induction h with
  | refl => exact a
  | tail hs h ih => exact ih.shift (o.shifts hs) h

end Ready

theorem Iterating.buckets {r : Runner} {had : List Nat} {request : Nat}
    (h : r.Iterating had request) (o : r.Owned) {run : Run} (hm : run ∈ r.runs)
    (hs : run.session = r.ownerOf request) : run.id ∈ had := by
  obtain ⟨q, hq, run₁, hm₁, hs₁, hin⟩ := h
  have owner : r.ownerOf request = q.session := by simp [ownerOf, hq]
  rwa [o.run_of_session hm hm₁ (by rw [hs, owner, hs₁])]

theorem InTime.ready {r : Runner} {had : List Nat} {e : Happening} (h : r.InTime had e)
    (o : r.Owned) : Ready (r.remit e) (had ++ r.turned e) r := by
  have old : ∀ {id}, id ∈ had → id ∈ had ++ r.turned e := List.mem_append_left _
  have nothing : Ready {} (had ++ r.turned e) r :=
    ⟨fun _ => False.elim, fun _ _ => False.elim, fun _ => False.elim⟩
  have buckets : ∀ {buckets : Nat → Prop},
      (∀ run ∈ r.runs, buckets run.session → run.id ∈ had) →
        Ready { buckets := buckets } (had ++ r.turned e) r :=
    fun hb => ⟨fun _ => False.elim, fun run hm hs => old (hb run hm hs), fun _ => False.elim⟩
  cases e with
  | deed here d => exact ⟨fun _ => False.elim, fun _ _ => False.elim, fun _ _ _ => False.elim⟩
  | turn loop =>
    cases hn : r.loops.next? loop with
    | none => simpa only [remit, hn, Option.elim] using nothing
    | some next =>
      obtain ⟨t, loops⟩ := next
      simp only [remit, hn, Option.elim]
      cases t with
      | resume id =>
        have had_turn : id ∈ had ++ r.turned (.turn loop) := by simp [turned, hn]
        refine ⟨fun other he => he ▸ had_turn, fun run hm hb => ?_, fun phase hd => ?_⟩
        · obtain ⟨run₁, hm₁, hid, hs⟩ := hb
          rw [← o.run_of_session hm₁ hm hs, hid]
          exact had_turn
        · obtain ⟨_, _, _, hd | ⟨_, hd⟩⟩ := hd <;> cases hd
      | pace phase => exact ⟨fun _ => False.elim, fun _ _ => False.elim, fun _ _ _ => False.elim⟩
      | expire request =>
        exact buckets fun run hm hb => (h request loops hn hb.1).buckets o hm hb.2
      | _ => exact nothing
  | clock now => exact ⟨fun _ => False.elim, fun _ _ => False.elim, fun _ => False.elim⟩
  | command request c =>
    cases c with
    | begin metric sequence => exact buckets fun run hm hb => Iterating.buckets h o hm hb
    | timeOut => exact buckets fun run hm hb => (h hb.1).buckets o hm hb.2
    | _ => exact nothing
  | _ => exact nothing

theorem Turns.change {r r' : Runner} {had : List Nat} (t : r.Turns had) (o : r.Owned)
    {e : Happening} (ht : r.InTime had e) (h : Change r e r') :
    r'.Turns (had ++ r.turned e) := by
  have t' := t.turn e
  have beside : ∀ q, Beside nobody r q → q.Turns (had ++ r.turned e) := fun _ h =>
    t'.beside o.numbered o.ids h fun _ h => h.elim
  cases h with
  | begin h => exact t'.begin o h
  | survey recent => exact beside _ (beside_beginSurvey r recent)
  | pruning => exact beside _ (beside_beginPruning r)
  | @order loop u loops hn hu =>
    have took := LoopGroup.took_of_next? hn
    have taken : Beside nobody r { r with loops := loops } :=
      ⟨.onLoops r took.size took.running, .take hn, rfl⟩
    exact beside _ (taken.trans (beside_perform loop _ hu))
  | work _ _ h => exact t'.shifts o (ht.ready o).calls h

theorem Fresh.turns {r : Runner} (h : r.Fresh) : r.Turns [] where
  past := by simp
  known := by
    intro loop id hq
    simp [h.idle loop] at hq
  untimed := by simp [h.runs]
  home := by simp [h.runs]
  ordered := by simp [h.runs]
  stamped := by simp [h.runs]

theorem Worked.turns {r₀ r : Runner} {had : List Nat} {es : List Happening} (h₀ : r₀.Initial)
    (h : Worked r₀ [] es had r) : r.Turns had := by
  induction h with
  | refl => exact (fresh_of_initial h₀).turns
  | next hw ht he ih =>
    exact ih.change (hw.course.owned h₀) ht (change_of_after ht.allowed he)

end LoadGen.Runner
