import LoadGen.Proofs.Dates
import LoadGen.Proofs.Requests

namespace LoadGen

namespace Standing
variable {s t : Standing} {now : Nat}

def notes (s : Standing) : Option Failure × Bool := (s.failure, s.limitExceeded)

theorem notice_eq (hs : t.status = s.status) (hn : t.notes = s.notes) : t.notice = s.notice := by
  obtain ⟨hf, hl⟩ := Prod.mk.inj hn
  rw [notice, notice, hs, hf, hl]

theorem notes_start {name : String} (h : s.start name now = .ok t) : t.notes = s.notes := by
  unfold start at h
  split at h <;> cases h
  rfl

theorem notes_finish {name : String} (h : s.finish name now = .ok (some t)) :
    t.notes = s.notes := by
  unfold finish at h
  split at h <;> cases h
  rfl

theorem notes_tryTerminate (h : s.tryTerminate now = some t) : t.notes = s.notes := by
  unfold tryTerminate at h
  split at h <;> cases h
  rfl

theorem notes_terminate (h : s.terminate now = some t) : t.notes = s.notes := by
  have halted : (s.halt now).notes = s.notes := by
    unfold halt
    split <;> rfl
  unfold terminate at h
  split at h
  · cases h
  · rw [← halted, ← Option.some.inj h]
    change (if (s.halt now).active = 0 then _ else _ : Standing).notes = _
    split <;> rfl

theorem Ends.notes {t? : Option Standing} (h : s.Ends now t?) (ht : t? = some t) :
    t.notes = s.notes := by
  cases h with
  | finish h => exact notes_finish (ht ▸ h)
  | tryTerminate => exact notes_tryTerminate ht
  | terminate => exact notes_terminate ht

theorem notes_leave (s : Standing) (now : Nat) : (s.leave now).notes = s.notes := by
  unfold leave
  dsimp only
  split <;> rfl

end Standing

def Instance.view (i : Instance) : Phase × Notice := (i.phase, i.standing.notice)

namespace Runner

/-- What comes to pass with a phase. -/
inductive Incident
  | begun (phase : String)
  /-- The phase asks for a session, and its pool has nothing left. -/
  | short (phase : String)
  /-- The phase is flagged by hand. -/
  | flagged (phase : String)
  | failed (phase : String) (f : Failure)
  deriving DecidableEq, Repr

section Incidents

/-- The incidents among what comes to pass. -/
def incidentsIn (log : List Occurrence) : List Incident :=
  log.flatMap fun
    | .asks phase r => if (r.startSession phase).1 = .short then [.short phase] else []
    | .comes ⟨run, .fails f, _⟩ => [.failed run.phase f]
    | .comes _ => []

/-- What comes to pass when something happens, in order. -/
def incidents (r : Runner) : Happening → List Incident
  | .deed _ (.begin phase) => [.begun phase]
  | .deed _ (.fail phase f) => [.failed phase f]
  | .exceedLimit phase => [.flagged phase]
  | e => incidentsIn (r.occurrences e)

theorem incidentsIn_append (log later : List Occurrence) :
    incidentsIn (log ++ later) = incidentsIn log ++ incidentsIn later := List.flatMap_append ..

theorem mem_incidentsIn {log : List Occurrence} {i : Incident} (h : i ∈ incidentsIn log) :
    (∃ phase r, .asks phase r ∈ log ∧ i = .short phase) ∨
      ∃ run f r, .comes ⟨run, .fails f, r⟩ ∈ log ∧ i = .failed run.phase f := by
  obtain ⟨o, ho, hi⟩ := List.mem_flatMap.mp h
  cases o with
  | asks phase r =>
    dsimp only at hi
    split at hi
    · exact .inl ⟨phase, r, ho, List.mem_singleton.mp hi⟩
    · cases hi
  | comes m =>
    obtain ⟨run, j, r⟩ := m
    cases j with
    | fails f => exact .inr ⟨run, f, r, ho, List.mem_singleton.mp hi⟩
    | _ => cases hi

end Incidents

def view? (r : Runner) (name : String) : Option (Phase × Notice) :=
  (r.instances.get? name).map Instance.view

def blamed (r : Runner) (phase : String) (f : Failure) : Runner :=
  r.modifyInstance phase fun i => { i with standing := i.standing.blame f }

/-- Nothing is told, nothing else would be told of any phase, and no group changes hands. -/
structure Hush (r r' : Runner) : Prop where
  views : ∀ name, r'.view? name = r.view? name
  currents : ∀ key, r'.current? key = r.current? key
  notices : r'.notices = r.notices
  causes : r'.fences.map Fence.cause = r.fences.map Fence.cause

/-- A change that a runner makes at once, and what comes to pass in it. -/
inductive Beat (r : Runner) : List Incident → Runner → Prop
  | hush {r' : Runner} : Hush r r' → Beat r [] r'
  | enter {phase key : String} : r.keyOf phase = some key → (r.groups.get? key).isSome →
      Beat r [.begun phase] (r.enterGroup key phase)
  /-- A phase without sessions begins. -/
  | alone {phase : String} : r.keyOf phase = none → Beat r [.begun phase] r
  | move (here : Option Nat) {phase : String} {i : Instance} {s : Standing} :
      r.instances.get? phase = some i → i.standing.status.rank < s.status.rank →
        s.notes = i.standing.notes → Beat r [] (r.move here phase s)
  | short {phase key : String} {r' : Runner} : r.keyOf phase = some key →
      r.acquire key = (none, r') → Beat r [.short phase] r'
  | flag (phase : String) : Beat r [.flagged phase]
      (r.modifyInstance phase fun i => { i with standing := i.standing.exceedLimit })
  | blame (phase : String) (f : Failure) : Beat r [.failed phase f] (r.blamed phase f)
  | announce (fence : Nat) : Beat r [] (r.announce fence)

/-- Any number of changes, one after the other. -/
inductive Beats : Runner → List Incident → Runner → Prop
  | refl {r : Runner} : Beats r [] r
  | tail {r q r' : Runner} {l m : List Incident} : Beats r l q → Beat q m r' → Beats r (l ++ m) r'

/-- What a happening comes down to. A failure comes before anything that is told. -/
inductive Episode (r : Runner) : List Incident → Runner → Prop
  | calm {l : List Incident} {r' : Runner} : (∀ phase f, .failed phase f ∉ l) → Beats r l r' →
      Episode r l r'
  | fails {q r' : Runner} (here : Option Nat) (phase : String) (f : Failure) : Hush r q →
      Beats (q.failPhase here phase f) [] r' → Episode r [.failed phase f] r'

variable {r q r' : Runner} {l m : List Incident}

section Hush

theorem Hush.refl (r : Runner) : Hush r r := ⟨fun _ => rfl, fun _ => rfl, rfl, rfl⟩

theorem Hush.trans (h : Hush r q) (k : Hush q r') : Hush r r' where
  views := fun name => (k.views name).trans (h.views name)
  currents := fun key => (k.currents key).trans (h.currents key)
  notices := k.notices.trans h.notices
  causes := k.causes.trans h.causes

theorem view?_congr (hi : r'.instances = r.instances) (name : String) :
    r'.view? name = r.view? name := by
  rw [view?, view?, hi]

theorem SameRecord.hush (h : SameRecord r r') (hv : ∀ name, r'.view? name = r.view? name) :
    Hush r r' :=
  ⟨hv, h.dates.currents, h.notices, by rw [h.fences]⟩

theorem SameRecord.hushed (h : SameRecord r r') (hi : r'.instances = r.instances) : Hush r r' :=
  h.hush (view?_congr hi)

theorem Hush.modifyBoard (r : Runner) (key : String) (loop : Nat) (f : Board → Board) :
    Hush r (r.modifyBoard key loop f) :=
  ⟨fun _ => rfl, current?_modifyBoard r key loop f, rfl, rfl⟩

theorem Hush.elsewhere (hi : r'.instances = r.instances) (hg : r'.groups = r.groups)
    (hj : r'.notices = r.notices) (hf : r'.fences.map Fence.cause = r.fences.map Fence.cause) :
    Hush r r' :=
  ⟨view?_congr hi, fun _ => by rw [current?, current?, hg], hj, hf⟩

theorem Shifts.hush {m : Remit} (hm : ∀ d, ¬ m.deeds d) (h : Shifts m r r')
    (hi : r'.instances = r.instances) : Hush r r' := by
  have quiet : (∀ key, r'.current? key = r.current? key) ∧ r'.notices = r.notices ∧
      r'.fences = r.fences := by
    clear hi
    induction h with
    | refl => exact ⟨fun _ => rfl, rfl, rfl⟩
    | @tail q q' _ h ih =>
      obtain ⟨currents, notices, fences⟩ := ih
      have once : (∀ key, q'.current? key = q.current? key) ∧ q'.notices = q.notices ∧
          q'.fences = q.fences := by
        cases h with
        | aside h => exact ⟨h.record.dates.currents, h.record.notices, h.record.fences⟩
        | ensure => exact ⟨current?_modifyBoard _ _ _ _, rfl, rfl⟩
        | record b => exact ⟨current?_modifyBoard q b.group b.executor _, rfl, rfl⟩
        | clock => exact ⟨fun _ => rfl, rfl, rfl⟩
        | deed here d hd => exact absurd hd (hm d)
      exact ⟨fun key => (once.1 key).trans (currents key), once.2.1.trans notices,
        once.2.2.trans fences⟩
  exact ⟨view?_congr hi, quiet.1, quiet.2.1, by rw [quiet.2.2]⟩

end Hush

section Beats

theorem Beat.beats (h : Beat r l r') : Beats r l r' := .tail .refl h

theorem Hush.beats (h : Hush r r') : Beats r [] r' := (Beat.hush h).beats

theorem Beats.trans (h : Beats r l q) (k : Beats q m r') : Beats r (l ++ m) r' := by
  induction k with
  | refl => rwa [List.append_nil]
  | tail _ hb ih =>
    rw [← List.append_assoc]
    exact ih.tail hb

theorem Beats.calm (h : Beats r [] r') : Episode r [] r' := .calm (by simp) h

theorem Episode.after (h : Hush r q) (k : Episode q l r') : Episode r l r' := by
  cases k with
  | calm hn k => exact .calm hn (h.beats.trans k)
  | fails here phase f k rest => exact .fails here phase f (h.trans k) rest

end Beats

section Views
variable {phase key name : String}

theorem view?_modifyInstance (r : Runner) (phase : String) (f : Instance → Instance)
    (g : Phase × Notice → Phase × Notice) (hf : ∀ i, (f i).view = g i.view) (name : String) :
    (r.modifyInstance phase f).view? name =
      if name = phase then (r.view? name).map g else r.view? name := by
  simp only [view?, Runner.modifyInstance, Dict.get?_modify]
  split
  · cases r.instances.get? name with
    | none => rfl
    | some i => simp [hf]
  · rfl

theorem view?_blamed (r : Runner) (phase : String) (f : Failure) (name : String) :
    (r.blamed phase f).view? name = if name = phase then (r.view? name).map fun v =>
      (v.1, { v.2 with failure := v.2.failure.or (some f) }) else r.view? name :=
  view?_modifyInstance r phase _ _ (fun _ => rfl) name

theorem instances_move (here : Option Nat) (phase : String) (s : Standing) (r : Runner) :
    (r.move here phase s).instances =
      (r.modifyInstance phase fun i => { i with standing := s }).instances := by
  unfold move
  dsimp only
  rw [(routine_tell ..).instances]
  split
  · exact (routine_wake ..).instances
  · rfl

theorem view?_move (here : Option Nat) (phase : String) (s : Standing) (r : Runner)
    (name : String) : (r.move here phase s).view? name =
      if name = phase then (r.view? name).map fun v => (v.1, s.notice) else r.view? name :=
  (view?_congr (instances_move here phase s r) name).trans
    (view?_modifyInstance r phase _ _ (fun _ => rfl) name)

theorem current?_tell (here : Option Nat) (phase : String) (r : Runner) (key : String) :
    (r.tell here phase).current? key = r.current? key := by
  unfold tell
  split
  · rfl
  · dsimp only
    split
    · exact (SameDates.deliver ..).currents key
    · split
      · exact (SameDates.raiseFence ..).currents key
      · exact (SameDates.deliver ..).currents key

theorem current?_move (here : Option Nat) (phase : String) (s : Standing) (r : Runner)
    (key : String) : (r.move here phase s).current? key = r.current? key := by
  unfold move
  dsimp only
  rw [current?_tell]
  split
  · obtain ⟨loops, he⟩ := wake_eq phase (r.modifyInstance phase fun i => { i with standing := s })
    rw [he]
    rfl
  · rfl

theorem current?_enterGroup (hg : (r.groups.get? key).isSome) (phase other : String) :
    (r.enterGroup key phase).current? other =
      if other = key then some phase else r.current? other := by
  obtain ⟨g, hg⟩ := Option.isSome_iff_exists.mp hg
  obtain ⟨loops, he⟩ := enterGroup_eq r key phase
  rw [he]
  simp only [current?, Runner.modifyGroup, Dict.get?_modify]
  split
  · rename_i ho
    simp [ho, hg]
  · rfl

theorem depleted_view (r : Runner) (key name : String) : (r.depleted key).view? name =
    if r.current? key = some name then (r.view? name).map fun v =>
      (v.1, { v.2 with limitExceeded := true }) else r.view? name := by
  have logged := (routine_logDepletion r).instances
  have asked : ((r.logDepletion.groups.get? key).bind (·.current)) = r.current? key := by
    rw [groups_logDepletion, current?]
  unfold depleted
  dsimp only
  rw [asked]
  cases r.current? key with
  | none => exact (view?_congr logged name).trans (by simp)
  | some phase =>
    rw [view?_modifyInstance _ phase _ (fun v => (v.1, { v.2 with limitExceeded := true }))
      fun _ => rfl, view?_congr logged]
    simp only [Option.some.injEq, eq_comm (a := phase)]

theorem depleted_current (r : Runner) (key other : String) :
    (r.depleted key).current? other = r.current? other := by
  have logged : r.logDepletion.current? other = r.current? other := by
    rw [current?, groups_logDepletion, current?]
  unfold depleted
  dsimp only
  split <;> exact logged

/-- A pool that has nothing left changes nothing but the flag of one phase. -/
theorem acquire_depletes (h : r.acquire key = (none, r')) :
    (∀ other, r'.current? other = r.current? other) ∧ ∀ name, r'.view? name =
      if r.current? key = some name then (r.view? name).map fun v =>
        (v.1, { v.2 with limitExceeded := true }) else r.view? name := by
  cases acquires h with
  | nowhere group =>
    have nobody : r.current? key = none := by rw [current?, group]; rfl
    exact ⟨fun _ => rfl, fun name => by simp [nobody]⟩
  | never =>
    have kept : ∀ pool other, (r.modifyGroup key fun g => { g with pool := pool }).current? other =
        r.current? other := by
      intro pool other
      simp only [current?, Runner.modifyGroup, Dict.get?_modify]
      split
      · cases r.groups.get? other <;> rfl
      · rfl
    refine ⟨fun other => (depleted_current ..).trans (kept _ other), fun name => ?_⟩
    rw [depleted_view, kept]
    rfl

end Views

section Deeds
variable {phase : String} {i : Instance} {s : Standing}

theorem Hush.stand (hi : r.instances.get? phase = some i) (hs : s.notice = i.standing.notice) :
    Hush r (r.modifyInstance phase fun i => { i with standing := s }) := by
  refine { Hush.refl r with views := Dict.map_get?_modify fun j hj => ?_ }
  cases hi.symm.trans hj
  rw [Instance.view, Instance.view, hs]

theorem beats_moveIf (here : Option Nat) (hi : r.instances.get? phase = some i)
    {s? : Option Standing} (hs : ∀ s, s? = some s →
      i.standing.status.rank < s.status.rank ∧ s.notes = i.standing.notes) :
    Beats r [] (r.moveIf here phase s?) := by
  cases s? with
  | none => exact .refl
  | some s =>
    obtain ⟨rank, notes⟩ := hs s rfl
    exact (Beat.move here hi rank notes).beats

theorem failPhase_eq (here : Option Nat) (phase : String) (f : Failure) (r : Runner) :
    r.failPhase here phase f = match (r.blamed phase f).instances.get? phase with
      | none => r.blamed phase f
      | some i => (r.blamed phase f).moveIf here phase (i.standing.terminate r.now) := rfl

theorem beats_terminate (here : Option Nat) (phase : String) (f : Failure) (r : Runner) :
    Beats (r.blamed phase f) [] (r.failPhase here phase f) := by
  rw [failPhase_eq]
  split
  · exact .refl
  · rename_i i hi
    exact beats_moveIf here hi fun s hs =>
      ⟨(Standing.terminate_onward hs).rank, Standing.notes_terminate hs⟩

theorem beats_failPhase (here : Option Nat) (phase : String) (f : Failure) (r : Runner) :
    Beats r [.failed phase f] (r.failPhase here phase f) :=
  (Beat.blame phase f).beats.trans (beats_terminate here phase f r)

theorem Episode.beats (h : Episode r l r') : Beats r l r' := by
  cases h with
  | calm _ h => exact h
  | fails here phase f h rest => exact (h.beats.trans (beats_failPhase here phase f _)).trans rest

theorem hush_employ (r : Runner) (session : Nat) (phase : String) :
    Hush r (r.employ session phase) := by
  refine (record_employ r session phase).hush fun name => ?_
  have joined := (spares_spawn ((r.modifyInstance phase fun i =>
    { i with standing := i.standing.join }).modifySession session fun s =>
      { s with phase := some phase }) session phase).instances
  rw [employ, view?_congr joined]
  exact Dict.map_get?_modify (f := fun i : Instance => { i with standing := i.standing.join })
    (fun _ _ => rfl) name

theorem beats_answers {a : Answer} (h : Answers r phase a r') :
    Beats r (if a = .short then [.short phase] else []) r' := by
  cases h with
  | refused => exact .refl
  | @short i key _ _ hi hg _ ha =>
    have keyed : r.keyOf phase = some key := by
      rw [keyOf, hi]
      exact (groupOf?_eq_some.mp hg).1
    exact (Beat.short keyed ha).beats
  | granted _ _ _ ha =>
    have lent := (record_acquire ha).hushed (spares_acquire ha).instances
    exact (lent.trans (hush_employ ..)).beats

theorem beats_asks (phase : String) (r : Runner) :
    Beats r (incidentsIn [.asks phase r]) (r.startSession phase).2 := by
  have asked := beats_answers (answers r phase)
  rwa [← List.append_nil (ite ..)] at asked

end Deeds

section Pacing

theorem beats_hires {name : String} {log : List Occurrence} (h : Hires name r log r') :
    Beats r (incidentsIn log) r' := by
  induction h with
  | refl => exact .refl
  | asks => exact beats_asks ..
  | sets => exact Hush.beats (.elsewhere rfl rfl rfl rfl)
  | calls => exact Hush.beats (.elsewhere rfl rfl rfl rfl)
  | arms => exact Hush.beats (.elsewhere rfl rfl rfl rfl)
  | trans _ _ ih later =>
    rw [incidentsIn_append]
    exact ih.trans later

theorem beats_paces {phase : String} {log : List Occurrence} (h : Paces phase r log r') :
    Beats r (incidentsIn log) r' := by
  cases h with
  | idle => exact .refl
  | stops => exact Hush.beats (.elsewhere rfl rfl rfl rfl)
  | hires _ _ h => exact beats_hires h

end Pacing

end Runner
end LoadGen
