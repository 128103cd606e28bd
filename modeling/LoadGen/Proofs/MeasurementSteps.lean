import LoadGen.Proofs.Conservation
import LoadGen.Proofs.Fences

namespace LoadGen.Runner

/-- A change of what is measured, or of where a phase stands. -/
inductive Stage (r : Runner) : Runner → Prop
  | same {r' : Runner} : SameRecord r r' → Stage r r'
  /-- A phase that has not terminated gets a bucket. -/
  | ensure {phase key : String} (loop : Nat) (metric : String) :
      r.keyOf phase = some key → r.status? phase ≠ some .terminated →
        Stage r (r.modifyBoard key loop (·.ensure phase metric r.now))
  | record (b : BucketRef) (stamp : Nat) (e : Event) : Stage r (r.measure b stamp e)
  /-- A phase that has not started takes its group over. -/
  | enter {phase key : String} : r.keyOf phase = some key → r.status? phase = some .notStarted →
      Stage r (r.enterGroup key phase)
  | move (here : Option Nat) {phase : String} {i : Instance} {s : Standing} :
      r.instances.get? phase = some i → i.standing.status.rank < s.status.rank →
        (∀ key, r.keyOf phase = some key → (r.groups.get? key).isSome) →
        (s.status = .terminated → s.terminatedAt = some r.now) → Stage r (r.move here phase s)

/-- Any number of changes, one after the other. -/
abbrev Stages : Runner → Runner → Prop := Relation.ReflTransGen Stage

/-- What a happening is for the measurements. -/
inductive Passage (r : Runner) : Happening → Runner → Prop
  | survey (recent : Option Nat) : Passage r (.beginSurvey recent) (r.beginSurvey recent).2
  | pruning : Passage r .beginPruning r.beginPruning.2
  | order {loop : Nat} {t : Task} {loops : LoopGroup Task} :
      r.loops.next? loop = some (t, loops) → t.isOrder = true →
        Passage r (.turn loop) ({ r with loops := loops }.perform loop t)
  | stages {e : Happening} {r' : Runner} : e ≠ .beginPruning → Stages r r' → Passage r e r'

theorem SameRecord.stages {r r' : Runner} (h : SameRecord r r') : Stages r r' := .single (.same h)

section Deeds

theorem SameRecord.grouped {r r' : Runner} (h : SameRecord r r') {key : String}
    (hg : (r.groups.get? key).isSome) : (r'.groups.get? key).isSome := by
  have hb := h.boards key
  cases hk : r'.groups.get? key with
  | some g => rfl
  | none =>
    rw [hk] at hb
    rw [Option.map_eq_none_iff.mp hb.symm] at hg
    cases hg

/-- What a deed, other than the begin of a phase, comes down to for the record: nothing, or a move
of a phase. -/
inductive Upshot (r : Runner) (here : Option Nat) : Runner → Prop
  | same {r' : Runner} : SameRecord r r' → Upshot r here r'
  | move {r₁ : Runner} {phase : String} {i : Instance} {s : Standing} :
      SameRecord r r₁ → r₁.instances.get? phase = some i →
        i.standing.status.rank < s.status.rank →
        (s.status = .terminated → s.terminatedAt = some r₁.now) →
        Upshot r here (r₁.move here phase s)

theorem Upshot.stages {r r' : Runner} {here : Option Nat} (o : r.Owned) (h : Upshot r here r') :
    Stages r r' := by
  cases h with
  | same h => exact h.stages
  | @move r₁ phase i s h hi hs ht =>
    refine h.stages.tail (.move here hi hs (fun key hk => h.grouped (o.grouped phase key ?_)) ht)
    rw [← h.keyOf_eq]
    exact hk

theorem record_acquire {r r₁ : Runner} {key : String} {session : Nat}
    (h : r.acquire key = (some session, r₁)) : SameRecord r r₁ := by
  have lent : ∀ pool : Pool Nat, SameRecord r (r.modifyGroup key fun h =>
      { h with pool := pool }) := fun pool => .modifyGroup r fun _ _ => rfl
  cases acquires h with
  | anew => exact (lent _).trans (.elsewhere rfl rfl rfl rfl rfl rfl rfl rfl)
  | again => exact lent _

theorem record_spawn (r : Runner) (session : Nat) (phase : String) :
    SameRecord r (r.spawn session phase) := by
  have noted : ∀ runs n, SameRecord r { r with runs := runs, runCount := n } := fun _ _ =>
    .elsewhere rfl rfl rfl rfl rfl rfl rfl rfl
  unfold spawn
  dsimp only
  split
  · exact (noted _ _).trans (.push _ _ rfl)
  · exact .refl r

theorem record_employ (r : Runner) (session : Nat) (phase : String) :
    SameRecord r (r.employ session phase) := by
  have joined : SameRecord r (r.modifyInstance phase fun i =>
      { i with standing := i.standing.join }) := .modifyInstance r fun _ _ => rfl
  exact joined.trans ((SameRecord.modifySession ..).trans (record_spawn ..))

theorem record_giveBack (r : Runner) (key : String) (session : Nat) :
    SameRecord r (r.giveBack key session) := .modifyGroup r fun _ _ => rfl

theorem upshot_unwind (here : Option Nat) (run : Run) (r : Runner) :
    Upshot r here (r.unwind here run) := by
  have removed : SameRecord r { r with runs := r.runs.filter (·.id != run.id) } :=
    .elsewhere rfl rfl rfl rfl rfl rfl rfl rfl
  have stopped := removed.trans (@aside_stopSession nobody _ run.session).record
  have counted : ∀ {i q r'}, SameRecord r q → q.instances.get? run.phase = some i →
      Leaves here run i q r' → Upshot r here r' := by
    intro i q r' h hq left
    cases left with
    | stands he =>
      refine .same (h.trans (.modifyInstance q fun j hj => ?_))
      cases hq.symm.trans hj
      simp only [Instance.state, he, Standing.leave_terminatedAt_of_eq he]
    | moves hne => exact .move h hq (Standing.leave_rank hne) fun _ => Standing.leave_terminatedAt hne
  have ended := unwinds here run r
  generalize r.unwind here run = r' at ended ⊢
  cases ended with
  | nowhere => exact .same stopped
  | keeps hi left => exact counted stopped hi left
  | givesBack hi left => exact counted (stopped.trans (record_giveBack ..)) hi left

theorem Effect.upshot {r r' : Runner} {here : Option Nat} {d : Deed} (h : Effect r here d r') :
    Upshot r here r' := by
  cases h with
  | aside h => exact .same h.record
  | move h hi hs => exact .move h.record hi hs.rank hs.terminatedAt
  | enroll _ _ _ _ h => exact .same ((record_acquire h).trans (record_employ ..))
  | complete => exact upshot_unwind here _ r

end Deeds

theorem Owned.status?_of_run {r : Runner} (o : r.Owned) {run : Run} (hm : run ∈ r.runs) :
    r.status? run.phase ≠ some .terminated := by
  intro ht
  obtain ⟨i, hi, ht⟩ := Option.map_eq_some_iff.mp ht
  have idle := (o.lawful _ i hi).idle (.inr ht)
  rw [o.counted _ i hi, runsOf, List.countP_eq_zero] at idle
  exact idle run hm (by simp)

theorem Shift.stages {m : Remit} {r r' : Runner} (o : r.Owned) (h : Shift m r r') : Stages r r' := by
  cases h with
  | aside h => exact h.record.stages
  | @ensure session s phase metric _ work hs hp =>
    obtain ⟨run, hm, rfl⟩ := work
    obtain ⟨s', hs', hp', hk⟩ := o.bound run hm
    cases hs.symm.trans hs'
    cases hp.symm.trans hp'
    exact .single (.ensure _ metric hk (o.status?_of_run hm))
  | record b stamp e => exact .single (.record b stamp e)
  | clock => exact .single (.same (.elsewhere rfl rfl rfl rfl rfl rfl rfl rfl))
  | deed here d _ hd h => exact (effect_of_deed hd h).upshot.stages o

theorem Shifts.stages {m : Remit} {r r' : Runner} (o : r.Owned) (h : Shifts m r r') : Stages r r' := by
  induction h with
  | refl => exact .refl
  | tail hs h ih => exact ih.trans (h.stages (o.shifts hs))

theorem stages_begin {r r' : Runner} (o : r.Owned) {name : String} (h : r.begin name = .ok r') :
    Stages r r' := by
  obtain ⟨i, s, r₁, hi, hs, hr, rfl⟩ := begin_cases h
  have lawful := o.lawful name i hi
  obtain ⟨_, _, hn, _⟩ := Standing.start_lawful lawful hs
  have rank := Standing.start_rank lawful hs
  have ends : ∀ {q : Runner}, s.status = .terminated → s.terminatedAt = some q.now :=
    fun he => absurd he (Standing.start_ne_terminated lawful hs)
  rcases hr with ⟨key, hk, rfl⟩ | rfl
  · have key_eq : r.keyOf name = some key := by rw [keyOf, hi]; exact hk
    have entered := holders_enterGroup r key name
    obtain ⟨j, hj, he⟩ := entered.instance_to hi
    have idle : r.status? name = some .notStarted := by rw [status?, hi]; exact congrArg some hn
    refine Relation.ReflTransGen.head (.enter key_eq idle) (.single (.move none hj ?_ ?_ ends))
    · rw [Instance.core_status he]
      exact rank
    · exact (o.same entered).grouped name
  · exact .single (.move none hi rank (o.grouped name) ends)

theorem Change.passage {r r' : Runner} {e : Happening} (o : r.Owned) (h : Change r e r') :
    Passage r e r' := by
  cases h with
  | begin h => exact .stages nofun (stages_begin o h)
  | survey recent => exact .survey recent
  | pruning => exact .pruning
  | order hn ht => exact .order hn ht
  | work _ hp h => exact .stages hp (h.stages o)

end LoadGen.Runner
