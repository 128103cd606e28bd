import LoadGen.Proofs.Lifecycle
import LoadGen.Proofs.TurnFailures

namespace LoadGen

/-- What would be told of a phase before and after some failures: the status does not go back, and a
failure gives way to none that comes later. -/
structure Notice.Heeds (fs : List Failure) (n n' : Notice) : Prop where
  failure : n'.failure = n.failure.or fs.head?
  rank : n.status.rank ≤ n'.status.rank

namespace Notice.Heeds
variable {n n' n'' : Notice} {fs gs : List Failure}

theorem refl (n : Notice) : Heeds [] n n := ⟨by simp, Nat.le_refl _⟩

theorem trans (h : Heeds fs n n') (k : Heeds gs n' n'') : Heeds (fs ++ gs) n n'' where
  failure := by rw [k.failure, h.failure, List.head?_append, Option.or_assoc]
  rank := Nat.le_trans h.rank k.rank

end Notice.Heeds

namespace Standing
variable {s t : Standing} {now : Nat}

theorem isTerminating_of_terminate (h : s.terminate now = some t) : t.status.isTerminating := by
  unfold terminate at h
  split at h
  · cases h
  · rw [← Option.some.inj h]
    change (if (s.halt now).active = 0 then _ else _ : Standing).status.isTerminating = true
    split <;> rfl

/-- Nothing is left to do for a phase that is about to end, or has ended. -/
theorem isTerminating_of_none (h : s.terminate now = none) : s.status.isTerminating := by
  unfold terminate at h
  split at h
  · assumption
  · cases h

end Standing

namespace Runner

def failuresOf (phase : String) (l : List Incident) : List Failure :=
  l.filterMap fun
    | .failed name f => if name = phase then some f else none
    | _ => none

def failure? (r : Runner) (phase : String) : Option Failure :=
  (r.view? phase).bind (·.2.failure)

/-- The phase has issued a notice of its end, which is told when all loops have carried it out. -/
def Issued (r : Runner) (phase : String) (n : Notice) : Prop :=
  ∃ k : Fence, k.cause ∈ r.fences.map Fence.cause ∧ k.phase = phase ∧ n = Fence.outcome k

/-- Whatever is told and issued by a change is as `p` says. -/
structure Utters (p : String → Notice → Prop) (r r' : Runner) : Prop where
  told : ∃ news, r'.notices = r.notices ++ news ∧ ∀ phase n, (phase, n) ∈ news → p phase n
  issued : ∀ phase n, r'.Issued phase n → r.Issued phase n ∨ p phase n

variable {r₀ r r₁ r' b : Runner} {l : List Incident} {phase name : String} {f : Failure}

section Heeds

theorem heeds_change {c : String → Prop} [DecidablePred c] {g : Phase × Notice → Phase × Notice}
    (hv : ∀ name, r'.view? name = if c name then (r.view? name).map g else r.view? name)
    {v : Phase × Notice} (h : r.view? name = some v)
    (hg : c name → v.2.Heeds (failuresOf name l) (g v).2) (hn : ¬ c name → failuresOf name l = []) :
    ∃ v', r'.view? name = some v' ∧ v.2.Heeds (failuresOf name l) v'.2 := by
  rw [hv, h]
  split
  · rename_i hc
    exact ⟨g v, rfl, hg hc⟩
  · rename_i hc
    rw [hn hc]
    exact ⟨v, rfl, .refl v.2⟩

theorem Beat.heeds (k : Beat r l r') {v : Phase × Notice} (h : r.view? name = some v) :
    ∃ v', r'.view? name = some v' ∧ v.2.Heeds (failuresOf name l) v'.2 := by
  have same : failuresOf name l = [] → r'.view? name = r.view? name →
      ∃ v', r'.view? name = some v' ∧ v.2.Heeds (failuresOf name l) v'.2 := by
    intro hn hv
    rw [hn]
    exact ⟨v, hv.trans h, .refl v.2⟩
  cases k with
  | hush k => exact same rfl (k.views name)
  | enter => exact same rfl (view?_congr (spares_enterGroup ..).instances name)
  | alone => exact same rfl rfl
  | @move here phase i s hi hr hn =>
    refine heeds_change (c := (· = phase)) (view?_move here phase s r) h (fun he => ?_) fun _ => rfl
    rw [he, view?, hi] at h
    rw [← Option.some.inj h]
    exact ⟨by simp [failuresOf, Instance.view, Standing.notice, (Prod.mk.inj hn).1],
      Nat.le_of_lt hr⟩
  | short _ ha =>
    exact heeds_change (acquire_depletes ha).2 h
      (fun _ => ⟨by simp [failuresOf], Nat.le_refl _⟩) fun _ => rfl
  | flag phase =>
    exact heeds_change (view?_modifyInstance r phase _
      (fun v => (v.1, { v.2 with limitExceeded := true })) fun _ => rfl) h
      (fun _ => ⟨by simp [failuresOf], Nat.le_refl _⟩) fun _ => rfl
  | blame phase f =>
    refine heeds_change (c := (· = phase)) (view?_blamed r phase f) h (fun he => ?_) fun hne => ?_
    · exact ⟨by simp [failuresOf, he], Nat.le_refl _⟩
    · simp [failuresOf, Ne.symm hne]
  | announce fence => exact same rfl (view?_congr (routine_announce ..).instances name)

/-- The first failure that a phase gets is the one that it has in the end. -/
theorem Beats.heeds (k : Beats r l r') {v : Phase × Notice} (h : r.view? name = some v) :
    ∃ v', r'.view? name = some v' ∧ v.2.Heeds (failuresOf name l) v'.2 := by
  induction k with
  | refl => exact ⟨v, h, .refl v.2⟩
  | tail _ hb ih =>
    obtain ⟨v₁, h₁, before⟩ := ih
    obtain ⟨v₂, h₂, after⟩ := hb.heeds h₁
    refine ⟨v₂, h₂, ?_⟩
    rw [failuresOf, List.filterMap_append]
    exact before.trans after

end Heeds

theorem outcome_failure {k : Fence} (h : k.notice.failure = some f) :
    (Fence.outcome k).failure = some f := by
  unfold Fence.outcome
  split
  · rw [h]
    rfl
  · exact h

section Utterances
variable {p p' : String → Notice → Prop} {r₂ r₃ : Runner}

theorem Utters.silent (hn : r'.notices = r.notices)
    (hc : r'.fences.map Fence.cause = r.fences.map Fence.cause) : Utters p r r' where
  told := ⟨[], by rw [hn, List.append_nil], by simp⟩
  issued := by
    intro phase n h
    rw [Issued, hc] at h
    exact .inl h

theorem Utters.trans (h : Utters p r₁ r₂) (k : Utters p r₂ r₃) : Utters p r₁ r₃ where
  told := by
    obtain ⟨news, hn, hp⟩ := h.told
    obtain ⟨more, hm, hq⟩ := k.told
    refine ⟨news ++ more, by rw [hm, hn, List.append_assoc], fun phase n hin => ?_⟩
    exact (List.mem_append.mp hin).elim (hp phase n) (hq phase n)
  issued := fun phase n hi => (k.issued phase n hi).elim (h.issued phase n) .inr

theorem Utters.mono (h : Utters p r r') (hp : ∀ phase n, p phase n → p' phase n) :
    Utters p' r r' where
  told := by
    obtain ⟨news, hn, all⟩ := h.told
    exact ⟨news, hn, fun phase n hin => hp phase n (all phase n hin)⟩
  issued := fun phase n hi => (h.issued phase n hi).imp_right (hp phase n)

theorem utters_deliver (r : Runner) {n : Notice} (h : p phase n) :
    Utters p r (r.deliver phase n) where
  told := by
    refine ⟨_, notices_deliver r phase n, fun other m hm => ?_⟩
    split at hm
    · cases List.mem_singleton.mp hm
      exact h
    · cases hm
  issued := by
    intro other m hi
    rw [Issued, deliver_eq] at hi
    exact .inl hi

theorem silent_sealOn (here : Option Nat) (fence : Nat) (k : Fence) (r : Runner) (loop : Nat) :
    (sealOn here fence k r loop).notices = r.notices ∧
      (sealOn here fence k r loop).fences.map Fence.cause = r.fences.map Fence.cause := by
  unfold sealOn
  split
  · exact ⟨rfl, rfl⟩
  · split
    · exact ⟨rfl, map_modify_eq (g := fun f => { f with pending := f.pending + 1 }) (fun _ => rfl)
        r.fences fence⟩
    · exact ⟨rfl, map_modify_eq (g := fun f => { f with broken := true }) (fun _ => rfl)
        r.fences fence⟩

theorem utters_raiseFence (here : Option Nat) (k : Fence) (r : Runner)
    (h : ∀ k' : Fence, k'.cause = k.cause → p k.phase (Fence.outcome k')) :
    Utters p r (raiseFence here k r) := by
  have sealing : ∀ (l : List Nat) (q : Runner),
      (l.foldl (sealOn here r.fences.length k) q).notices = q.notices ∧
        (l.foldl (sealOn here r.fences.length k) q).fences.map Fence.cause =
          q.fences.map Fence.cause := by
    intro l
    induction l with
    | nil => exact fun _ => ⟨rfl, rfl⟩
    | cons loop rest ih =>
      intro q
      obtain ⟨notices, causes⟩ := silent_sealOn here r.fences.length k q loop
      exact ⟨(ih _).1.trans notices, (ih _).2.trans causes⟩
  obtain ⟨notices, causes⟩ := sealing (List.range r.loops.size) { r with fences := r.fences ++ [k] }
  constructor
  · exact ⟨[], by rw [List.append_nil]; exact notices, by simp⟩
  · intro phase n hi
    obtain ⟨k', hk, hp, rfl⟩ := hi
    have either : k'.cause ∈ (r.fences ++ [k]).map Fence.cause := causes ▸ hk
    rw [List.map_append] at either
    rcases List.mem_append.mp either with old | new
    · exact .inl ⟨k', old, hp, rfl⟩
    · have same : k'.cause = k.cause := List.mem_singleton.mp new
      rw [← hp, (Prod.mk.inj same).1]
      exact .inr (h k' same)

theorem utters_tell (here : Option Nat) (phase : String) (r : Runner) :
    Utters (fun name n => ∀ f, r.failure? name = some f → n.failure = some f) r
      (r.tell here phase) := by
  unfold tell
  cases hi : r.instances.get? phase with
  | none => exact .silent rfl rfl
  | some i =>
    have stands : r.failure? phase = i.standing.notice.failure := by
      rw [failure?, view?, hi]
      rfl
    have now : ∀ f, r.failure? phase = some f → i.standing.notice.failure = some f :=
      fun f hf => stands.symm.trans hf
    dsimp only
    split
    · exact utters_deliver r now
    · split
      · refine utters_raiseFence here _ r fun k hk f hf => outcome_failure ?_
        obtain ⟨_, _, same, _⟩ : k.phase = phase ∧ k.group = _ ∧ k.notice = i.standing.notice ∧ _ := by
          simpa only [Fence.cause, Prod.mk.injEq] using hk
        rw [same]
        exact now f hf
      · exact utters_deliver r now

theorem utters_move (here : Option Nat) (phase : String) (s : Standing) (r : Runner) :
    Utters (fun name n => ∀ f, (r.move here phase s).failure? name = some f → n.failure = some f) r
      (r.move here phase s) := by
  have moved : ∃ q : Runner, r.move here phase s = q.tell here phase ∧ q.notices = r.notices ∧
      q.fences = r.fences := by
    unfold move
    dsimp only
    split
    · obtain ⟨loops, he⟩ := wake_eq phase (r.modifyInstance phase fun i => { i with standing := s })
      exact ⟨_, rfl, by rw [he]; rfl, by rw [he]; rfl⟩
    · exact ⟨_, rfl, rfl, rfl⟩
  obtain ⟨q, he, hn, hf⟩ := moved
  have same : ∀ name, (q.tell here phase).failure? name = q.failure? name := fun name => by
    rw [failure?, failure?, view?_congr (routine_tell ..).instances]
  have before : Utters (fun name n => ∀ f, q.failure? name = some f → n.failure = some f) r q :=
    .silent hn (by rw [hf])
  rw [he]
  simp only [same]
  exact before.trans (utters_tell here phase q)

/-- What is told was issued before, or carries the failure that the phase has. -/
theorem Beat.utters (k : Beat r l r') : Utters (fun name n => r.Issued name n ∨
    ∀ f, r'.failure? name = some f → n.failure = some f) r r' := by
  cases k with
  | hush k => exact .silent k.notices k.causes
  | @enter phase key =>
    obtain ⟨loops, he⟩ := enterGroup_eq r key phase
    rw [he]
    exact .silent rfl rfl
  | alone => exact .silent rfl rfl
  | @move here phase i s => exact (utters_move here phase s r).mono fun _ _ => .inr
  | short _ ha =>
    have same := (aside_acquire ha).record
    exact .silent same.notices (by rw [same.fences])
  | flag => exact .silent rfl rfl
  | blame => exact .silent rfl rfl
  | announce fence =>
    unfold Runner.announce
    split
    · exact .silent rfl rfl
    · rename_i k hk
      split
      · exact utters_deliver r (.inl ⟨k, List.mem_map_of_mem (List.mem_of_getElem? hk), rfl, rfl⟩)
      · exact .silent rfl (park_story r fence).causes

end Utterances

section Voices

/-- What a phase has told and issued since `b` carries its failure. What it had issued before may
still be told. -/
structure Voices (b : Runner) (phase : String) (f : Failure) (r : Runner) : Prop where
  failure : ∃ v, r.view? phase = some v ∧ v.2.failure = some f
  told : ∃ news, r.notices = b.notices ++ news ∧
    ∀ n, (phase, n) ∈ news → n.failure = some f ∨ b.Issued phase n
  issued : ∀ n, r.Issued phase n → n.failure = some f ∨ b.Issued phase n

theorem Voices.beat (h : Voices b phase f r) (k : Beat r l r') : Voices b phase f r' := by
  obtain ⟨v, hv, hf⟩ := h.failure
  obtain ⟨v', hv', heeds⟩ := k.heeds hv
  have kept : v'.2.failure = some f := by
    rw [heeds.failure, hf]
    rfl
  have stands : r'.failure? phase = some f := by
    rw [failure?, hv']
    exact kept
  have uttered : ∀ n, (r.Issued phase n ∨ ∀ g, r'.failure? phase = some g → n.failure = some g) →
      n.failure = some f ∨ b.Issued phase n :=
    fun n hn => hn.elim (h.issued n) fun now => .inl (now f stands)
  obtain ⟨news, hn, before⟩ := h.told
  obtain ⟨more, hm, after⟩ := k.utters.told
  refine ⟨⟨v', hv', kept⟩, ⟨news ++ more, by rw [hm, hn, List.append_assoc], fun n hin => ?_⟩,
    fun n hi => (k.utters.issued phase n hi).elim (h.issued n) (uttered n)⟩
  exact (List.mem_append.mp hin).elim (before n) fun new => uttered n (after phase n new)

theorem Voices.beats (h : Voices b phase f r) (k : Beats r l r') : Voices b phase f r' := by
  induction k with
  | refl => exact h
  | tail _ hb ih => exact ih.beat hb

theorem voices_blamed {v : Phase × Notice} (h : r.view? phase = some v) (f : Failure) :
    Voices r phase (v.2.failure.getD f) (r.blamed phase f) where
  failure := by
    refine ⟨_, by rw [view?_blamed, if_pos rfl, h]; rfl, ?_⟩
    change v.2.failure.or (some f) = _
    cases v.2.failure <;> rfl
  told := ⟨[], by rw [List.append_nil]; rfl, by simp⟩
  issued := fun _ => .inr

end Voices

section Failing

theorem terminating_failPhase (here : Option Nat) (f : Failure) {v : Phase × Notice}
    (h : r.view? phase = some v) : ∃ v', (r.failPhase here phase f).view? phase = some v' ∧
      v'.2.status.isTerminating = true := by
  have noted : (r.blamed phase f).view? phase = some (v.1, { v.2 with
      failure := v.2.failure.or (some f) }) := by rw [view?_blamed, if_pos rfl, h]; rfl
  obtain ⟨i, hi, hv⟩ := Option.map_eq_some_iff.mp noted
  rw [failPhase_eq, hi]
  dsimp only
  cases hs : i.standing.terminate r.now with
  | none => exact ⟨_, noted, by rw [← hv]; exact Standing.isTerminating_of_none hs⟩
  | some s =>
    refine ⟨(v.1, s.notice), (view?_move ..).trans ?_, Standing.isTerminating_of_terminate hs⟩
    rw [if_pos rfl, noted]
    rfl

theorem view?_of_failed (o : r.Owned) {e : Happening} (he : r.after? e = some r')
    (hf : .failed phase f ∈ r.incidents e) : ∃ v, r.view? phase = some v := by
  have comes : .failed phase f ∈ incidentsIn (r.occurrences e) →
      ∃ run q, .comes ⟨run, .fails f, q⟩ ∈ r.occurrences e ∧ phase = run.phase := by
    intro hm
    rcases mem_incidentsIn hm with ⟨_, _, _, no⟩ | ⟨run, _, q, ho, same⟩
    · cases no
    · cases same
      exact ⟨run, q, ho, rfl⟩
  cases e with
  | deed here d =>
    cases d with
    | fail name g =>
      obtain ⟨i, hi, _⟩ := bind_eq_ok.mp (toOption_eq_some.mp he)
      cases List.mem_singleton.mp hf
      exact ⟨i.view, by rw [view?, instance?_eq_ok.mp hi]; rfl⟩
    | begin => simp [incidents] at hf
    | complete id =>
      obtain ⟨_, _, ho, _⟩ := comes hf
      simp [occurrences] at ho
    | _ =>
      obtain ⟨_, _, ho, _⟩ := comes hf
      simp [occurrences] at ho
  | turn loop =>
    obtain ⟨run, q, ho, rfl⟩ := comes hf
    obtain ⟨id, loops, _, resumed⟩ := resumes_of_comes ho
    obtain ⟨_, hm, _, _, same⟩ := resumed.mem _ ho
    cases same
    obtain ⟨s, _, _, hk⟩ := o.bound run hm
    obtain ⟨i, hi, _⟩ := Option.bind_eq_some_iff.mp hk
    exact ⟨i.view, by rw [view?, hi]; rfl⟩
  | exceedLimit => simp [incidents] at hf
  | _ =>
    obtain ⟨_, _, ho, _⟩ := comes hf
    cases ho

theorem Episode.failed (h : Episode r l r') (hf : .failed phase f ∈ l) : ∃ here q,
    l = [.failed phase f] ∧ Hush r q ∧ Beats (q.failPhase here phase f) [] r' := by
  cases h with
  | calm hn _ => exact absurd hf (hn phase f)
  | fails here name g hush rest =>
    cases List.mem_singleton.mp hf
    exact ⟨here, _, rfl, hush, rest⟩

end Failing

/-- A phase that has failed, some time later. -/
structure FailedWith (r : Runner) (phase : String) (first : Failure) (r' : Runner) : Prop where
  /-- Its failure is the first one, and it is about to end or has ended. -/
  ends : ∃ i, r'.instances.get? phase = some i ∧ i.standing.failure = some first ∧
    i.standing.status.isTerminating = true
  /-- Every notice carries the failure, unless the phase had ended and issued that notice before. -/
  told : ∃ news, r'.notices = r.notices ++ news ∧ ∀ n, (phase, n) ∈ news →
    n.failure = some first ∨ (r.status? phase = some .terminated ∧ r.Issued phase n)
  /-- Without a run left the phase has ended. -/
  unwound : r'.runsOf phase = 0 → r'.status? phase = some .terminated
  /-- Each session of its group is back in the pool then, or works for another phase. -/
  back : r'.runsOf phase = 0 → ∀ key, r'.keyOf phase = some key → ∃ g,
    r'.groups.get? key = some g ∧ ∀ id s, r'.sessions[id]? = some s → s.group = key →
      id ∈ g.pool.free ∨ (r'.AtWork id ∧ s.phase ≠ some phase)

theorem failure_first {es : List Happening} (h₀ : r₀.Initial) (h : Course r₀ es r)
    {v : Phase × Notice} (hv : r.view? phase = some v) :
    v.2.failure = (failuresOf phase (r₀.trail incidents es)).head? := by
  have fresh := fresh_of_initial h₀
  obtain ⟨i, hi, rfl⟩ := Option.map_eq_some_iff.mp hv
  have there : phase ∈ r₀.instances.keys := by
    rw [← (h.names fresh.owned).2]
    exact Dict.mem_keys_of_get? hi
  obtain ⟨i₀, hi₀⟩ := Option.isSome_iff_exists.mp (Dict.get?_isSome_of_mem_keys there)
  have start : r₀.view? phase = some i₀.view := by rw [view?, hi₀]; rfl
  obtain ⟨v, hv', heeds⟩ := (Course.refl.beats h₀ h).heeds start
  cases hv.symm.trans hv'
  rw [heeds.failure, Instance.view, fresh.instances phase i₀ hi₀]
  exact Option.none_or

section Ends

theorem Hush.issued (h : Hush r r') (n : Notice) : r'.Issued phase n ↔ r.Issued phase n := by
  rw [Issued, Issued, h.causes]

theorem Issued.ended {n : Notice} (h : r.Issued phase n) (o : r.Fenced) :
    r.status? phase = some .terminated := by
  obtain ⟨k, hk, rfl, _⟩ := h
  obtain ⟨k₀, hm, same⟩ := List.mem_map.mp hk
  obtain ⟨place, hk₀⟩ := List.mem_iff_getElem?.mp hm
  rw [← (Prod.mk.inj same).1]
  exact (o.raised place k₀ hk₀).2.1

theorem Owned.ended {i : Instance} (o : r.Owned) (hi : r.instances.get? phase = some i)
    (ht : i.standing.status.isTerminating = true) (idle : r.runsOf phase = 0) :
    r.status? phase = some .terminated := by
  have active := (o.counted phase i hi).trans idle
  rw [status?, hi]
  cases hs : i.standing.status with
  | terminated => exact congrArg some hs
  | terminating =>
    have := (o.lawful phase i hi).busy hs
    omega
  | _ =>
    rw [hs] at ht
    cases ht

theorem Owned.back (o : r.Owned) (idle : r.runsOf phase = 0) {key : String}
    (hk : r.keyOf phase = some key) : ∃ g, r.groups.get? key = some g ∧
      ∀ id s, r.sessions[id]? = some s → s.group = key →
        id ∈ g.pool.free ∨ (r.AtWork id ∧ s.phase ≠ some phase) := by
  obtain ⟨g, hg⟩ := Option.isSome_iff_exists.mp (o.grouped phase key hk)
  refine ⟨g, hg, fun id s hs hgroup => ?_⟩
  have whole := (o.shared key g hg).1.symm.subset (mem_members.mpr ⟨s, hs, hgroup⟩)
  refine (List.mem_append.mp whole).imp_right fun crew => ?_
  obtain ⟨run, hm, rfl⟩ := List.mem_map.mp crew
  have hm := (List.mem_filter.mp hm).1
  obtain ⟨s', hs', hp, _⟩ := o.bound run hm
  cases hs.symm.trans hs'
  refine ⟨⟨run, hm, rfl⟩, fun same => ?_⟩
  have other := List.countP_eq_zero.mp idle run hm
  simp only [decide_eq_true_eq] at other
  exact other (Option.some.inj (hp.symm.trans same))

end Ends

/-- Whenever a phase fails, be it for the first time or not, the first failure that it ever had is the
one that it keeps and reports. -/
theorem first_failure_reported {es es' : List Happening} {e : Happening} (h₀ : r₀.Initial)
    (h : Course r₀ es r) (ha : r.Allowed e) (he : r.after? e = some r₁)
    (hf : .failed phase f ∈ r.incidents e) (k : Course r₁ es' r') :
    ∃ first, (failuresOf phase (r₀.trail incidents (es ++ [e]))).head? = some first ∧
      FailedWith r phase first r' := by
  have o := h.owned h₀
  have onward : Course r₀ (es ++ [e]) r₁ := h.next ha he
  have o' := (onward.trans k).owned h₀
  obtain ⟨v, hv⟩ := view?_of_failed o he hf
  obtain ⟨here, q, single, hush, rest⟩ := (episode_after o ha he).failed hf
  have hq : q.view? phase = some v := (hush.views phase).trans hv
  have since := rest.trans (onward.beats h₀ k)
  have voices := (voices_blamed hq f).beats ((beats_terminate here phase f q).trans since)
  obtain ⟨w, hw, terminating⟩ := terminating_failPhase here f hq
  obtain ⟨w', hw', heeds⟩ := since.heeds hw
  obtain ⟨i, hi, rfl⟩ := Option.map_eq_some_iff.mp hw'
  have ending : i.standing.status.isTerminating = true := by
    simp only [Status.isTerminating, decide_eq_true_eq] at terminating ⊢
    exact Nat.le_trans terminating heeds.rank
  refine ⟨v.2.failure.getD f, ?_, ?_, ?_, o'.ended hi ending, fun idle key => o'.back idle⟩
  · rw [h.trail_next incidents he, single, failuresOf, List.filterMap_append, List.head?_append]
    change ((failuresOf phase _).head?.or _) = _
    rw [← failure_first h₀ h hv]
    cases v.2.failure <;> simp
  · obtain ⟨w, hw, failure⟩ := voices.failure
    cases hw.symm.trans hw'
    exact ⟨i, hi, failure, ending⟩
  · obtain ⟨news, hn, all⟩ := voices.told
    refine ⟨news, hn.trans (congrArg (· ++ news) hush.notices), fun n hm => ?_⟩
    refine (all n hm).imp_right fun before => ?_
    have issued := (hush.issued n).mp before
    exact ⟨issued.ended (h.fenced h₀), issued⟩

/-- The session of a phase fails, and then the phase is failed by hand. The second failure is told
nowhere. -/
theorem gate_first_failure_told : ∃ r es r₁ es' r', Course gateRunner es r ∧
    r.after? (.turn 0) = some r₁ ∧ .failed "login" (.step "refused") ∈ r.incidents (.turn 0) ∧
    Course r₁ es' r' ∧ .deed none (.fail "login" .timeout) ∈ es' ∧ r'.runsOf "login" = 0 ∧
    r'.notices = [("login", ⟨.running, false, none⟩),
      ("login", ⟨.terminating, false, some (.step "refused")⟩),
      ("login", ⟨.terminated, false, some (.step "refused")⟩)] ∧
    FailedWith r "login" (.step "refused") r' := by
  have h := Course.one (r := gateRunner) (e := .deed none (.begin "login")) trivial rfl
  have h := h.next (e := .deed none (.enroll "login")) trivial rfl
  have h := h.next (e := .turn 0) (fun _ _ h => by cases h) rfl
  have h := h.next (e := .turn 0) (fun _ _ h => by cases h) rfl
  have h := h.next (e := .openGate 0 (some (.step "refused"))) trivial rfl
  have failing := h.next (e := .turn 0) (fun _ _ h => by cases h) rfl
  have starts : ∀ {es r}, Course gateRunner es r → Course r [] r := fun _ => .refl
  have k := (starts failing).next (e := .deed none (.fail "login" .timeout)) trivial rfl
  have k := k.next (e := .turn 0) (fun _ _ h => by cases h) rfl
  have k := k.next (e := .turn 1) (fun _ _ h => by cases h) rfl
  have k := k.next (e := .turn 1) (fun _ _ h => by cases h) rfl
  have k := k.next (e := .turn 0) (fun _ _ h => by cases h) rfl
  obtain ⟨first, hfirst, failed⟩ : ∃ first, _ ∧ FailedWith _ "login" first _ :=
    first_failure_reported (f := .step "refused") gateRunner_initial h (e := .turn 0)
      (fun _ _ h => by cases h) rfl (List.mem_singleton.mpr rfl) k
  obtain rfl : Failure.step "refused" = first := Option.some.inj hfirst
  exact ⟨_, _, _, _, _, h, rfl, List.mem_singleton.mpr rfl, k, by simp, rfl, rfl, failed⟩

end Runner
end LoadGen
