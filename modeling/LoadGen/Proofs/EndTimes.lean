import LoadGen.Proofs.SurveyOrders

namespace LoadGen.Runner

def endOf (r : Runner) (phase : String) : Option Nat :=
  (r.instances.get? phase).bind (·.standing.terminatedAt)

/-- Every fence is as old as the end of its phase. -/
def Stamped (r : Runner) : Prop :=
  ∀ c ∈ r.fences.map Fence.cause, r.endOf c.1 = some c.2.2.2

/-- An end stays what it was, if there was one, and otherwise it may be now. -/
def Ending (now : Nat) (before after : Option Nat) : Prop :=
  after = before ∨ (before = none ∧ after = some now)

/-- Some phases may have ended, and no time has passed. -/
structure Closing (r r' : Runner) : Prop where
  now : r'.now = r.now
  ends : ∀ phase, Ending r.now (r.endOf phase) (r'.endOf phase)

variable {r r₁ r₂ r' : Runner}

section EndOf

theorem endOf_eq {phase : String} {i : Instance} (hi : r.instances.get? phase = some i) :
    r.endOf phase = i.standing.terminatedAt := by
  rw [endOf, hi]
  rfl

theorem SameHolders.endOf (h : SameHolders r r') (phase : String) :
    r'.endOf phase = r.endOf phase := by
  have core := h.instances phase
  cases hi : r.instances.get? phase with
  | none =>
    rw [hi] at core
    simp [Runner.endOf, hi, Option.map_eq_none_iff.mp core]
  | some i =>
    obtain ⟨j, hj, he⟩ := h.instance_to hi
    rw [endOf_eq hi, endOf_eq hj, Instance.core_terminatedAt he]

theorem SameRecord.endOf (h : SameRecord r r') (phase : String) :
    r'.endOf phase = r.endOf phase := by
  have view : ∀ q : Runner, q.endOf phase =
      ((q.instances.get? phase).map Instance.state).bind (·.2.2) := by
    intro q
    rw [Runner.endOf, Option.bind_map]
    rfl
  rw [view, view, h.states]

theorem endOf_stand {phase : String} {i : Instance} (hi : r.instances.get? phase = some i)
    (s : Standing) (other : String) :
    (r.modifyInstance phase fun i => { i with standing := s }).endOf other =
      if other = phase then s.terminatedAt else r.endOf other := by
  simp only [endOf, Runner.modifyInstance, Dict.get?_modify]
  split
  · rename_i he
    rw [he, hi]
    rfl
  · rfl

theorem endOf_isSome (o : r.Owned) {phase : String} :
    (r.endOf phase).isSome ↔ r.status? phase = some .terminated := by
  cases hi : r.instances.get? phase with
  | none => simp [endOf, status?, hi]
  | some i => simp [endOf_eq hi, status?, hi, (o.lawful phase i hi).terminated]

theorem unended {s : Standing} (h : s.Lawful) (hn : s.status ≠ .terminated) :
    s.terminatedAt = none := Option.not_isSome_iff_eq_none.mp fun hs => hn (h.terminated.mp hs)

theorem unended_of_rank {s t : Standing} (h : s.Lawful) (hr : s.status.rank < t.status.rank) :
    s.terminatedAt = none := by
  refine unended h fun he => ?_
  rw [he] at hr
  generalize t.status = status at hr
  cases status <;> simp [Status.rank] at hr

end EndOf

section Fences

theorem Stamped.congr (h : r.Stamped) (hc : r'.fences.map Fence.cause = r.fences.map Fence.cause)
    (he : ∀ phase, r'.endOf phase = r.endOf phase) : r'.Stamped := by
  intro c hm
  rw [hc] at hm
  rw [he]
  exact h c hm

theorem Stamped.move (h : r.Stamped) (o : r.Fenced) (hr : r.loops.Running) (here : Option Nat)
    {phase : String} {i : Instance} {s : Standing} (hi : r.instances.get? phase = some i)
    (hrank : i.standing.status.rank < s.status.rank)
    (hg : ∀ key, r.keyOf phase = some key → (r.groups.get? key).isSome)
    (ht : s.status = .terminated → s.terminatedAt = some r.now) :
    (r.move here phase s).Stamped := by
  have ends : ∀ other, (r.move here phase s).endOf other =
      if other = phase then s.terminatedAt else r.endOf other := fun other => by
    rw [(holders_move here phase s r).endOf, endOf_stand hi]
  have old : ∀ c ∈ r.fences.map Fence.cause,
      (r.move here phase s).endOf c.1 = some c.2.2.2 := by
    intro c hc
    obtain ⟨f, hf, rfl⟩ := List.mem_map.mp hc
    have hne : f.phase ≠ phase := fun he =>
      o.unfenced_of_rank hi hrank (he ▸ List.mem_map_of_mem hf)
    rw [ends, if_neg (show f.cause.1 ≠ phase from hne)]
    exact h f.cause hc
  obtain ⟨r₁, same, hm⟩ := move_cases here (s := s) hi hg
  have fences : r₁.fences = r.fences := same.fences
  intro c hc
  rcases hm with ⟨_, he⟩ | ⟨key, hs, _, he⟩
  · rw [he, deliver_eq, fences] at hc
    exact old c hc
  · obtain ⟨q, raised, hq⟩ := raiseFence_eq here
      { phase := phase, group := key, notice := s.notice, time := r.now : Fence } (same.running hr) rfl
    have grown : (r.move here phase s).fences = q.fences := by rw [he, hq]; rfl
    rw [grown, raised.fences, fences, List.map_append] at hc
    rcases List.mem_append.mp hc with hc | hc
    · exact old c hc
    · rw [List.mem_singleton.mp hc]
      exact (ends phase).trans ((if_pos rfl).trans (ht hs))

theorem Stamped.stage (h : r.Stamped) (o : r.Fenced) (hr : r.loops.Running) (hs : Stage r r') :
    r'.Stamped := by
  cases hs with
  | same hs => exact h.congr (by rw [hs.fences]) hs.endOf
  | ensure => exact h
  | record => exact h
  | @enter phase key _ =>
    obtain ⟨loops, he⟩ := enterGroup_eq r key phase
    rw [he]
    exact h
  | move here hi hrank hg ht => exact h.move o hr here hi hrank hg ht

theorem causes_perform (loop : Nat) (r : Runner) {t : Task} (ht : t.isOrder = true) :
    (r.perform loop t).fences.map Fence.cause = r.fences.map Fence.cause := by
  cases t with
  | stamp => rfl
  | «seal» fence =>
    cases hf : r.fences[fence]? with
    | none => simp only [perform, Telling.perform, Runner.sealed, hf]
    | some f =>
      have lowered := (lower_story r loop fence f).causes
      rw [perform, Telling.perform, sealed_eq hf]
      split
      · exact lowered
      · exact lowered
  | announce fence =>
    simp only [perform, Telling.perform, announce]
    split
    · rfl
    · split
      · rw [deliver_eq]
      · exact (park_story r fence).causes
  | read survey slot key =>
    obtain ⟨groups, surveys, he, _⟩ := read_eq loop survey slot key r
    rw [perform, Telling.perform, he]
  | prune => rfl
  | resume => cases ht
  | pace => cases ht
  | expire => cases ht

theorem Stamped.passage (h : r.Stamped) (o : r.Fenced) (hr : r.loops.Running)
    (hs : 0 < r.loops.size) {e : Happening} (hp : Passage r e r') : r'.Stamped := by
  cases hp with
  | survey recent =>
    obtain ⟨loops, he⟩ := beginSurvey_eq r recent
    rw [he]
    exact h
  | pruning =>
    obtain ⟨loops, he⟩ := beginPruning_eq r
    rw [he]
    exact h
  | @order loop t loops _ ht =>
    exact h.congr (causes_perform loop _ ht) (holders_perform loop { r with loops := loops } ht).endOf
  | stages _ hst =>
    exact (hst.keep (I := fun q => q.Fenced ∧ q.Stamped) hr hs ⟨o, h⟩
      fun hr hs hi hst => ⟨hi.1.stage hr hs hst, hi.2.stage hi.1 hr hst⟩).1.2

theorem Course.stamped {r₀ : Runner} {es : List Happening} (h₀ : r₀.Initial) (h : Course r₀ es r) :
    r.Stamped := by
  induction h with
  | refl => simp [Stamped, (fresh_of_initial h₀).fences]
  | next hc ha he ih =>
    have o := hc.owned h₀
    exact ih.passage (hc.fenced h₀) o.running o.size ((change_of_after ha he).passage o)

/-- The buckets of a phase are stopped with the time at which it terminated. -/
theorem Stamped.endedOn (h : r.Stamped) {loop : Nat} {phase : String} {time : Nat}
    (he : r.EndedOn loop phase time) : r.endOf phase = some time := by
  obtain ⟨fence, f, hf, rfl, rfl, _⟩ := he
  exact h f.cause (List.mem_map_of_mem (List.mem_of_getElem? hf))

end Fences

section Closing

theorem Ending.refl (now : Nat) (time : Option Nat) : Ending now time time := .inl rfl

theorem Ending.trans {now : Nat} {a b c : Option Nat} (h : Ending now a b) (k : Ending now b c) :
    Ending now a c := by
  rcases k with rfl | ⟨rfl, rfl⟩
  · exact h
  · rcases h with he | ⟨_, he⟩
    · exact .inr ⟨he.symm, rfl⟩
    · cases he

namespace Closing

theorem refl (r : Runner) : Closing r r := ⟨rfl, fun _ => .refl ..⟩

theorem trans (h : Closing r r₁) (k : Closing r₁ r₂) : Closing r r₂ where
  now := k.now.trans h.now
  ends := by
    intro phase
    have later := k.ends phase
    rw [h.now] at later
    exact (h.ends phase).trans later

theorem beside {may : Nat → Prop} (h : Beside may r r') : Closing r r' :=
  ⟨h.now, fun phase => .inl (h.holders.endOf phase)⟩

theorem stand {phase : String} {i : Instance} (hi : r.instances.get? phase = some i) {s : Standing}
    (hs : Ending r.now i.standing.terminatedAt s.terminatedAt) :
    Closing r (r.modifyInstance phase fun i => { i with standing := s }) := by
  refine ⟨rfl, fun other => ?_⟩
  rw [endOf_stand hi]
  split
  · rename_i he
    rw [he, endOf_eq hi]
    exact hs
  · exact .refl ..

theorem move {here : Option Nat} {phase : String} {i : Instance} {s : Standing}
    (hi : r.instances.get? phase = some i) (hs : Ending r.now i.standing.terminatedAt s.terminatedAt) :
    Closing r (r.move here phase s) :=
  (stand hi hs).trans (beside (beside_move here phase s r))

end Closing

theorem ending_of_onward {now : Nat} {s t : Standing} (h : s.Onward now t) (hs : s.Lawful) :
    Ending now s.terminatedAt t.terminatedAt := by
  have before := unended_of_rank hs h.rank
  by_cases ht : t.status = .terminated
  · exact .inr ⟨before, h.terminatedAt ht⟩
  · exact .inl (by rw [before, unended (h.lawful hs) ht])

theorem ending_of_leave {s : Standing} (h : s.Lawful) (now : Nat) :
    Ending now s.terminatedAt (s.leave now).terminatedAt := by
  by_cases he : (s.leave now).status = s.status
  · exact .inl (Standing.leave_terminatedAt_of_eq he)
  · exact .inr ⟨unended_of_rank h (Standing.leave_rank he), Standing.leave_terminatedAt he⟩

theorem closing_employ {phase key : String} {session : Nat} (h : Lent r r₁ key session)
    (o : r.Owned) : Closing r (r₁.employ session phase) := by
  refine ⟨by rw [employ_eq h o]; exact h.now, fun other => .inl ?_⟩
  rw [(holders_employ h o).endOf, endOf, hire_get? h, endOf]
  split
  · rw [Option.bind_map]
    rfl
  · rfl

theorem closing_unwind (o : r.Owned) (here : Option Nat) {run : Run} (hm : run ∈ r.runs) :
    Closing r (r.unwind here run) := by
  obtain ⟨i, key, hi, _, same⟩ := o.beside_unwind here hm
  have stopped := (@aside_stopSession nobody r run.session).beside
  have lawful := (o.same stopped.holders).lawful _ i hi
  refine ((Closing.beside stopped).trans ?_).trans (.beside same)
  have clock := stopped.now
  generalize r.stopSession run.session = q at hi clock
  rw [← clock]
  have left := Closing.stand hi (ending_of_leave lawful q.now)
  exact ⟨rfl, left.ends⟩

theorem Effect.closing (o : r.Owned) {here : Option Nat} {d : Deed} (h : Effect r here d r') :
    Closing r r' := by
  cases h with
  | aside h => exact .beside h.beside
  | @move r₁ phase i s h hi hs =>
    refine (Closing.beside h.beside).trans (.move hi (ending_of_onward hs ?_))
    exact (o.same h.holders).lawful phase i hi
  | enroll _ _ _ _ h => exact closing_employ (lent_of_acquire o h) o
  | complete h => exact closing_unwind o here (List.mem_of_find?_eq_some h)

theorem Shift.closing {m : Remit} (o : r.Owned) (hm : ¬ m.clock) (h : Shift m r r') :
    Closing r r' := by
  cases h with
  | aside h => exact .beside h.beside
  | ensure => exact .beside (@Beside.modifyBoard nobody ..)
  | record => exact .beside (@Beside.modifyBoard nobody ..)
  | clock _ hc => exact absurd hc hm
  | deed here d _ hd h => exact (effect_of_deed hd h).closing o

theorem Shifts.closing {m : Remit} (o : r.Owned) (hm : ¬ m.clock) (h : Shifts m r r') :
    Closing r r' := by
  induction h with
  | refl => exact .refl r
  | tail hs h ih => exact ih.trans (h.closing (o.shifts hs) hm)

theorem remit_clock {e : Happening} (h : (r.remit e).clock) : ∃ now, e = .clock now := by
  cases e with
  | clock now => exact ⟨now, rfl⟩
  | turn loop =>
    rcases r.remit_turn loop with nothing | ⟨t, _, _, may⟩
    · rw [nothing] at h
      cases h
    · rw [may] at h
      cases t <;> cases h
  | command id c => cases c <;> cases h
  | _ => cases h

theorem closing_begin (o : r.Owned) {phase : String} (h : r.begin phase = .ok r') :
    Closing r r' := by
  obtain ⟨i, s, r₁, hi, hs, hr, rfl⟩ := begin_cases h
  obtain ⟨hl, _, hn, hrun, _⟩ := Standing.start_lawful (o.lawful phase i hi) hs
  have ending : ∀ now, Ending now i.standing.terminatedAt s.terminatedAt := fun now => by
    left
    rw [unended hl (by simp [hrun]), unended (o.lawful phase i hi) (by simp [hn])]
  rcases hr with ⟨key, _, rfl⟩ | rfl
  · obtain ⟨loops, he⟩ := enterGroup_eq r key phase
    rw [he]
    have entered : Closing r { r.modifyGroup key fun g => { g with current := some phase } with
        loops := loops } := ⟨rfl, fun _ => .refl ..⟩
    exact entered.trans (.move hi (ending _))
  · exact .move hi (ending _)

theorem Change.closing (o : r.Owned) {e : Happening} (he : ∀ now, e ≠ .clock now)
    (h : Change r e r') : Closing r r' := by
  cases h with
  | begin h => exact closing_begin o h
  | survey recent => exact .beside (beside_beginSurvey r recent)
  | pruning => exact .beside (beside_beginPruning r)
  | @order loop t loops hn ht =>
    have took := LoopGroup.took_of_next? hn
    have taken : Beside nobody r { r with loops := loops } :=
      ⟨.onLoops r took.size took.running, .take hn, rfl⟩
    exact .beside (taken.trans (beside_perform loop _ ht))
  | work _ _ h =>
    refine Shifts.closing o (fun hc => ?_) h
    obtain ⟨now, hc⟩ := remit_clock hc
    exact he now hc

theorem ending_of_after (o : r.Owned) {e : Happening} (ha : r.Allowed e) (h : r.after? e = some r')
    (phase : String) : Ending r.now (r.endOf phase) (r'.endOf phase) := by
  by_cases he : ∃ now, e = .clock now
  · obtain ⟨now, rfl⟩ := he
    cases h
    exact .refl ..
  · exact ((change_of_after ha h).closing o fun now hc => he ⟨now, hc⟩).ends phase

end Closing

end LoadGen.Runner
