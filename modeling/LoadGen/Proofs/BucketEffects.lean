import LoadGen.Proofs.Boards
import LoadGen.Proofs.Fencing

namespace LoadGen.Runner

/-- The loop has carried out the end of the phase, which was at that time. -/
def EndedOn (r : Runner) (loop : Nat) (phase : String) (time : Nat) : Prop :=
  ∃ (fence : Nat) (f : Fence), r.fences[fence]? = some f ∧ f.phase = phase ∧ f.time = time ∧
    .seal fence ∉ r.orders loop

/-- No loop is told twice to end the same measurement. -/
def Alone (r : Runner) : Prop := ∀ loop fence, (r.orders loop).count (.seal fence) ≤ 1

/-- The buckets are the same, and so are the ends of phases that the loops have carried out. -/
structure SameEnds (r r' : Runner) : Prop where
  size : r'.loops.size = r.loops.size
  keys : ∀ phase, r'.keyOf phase = r.keyOf phase
  groups : r'.groups.keys = r.groups.keys
  causes : r'.fences.map Fence.cause = r.fences.map Fence.cause
  seals : ∀ loop fence,
    (r'.orders loop).count (.seal fence) = (r.orders loop).count (.seal fence)
  boards : ∀ key loop, r'.board? key loop = r.board? key loop

/-- A phase has ended, and at most one loop has carried that out by now. -/
structure Ends (r r' : Runner) (spot : Option Nat) (f : Fence) : Prop where
  size : r'.loops.size = r.loops.size
  keys : ∀ phase, r'.keyOf phase = r.keyOf phase
  groups : r'.groups.keys = r.groups.keys
  group : r.keyOf f.phase = some f.group
  alone : r.Alone → r'.Alone
  boards : ∀ key loop, loop < r.loops.size → r'.board? key loop =
    if key = f.group ∧ spot = some loop then
      (r.board? key loop).map (·.applyToPhase f.phase (·.finish f.time))
    else r.board? key loop
  absent : ∀ key loop, r.board? key loop = none → r'.board? key loop = none
  fresh : ∀ loop < r.loops.size, spot = some loop → ∀ time, ¬ r.EndedOn loop f.phase time
  endedOn : ∀ loop < r.loops.size, ∀ phase time, r'.EndedOn loop phase time ↔
    r.EndedOn loop phase time ∨ (spot = some loop ∧ phase = f.phase ∧ time = f.time)

/-- A change of the buckets of one loop, or of the ends of phases. -/
inductive Wave (r : Runner) : Runner → Prop
  | same {r' : Runner} : SameEnds r r' → Wave r r'
  | grow {key : String} {loop : Nat} {f : Board → Board} :
      (∀ b, r.board? key loop = some b → b.Mapped (f b) fun _ => Bucket.Grown) →
        Wave r (r.modifyBoard key loop f)
  /-- A bucket is made for a phase that has not ended. -/
  | ensure {phase key : String} (loop : Nat) (metric : String) :
      r.keyOf phase = some key → phase ∉ r.fences.map (·.phase) →
        Wave r (r.modifyBoard key loop (·.ensure phase metric r.now))
  | ends {r' : Runner} {spot : Option Nat} {f : Fence} : Ends r r' spot f → Wave r r'

/-- Any number of changes, one after the other. -/
abbrev Waves : Runner → Runner → Prop := Relation.ReflTransGen Wave

theorem endedOn_iff {r : Runner} {loop : Nat} {phase : String} {time : Nat} :
    r.EndedOn loop phase time ↔ ∃ (fence : Nat) (c : String × String × Notice × Nat),
      (r.fences.map Fence.cause)[fence]? = some c ∧ c.1 = phase ∧ c.2.2.2 = time ∧
        .seal fence ∉ r.orders loop := by
  constructor
  · intro h
    obtain ⟨fence, f, hf, hp, ht, hn⟩ := h
    exact ⟨fence, f.cause, by simp [hf], hp, ht, hn⟩
  · intro h
    obtain ⟨fence, c, hc, hp, ht, hn⟩ := h
    rw [List.getElem?_map] at hc
    obtain ⟨f, hf, rfl⟩ := Option.map_eq_some_iff.mp hc
    exact ⟨fence, f, hf, hp, ht, hn⟩

theorem not_endedOn {r : Runner} {phase : String} (h : phase ∉ r.fences.map (·.phase)) (loop : Nat)
    (time : Nat) : ¬ r.EndedOn loop phase time := by
  intro he
  obtain ⟨fence, f, hf, hp, _⟩ := he
  exact h (List.mem_map.mpr ⟨f, List.mem_of_getElem? hf, hp⟩)

namespace SameEnds

theorem refl (r : Runner) : SameEnds r r :=
  ⟨rfl, fun _ => rfl, rfl, rfl, fun _ _ => rfl, fun _ _ => rfl⟩

theorem trans {r₁ r₂ r₃ : Runner} (h : SameEnds r₁ r₂) (k : SameEnds r₂ r₃) : SameEnds r₁ r₃ where
  size := k.size.trans h.size
  keys := fun phase => (k.keys phase).trans (h.keys phase)
  groups := k.groups.trans h.groups
  causes := k.causes.trans h.causes
  seals := fun loop fence => (k.seals loop fence).trans (h.seals loop fence)
  boards := fun key loop => (k.boards key loop).trans (h.boards key loop)

theorem foldl {α : Type} {f : Runner → α → Runner} (h : ∀ r a, SameEnds r (f r a)) (r : Runner)
    (l : List α) : SameEnds r (l.foldl f r) := by
  induction l generalizing r with
  | nil => exact refl r
  | cons a l ih => exact (h r a).trans (ih (f r a))

theorem elsewhere {r r' : Runner} (hl : r'.loops = r.loops) (hi : r'.instances = r.instances)
    (hg : r'.groups = r.groups) (hf : r'.fences.map Fence.cause = r.fences.map Fence.cause) :
    SameEnds r r' where
  size := by rw [hl]
  keys := fun _ => by rw [keyOf, keyOf, hi]
  groups := by rw [hg]
  causes := hf
  seals := fun _ _ => by rw [orders, orders, hl]
  boards := fun _ _ => by rw [board?, board?, hg]

variable {r r' : Runner}

theorem mem_seal (h : SameEnds r r') {loop fence : Nat} :
    .seal fence ∈ r'.orders loop ↔ .seal fence ∈ r.orders loop := by
  rw [← List.count_pos_iff, h.seals, List.count_pos_iff]

theorem endedOn (h : SameEnds r r') (loop : Nat) (phase : String) (time : Nat) :
    r'.EndedOn loop phase time ↔ r.EndedOn loop phase time := by
  simp only [endedOn_iff, h.causes, h.mem_seal]

theorem alone (h : SameEnds r r') (ha : r.Alone) : r'.Alone := fun loop fence => by
  rw [h.seals]
  exact ha loop fence

end SameEnds

theorem SameRecord.ends {r r' : Runner} (h : SameRecord r r') : SameEnds r r' where
  size := h.size
  keys := h.keyOf_eq
  groups := h.groups
  causes := by rw [h.fences]
  seals := fun loop _ => by rw [h.orders]
  boards := by
    intro key loop
    have view : ∀ q : Runner, q.board? key loop =
        ((q.groups.get? key).map Group.boards).bind (·[loop]?) := by
      intro q
      rw [board?, Option.bind_map]
      rfl
    rw [view, view, h.boards]

theorem ends_modifyGroup (r : Runner) (key : String) {f : Group → Group}
    (hf : ∀ g, (f g).boards = g.boards) : SameEnds r (r.modifyGroup key f) :=
  { SameEnds.refl r with
    groups := Dict.keys_modify ..
    boards := by
      intro key' loop
      simp only [board?, Runner.modifyGroup, Dict.get?_modify]
      split
      · cases r.groups.get? key' <;> simp [hf]
      · rfl }

theorem ends_push (r : Runner) (loop : Nat) {t : Task} (ht : ∀ fence, t ≠ .seal fence) :
    SameEnds r (r.push loop t) := by
  cases ho : t.isOrder with
  | false => exact (SameRecord.push r loop ho).ends
  | true =>
    refine ⟨LoopGroup.size_push .., fun _ => rfl, rfl, rfl, fun other fence => ?_, fun _ _ => rfl⟩
    rcases orders_push_or r loop ho other with he | he
    · rw [he]
    · rw [he, List.count_append, List.count_singleton, if_neg, Nat.add_zero]
      simpa using ht fence

theorem ends_deliver (r : Runner) (phase : String) (n : Notice) :
    SameEnds r (r.deliver phase n) := by
  rw [deliver_eq]
  exact .elsewhere rfl rfl rfl rfl

theorem ends_stand (r : Runner) (phase : String) (s : Standing) :
    SameEnds r (r.modifyInstance phase fun i => { i with standing := s }) :=
  { SameEnds.refl r with keys := keyOf_modifyInstance r phase fun _ => rfl }

theorem Taken.ends {r r' : Runner} {loop : Nat} {t : Task} (h : Taken r r' loop t)
    (ht : ∀ fence, t ≠ .seal fence) : SameEnds r r' := by
  have seals : ∀ other fence,
      (r'.orders other).count (.seal fence) = (r.orders other).count (.seal fence) := by
    intro other fence
    by_cases he : other = loop
    · subst he
      rw [h.first, List.count_cons_of_ne (ht fence)]
    · rw [h.others other he]
  obtain ⟨loops, rfl⟩ := h.rest
  exact ⟨h.size, fun _ => rfl, rfl, rfl, seals, fun _ _ => rfl⟩

section Seal
variable {r r₁ : Runner} {loop fence : Nat} {f : Fence} (o : r.Fenced) (ha : r.Alone)
  (h : Taken r r₁ loop (.seal fence))

include ha h in
theorem mem_seal_taken {other m : Nat} : .seal m ∈ r₁.orders other ↔
    .seal m ∈ r.orders other ∧ ¬ (other = loop ∧ m = fence) := by
  by_cases he : other = loop
  · subst he
    have hc := ha other fence
    rw [h.first, List.count_cons_self] at hc
    have hn : .seal fence ∉ r₁.orders other := List.count_eq_zero.mp (by omega)
    rw [h.first]
    by_cases hm : m = fence
    · subst hm
      simp [hn]
    · simp [hm]
  · simp [h.others other he, he]

include ha h in
theorem endedOn_lower (hf : r.fences[fence]? = some f) {other : Nat} {phase : String} {time : Nat} :
    (r₁.lower loop fence f).EndedOn other phase time ↔
      r.EndedOn other phase time ∨ (some loop = some other ∧ phase = f.phase ∧ time = f.time) := by
  have causes := (h.story.trans (lower_story r₁ loop fence f)).causes
  have mem : ∀ m, .seal m ∈ (r₁.lower loop fence f).orders other ↔
      .seal m ∈ r.orders other ∧ ¬ (other = loop ∧ m = fence) := fun m => mem_seal_taken ha h
  have own : (r.fences.map Fence.cause)[fence]? = some f.cause := by simp [hf]
  simp only [endedOn_iff, causes, mem]
  constructor
  · intro he
    obtain ⟨m, c, hc, hp, ht, hn⟩ := he
    by_cases hm : other = loop ∧ m = fence
    · obtain ⟨rfl, rfl⟩ := hm
      cases own.symm.trans hc
      exact .inr ⟨rfl, hp.symm, ht.symm⟩
    · exact .inl ⟨m, c, hc, hp, ht, fun hs => hn ⟨hs, hm⟩⟩
  · intro he
    rcases he with ⟨m, c, hc, hp, ht, hn⟩ | ⟨hl, hp, ht⟩
    · exact ⟨m, c, hc, hp, ht, fun hs => hn hs.1⟩
    · exact ⟨fence, f.cause, own, hp.symm, ht.symm, fun hs => hs.2 ⟨(Option.some.inj hl).symm, rfl⟩⟩

include o ha h in
theorem ends_lower (hf : r.fences[fence]? = some f) :
    Ends r (r₁.lower loop fence f) (some loop) f := by
  have boards : ∀ key other, (r₁.lower loop fence f).board? key other =
      if key = f.group ∧ other = loop then
        (r.board? key other).map (·.applyToPhase f.phase (·.finish f.time))
      else r.board? key other := by
    obtain ⟨loops, rfl⟩ := h.rest
    exact board?_modifyBoard _ f.group loop _
  exact {
    size := h.size
    keys := (h.story.trans (lower_story r₁ loop fence f)).keys
    groups := by
      obtain ⟨loops, rfl⟩ := h.rest
      exact Dict.keys_modify ..
    group := (o.raised fence f hf).1
    alone := by
      intro _ other m
      apply Nat.le_trans _ (ha other m)
      change (r₁.orders other).count _ ≤ _
      by_cases he : other = loop
      · subst he
        rw [h.first]
        exact List.count_le_count_cons
      · exact Nat.le_of_eq (congrArg _ (h.others other he))
    boards := by
      intro key other _
      simp [boards, eq_comm]
    absent := by
      intro key other hn
      simp [boards, hn]
    fresh := by
      intro other _ he time ended
      cases he
      obtain ⟨m, g, hg, hp, _, hn⟩ := ended
      obtain rfl := o.fence_unique hg hf hp
      apply hn
      rw [h.first]
      exact List.mem_cons_self
    endedOn := fun _ _ _ _ => endedOn_lower ha h hf }

include o ha h in
theorem waves_sealed : Waves r (r₁.sealed loop fence) := by
  obtain ⟨f, hf, _⟩ := seal_pending o h
  have lowered := Wave.ends (ends_lower o ha h hf)
  rw [sealed_eq (by rw [h.fences]; exact hf)]
  split
  · exact .tail (.single lowered) (.same (ends_push _ 0 nofun))
  · exact .single lowered

end Seal

section Raise
variable {r q : Runner} {here : Option Nat} {f : Fence} (o : r.Fenced)
  (raised : Raised r here f r.loops.size q)

include raised in
/-- A loop that has nothing to do with it is told nothing, and the others are told once. -/
theorem mem_seal_raised {loop : Nat} (hl : loop < r.loops.size) {m : Nat} :
    .seal m ∈ (q.push 0 (.announce r.fences.length)).orders loop ↔
      .seal m ∈ r.orders loop ∨ (m = r.fences.length ∧ here ≠ some loop) := by
  rw [(ends_push q 0 (by simp)).mem_seal, raised.orders, List.mem_append]
  by_cases hh : here = some loop <;> simp [hl, hh]

include o raised in
theorem endedOn_raised {loop : Nat} (hl : loop < r.loops.size) {phase : String} {time : Nat} :
    (q.push 0 (.announce r.fences.length)).EndedOn loop phase time ↔
      r.EndedOn loop phase time ∨ (here = some loop ∧ phase = f.phase ∧ time = f.time) := by
  have unknown : .seal r.fences.length ∉ r.orders loop := fun hm =>
    Nat.lt_irrefl _ (o.known loop _ (.inl hm))
  have fences : (q.push 0 (.announce r.fences.length)).fences =
      r.fences ++ [{ f with pending := others here r.loops.size }] := raised.fences
  simp only [EndedOn, fences, mem_seal_raised raised hl, not_or]
  constructor
  · intro he
    obtain ⟨m, g, hg, rfl, rfl, hn, hh⟩ := he
    rcases getElem?_concat_cases hg with hg | ⟨rfl, rfl⟩
    · exact .inl ⟨m, g, hg, rfl, rfl, hn⟩
    · exact .inr ⟨by simpa using hh, rfl, rfl⟩
  · intro he
    rcases he with ⟨m, g, hg, rfl, rfl, hn⟩ | ⟨hh, rfl, rfl⟩
    · have hm := (List.getElem?_eq_some_iff.mp hg).1
      refine ⟨m, g, ?_, rfl, rfl, hn, fun h => Nat.ne_of_lt hm h.1⟩
      rw [List.getElem?_append_left hm, hg]
    · exact ⟨r.fences.length, _, List.getElem?_concat_length, rfl, rfl, unknown, fun h => h.2 hh⟩

end Raise

theorem ends_raise {r : Runner} (o : r.Fenced) (hr : r.loops.Running) (here : Option Nat) {f : Fence}
    (hp : f.pending = 0) (hk : r.keyOf f.phase = some f.group)
    (hf : f.phase ∉ r.fences.map (·.phase)) : Ends r (raiseFence here f r) here f := by
  obtain ⟨q, raised, he⟩ := raiseFence_eq here f hr hp
  rw [he]
  have last := ends_push q 0 (t := .announce r.fences.length) (by simp)
  exact {
    size := last.size.trans raised.size
    keys := by
      obtain ⟨loops, groups, rfl⟩ := raised.rest
      exact fun _ => rfl
    groups := raised.groups
    group := hk
    alone := by
      intro ha loop m
      rw [last.seals, raised.orders, List.count_append]
      have hc := ha loop m
      by_cases hm : m = r.fences.length
      · have unknown : .seal m ∉ r.orders loop := fun hin => by
          have := o.known loop m (.inl hin)
          omega
        rw [List.count_eq_zero.mpr unknown]
        split <;> simp [hm]
      · split
        · simpa [Ne.symm hm] using hc
        · exact hc
    boards := by
      intro key loop hl
      rw [last.boards, raised.boards]
      simp [hl]
    absent := by
      intro key loop hn
      rw [last.boards, raised.boards, hn]
      simp
    fresh := fun loop _ _ => not_endedOn hf loop
    endedOn := fun loop hl _ _ => endedOn_raised o raised hl }

section Stages
variable {r r' : Runner}

theorem Stage.waves (o : r.Fenced) (hr : r.loops.Running) (h : Stage r r') : Waves r r' := by
  cases h with
  | same h => exact .single (.same h.ends)
  | ensure loop metric hk ht => exact .single (.ensure loop metric hk (o.unfenced ht))
  | record b stamp e =>
    exact .single (.grow fun c _ => c.mapped_update b.phase b.metric fun c => c.grown_record stamp e)
  | @enter phase key hk =>
    have entered : SameEnds r (r.modifyGroup key fun g => { g with current := some phase }) :=
      ends_modifyGroup r key fun _ => rfl
    have stamped : ∀ (q : Runner) (i : Nat), SameEnds q (q.push i (.stamp key phase r.now)) :=
      fun q i => ends_push q i (by simp)
    exact .single (.same (entered.trans (.foldl stamped _ _)))
  | @move here phase i s hi hrank hg _ =>
    obtain ⟨r₁, same, hm⟩ := move_cases here (s := s) hi hg
    have stood := (ends_stand r phase s).trans same.ends
    rcases hm with ⟨_, he⟩ | ⟨key, _, hk, he⟩
    · rw [he]
      exact .single (.same (stood.trans (ends_deliver ..)))
    · rw [he]
      have unfenced : phase ∉ r₁.fences.map (·.phase) := by
        rw [same.fences]
        exact o.unfenced_of_rank hi hrank
      have fenced := (o.stand hi hrank).same same.ledger
      have ended := ends_raise fenced (same.running hr) here
        (f := { phase := phase, group := key, notice := s.notice, time := r.now }) rfl
        ((stood.keys phase).trans hk) unfenced
      exact .tail (.single (.same stood)) (.ends ended)

theorem waves_order (o : r.Fenced) (ha : r.Alone) {loop : Nat} {t : Task} {loops : LoopGroup Task}
    (hn : r.loops.next? loop = some (t, loops)) (ht : t.isOrder = true)
    (hp : ∀ group phase, t ≠ .prune group phase) :
    Waves r ({ r with loops := loops }.perform loop t) := by
  have taken := taken_of_next? o.prompt hn ht
  have calm : (∀ fence, t ≠ .seal fence) → ∀ {q : Runner}, Wave { r with loops := loops } q →
      Waves r q := fun hc _ h => .tail (.single (.same (taken.ends hc))) h
  cases t with
  | stamp group phase time =>
    exact calm (by simp) (.grow fun b _ => b.mapped_startPhase phase time)
  | «seal» fence => exact waves_sealed o ha taken
  | announce fence =>
    refine calm (by simp) (.same ?_)
    simp only [perform, Telling.perform, announce]
    split
    · exact .refl _
    · split
      · exact ends_deliver ..
      · exact .elsewhere rfl rfl rfl (park_story _ fence).causes
  | read survey slot group =>
    simp only [perform, Telling.perform, read]
    split
    · rename_i s b hs hb
      split
      · exact calm (by simp) (.same (.elsewhere rfl rfl rfl rfl))
      · rename_i now _
        have grown : Waves r ({ r with loops := loops }.modifyBoard group loop fun _ =>
            (b.takeRecent now).2) := calm (by simp) (.grow fun c hc => by
          cases hb.symm.trans hc
          exact b.mapped_takeRecent now)
        exact grown.tail (.same (.elsewhere rfl rfl rfl rfl))
    · exact calm (by simp) (.same (.refl _))
  | prune group phase => exact absurd rfl (hp group phase)
  | resume => cases ht
  | pace => cases ht
  | expire => cases ht

theorem ends_beginSurvey (r : Runner) (recent : Option Nat) :
    SameEnds r (r.beginSurvey recent).2 := by
  have noted : ∀ surveys, SameEnds r { r with surveys := surveys } := fun _ =>
    .elsewhere rfl rfl rfl rfl
  exact (noted _).trans (.foldl (fun r (p : (String × Nat) × Nat) =>
    ends_push r p.1.2 (t := .read _ p.2 p.1.1) nofun) _ _)

theorem ends_beginPruning (r : Runner) : SameEnds r r.beginPruning.2 := by
  have emptied : SameEnds r { r with pruneQueue := [] } := .elsewhere rfl rfl rfl rfl
  exact emptied.trans (.foldl (fun r (p : String × String × Nat) =>
    ends_push r p.2.2 (t := .prune p.2.1 p.1) nofun) _ _)

end Stages

end LoadGen.Runner
