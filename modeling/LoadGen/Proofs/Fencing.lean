import LoadGen.Proofs.Announcements
import LoadGen.Proofs.FenceRaising
import LoadGen.Proofs.MeasurementSteps

namespace LoadGen.Runner

section Move

theorem wake_eq (phase : String) (r : Runner) :
    ∃ loops, r.wake phase = { r with loops := loops } := by
  unfold wake
  generalize r.runs.filter _ = runs
  induction runs generalizing r with
  | nil => exact ⟨r.loops, rfl⟩
  | cons run rest ih => exact ih (r.push (r.executorOf run.session) (.resume run.id))

/-- A move is told at once, unless a phase of a group has terminated: then a fence is raised. -/
theorem move_cases (here : Option Nat) {r : Runner} {phase : String} {i : Instance} {s : Standing}
    (hi : r.instances.get? phase = some i)
    (hg : ∀ key, r.keyOf phase = some key → (r.groups.get? key).isSome) :
    ∃ r₁, SameRecord (r.modifyInstance phase fun i => { i with standing := s }) r₁ ∧
      (((s.status ≠ .terminated ∨ r.keyOf phase = none) ∧
          r.move here phase s = r₁.deliver phase s.notice) ∨
        ∃ key, s.status = .terminated ∧ r.keyOf phase = some key ∧
          r.move here phase s = raiseFence here
            { phase := phase, group := key, notice := s.notice, time := r.now } r₁) := by
  have woken : ∃ r₁ loops, SameRecord (r.modifyInstance phase fun i => { i with standing := s }) r₁ ∧
      r₁ = { r.modifyInstance phase fun i => { i with standing := s } with loops := loops } ∧
      r.move here phase s = r₁.tell here phase := by
    unfold move
    dsimp only
    split
    · obtain ⟨loops, he⟩ := wake_eq phase (r.modifyInstance phase fun i => { i with standing := s })
      exact ⟨_, loops, (@aside_wake nobody ..).record, he, rfl⟩
    · exact ⟨_, r.loops, .refl _, rfl, rfl⟩
  obtain ⟨r₁, loops, same, he, hm⟩ := woken
  have hi₁ : r₁.instances.get? phase = some { i with standing := s } := by
    simp [he, Runner.modifyInstance, hi]
  have hk : r.keyOf phase = i.phase.key := by rw [keyOf, hi]; rfl
  have hg₁ : r₁.groups = r.groups := by rw [he]; rfl
  have clock : r₁.now = r.now := by rw [he]; rfl
  refine ⟨r₁, same, ?_⟩
  rw [hm, tell, hi₁]
  dsimp only
  split
  · rename_i hn
    refine .inl ⟨.inr ?_, rfl⟩
    rw [hk]
    cases hkey : i.phase.key with
    | none => rfl
    | some key =>
      obtain ⟨g, hs⟩ := Option.isSome_iff_exists.mp (hg key (hk.trans hkey))
      simp [groupOf?, hkey, hg₁, hs] at hn
  · rename_i key g hs
    split
    · rename_i ht
      exact .inr ⟨key, ht, hk.trans (groupOf?_eq_some.mp hs).1, by rw [← clock]⟩
    · rename_i ht
      exact .inl ⟨.inl ht, rfl⟩

end Move

section Stages
variable {r r' : Runner}

theorem Stage.size (h : Stage r r') : r'.loops.size = r.loops.size := by
  cases h with
  | same h => exact h.size
  | ensure => rfl
  | record => rfl
  | enter => exact (holders_enterGroup ..).size
  | move here => exact (holders_move here ..).size

theorem Stage.running (h : Stage r r') (hr : r.loops.Running) : r'.loops.Running := by
  cases h with
  | same h => exact h.running hr
  | ensure => exact hr
  | record => exact hr
  | enter => exact (holders_enterGroup ..).running hr
  | move here => exact (holders_move here ..).running hr

theorem ledger_enterGroup (r : Runner) (key name : String) :
    SameLedger r (r.enterGroup key name) :=
  (ledger_modifyGroup ..).trans (.foldl (fun r i => ledger_push r i rfl) _ _)

theorem Fenced.move (o : r.Fenced) (hr : r.loops.Running) (hs : 0 < r.loops.size)
    (here : Option Nat) {phase : String} {i : Instance} {s : Standing}
    (hi : r.instances.get? phase = some i) (hrank : i.standing.status.rank < s.status.rank)
    (hg : ∀ key, r.keyOf phase = some key → (r.groups.get? key).isSome) :
    (r.move here phase s).Fenced := by
  obtain ⟨r₁, same, hm⟩ := move_cases here (s := s) hi hg
  have stood := (o.stand hi hrank).same same.ledger
  have keys : r₁.keyOf phase = r.keyOf phase := by
    rw [same.keyOf_eq, keyOf_modifyInstance]
    exact fun _ => rfl
  rcases hm with ⟨hn | hn, he⟩ | ⟨key, ht, hk, he⟩
  · rw [he]
    exact stood.same (ledger_deliver r₁ phase hn)
  · rw [he]
    exact stood.deliver _ (.inl (keys.trans hn))
  · rw [he]
    have status : r₁.status? phase = some .terminated := by
      rw [same.status?_eq, status?_stand hi, if_pos rfl, ht]
    have unfenced : phase ∉ r₁.fences.map (·.phase) := by
      rw [same.fences]
      exact o.unfenced_of_rank hi hrank
    have size : 0 < r₁.loops.size := by rw [same.size]; exact hs
    exact stood.raise (same.running hr) size here (keys.trans hk) status ht rfl rfl unfenced

theorem Fenced.stage (o : r.Fenced) (hr : r.loops.Running) (hs : 0 < r.loops.size)
    (h : Stage r r') : r'.Fenced := by
  cases h with
  | same h => exact o.same h.ledger
  | ensure => exact o.same (ledger_modifyGroup ..)
  | record => exact o.same (ledger_modifyGroup ..)
  | enter => exact o.same (ledger_enterGroup ..)
  | move here hi hrank hg _ => exact o.move hr hs here hi hrank hg

/-- What holds after every change of the record holds after any number of them. -/
theorem Stages.keep {I : Runner → Prop} (h : Stages r r') (hr : r.loops.Running)
    (hs : 0 < r.loops.size) (hi : I r)
    (step : ∀ {q q' : Runner}, q.loops.Running → 0 < q.loops.size → I q → Stage q q' → I q') :
    I r' ∧ r'.loops.Running ∧ 0 < r'.loops.size := by
  induction h with
  | refl => exact ⟨hi, hr, hs⟩
  | tail _ h ih =>
    obtain ⟨hi, hr, hs⟩ := ih
    exact ⟨step hr hs hi h, h.running hr, by rw [h.size]; exact hs⟩

end Stages

section Passages
variable {r r' : Runner}

theorem ledger_read (loop survey slot : Nat) (key : String) (r : Runner) :
    SameLedger r (r.read loop survey slot key) := by
  unfold read
  split
  · split
    · exact ledger_elsewhere rfl rfl rfl rfl rfl
    · exact ledger_elsewhere rfl rfl rfl rfl rfl
  · exact .refl r

theorem ledger_beginSurvey (r : Runner) (recent : Option Nat) :
    SameLedger r (r.beginSurvey recent).2 := by
  have noted : ∀ surveys, SameLedger r { r with surveys := surveys } := fun _ =>
    ledger_elsewhere rfl rfl rfl rfl rfl
  exact (noted _).trans
    (.foldl (fun r (p : (String × Nat) × Nat) => ledger_push r p.1.2 (t := .read _ p.2 p.1.1) rfl) _ _)

theorem Fenced.order (o : r.Fenced) (hr : r.loops.Running) {loop : Nat} {t : Task}
    {loops : LoopGroup Task} (hn : r.loops.next? loop = some (t, loops)) (ht : t.isOrder = true) :
    ({ r with loops := loops }.perform loop t).Fenced := by
  have taken := taken_of_next? o.prompt hn ht
  have calm : (∀ fence, t ≠ .seal fence ∧ t ≠ .announce fence) →
      SameLedger { r with loops := loops } ({ r with loops := loops }.perform loop t) →
      ({ r with loops := loops }.perform loop t).Fenced :=
    fun hc h => (o.same (taken.ledger hc)).same h
  cases t with
  | stamp group phase time => exact calm (fun _ => ⟨nofun, nofun⟩) (ledger_modifyGroup ..)
  | «seal» fence => exact o.sealed taken hr
  | announce fence => exact o.announce taken
  | read survey slot group => exact calm (fun _ => ⟨nofun, nofun⟩) (ledger_read ..)
  | prune group phase => exact calm (fun _ => ⟨nofun, nofun⟩) (ledger_modifyGroup ..)
  | resume => cases ht
  | pace => cases ht
  | expire => cases ht

theorem Fenced.passage (o : r.Fenced) (hr : r.loops.Running) (hs : 0 < r.loops.size)
    {e : Happening} (h : Passage r e r') : r'.Fenced := by
  cases h with
  | survey recent => exact o.same (ledger_beginSurvey r recent)
  | pruning => exact o.beginPruning
  | order hn ht => exact o.order hr hn ht
  | stages _ h => exact (h.keep hr hs o fun hr hs o h => o.stage hr hs h).1

theorem Passage.running {e : Happening} (h : Passage r e r') (hr : r.loops.Running)
    (hs : 0 < r.loops.size) : r'.loops.Running ∧ 0 < r'.loops.size := by
  have held : SameHolders r r' → r'.loops.Running ∧ 0 < r'.loops.size := fun same =>
    ⟨same.running hr, by rwa [same.size]⟩
  cases h with
  | survey recent => exact held (holders_beginSurvey r recent)
  | pruning => exact held (holders_beginPruning r)
  | order hn ht =>
    have took := LoopGroup.took_of_next? hn
    have taken : SameHolders r { r with loops := _ } := .onLoops r took.size took.running
    exact held (taken.trans (holders_perform _ _ ht))
  | stages _ h => exact (h.keep (I := fun _ => True) hr hs trivial fun _ _ _ _ => trivial).2

end Passages

theorem Fresh.orders {r : Runner} (h : r.Fresh) (loop : Nat) : r.orders loop = [] := by
  simp [Runner.orders, (h.idle loop).1]

theorem Fresh.prompt {r : Runner} (h : r.Fresh) : r.Prompt := by
  intro loop t ht
  simp [(h.idle loop).2] at ht

theorem Fresh.fenced {r : Runner} (h : r.Fresh) : r.Fenced where
  prompt := h.prompt
  known := by simp [h.orders]
  raised := by simp [h.fences]
  once := by simp [h.fences]
  pending := by simp [h.fences]
  single := by simp [h.fences]
  settled := by simp [h.fences]
  seen := by simp [Seen, h.orders, h.pruneQueue, ended, endings, notices, h.journal]
  waiting := by simp [h.pruneQueue]
  told := by simp [ended, endings, notices, h.journal]

theorem Course.fenced {r₀ r : Runner} {es : List Happening} (h₀ : r₀.Initial)
    (h : Course r₀ es r) : r.Fenced := by
  induction h with
  | refl => exact (fresh_of_initial h₀).fenced
  | next hc ha he ih =>
    have o := hc.owned h₀
    exact ih.passage o.running o.size ((change_of_after ha he).passage o)

end LoadGen.Runner
