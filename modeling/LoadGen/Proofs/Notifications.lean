import LoadGen.Proofs.IntermediateStates
import LoadGen.Proofs.SurveyOrders

namespace LoadGen.Runner

/-- What the listener was told of a phase, in order. -/
def told (r : Runner) (phase : String) : List Status :=
  r.notices.filterMap fun (name, n) => if name = phase then some n.status else none

/-- What the listener has still to be told of a phase: its end, if it has ended. -/
def due (r : Runner) (phase : String) : List Status :=
  if r.status? phase = some .terminated ∧ phase ∉ r.ended then [.terminated] else []

/-- The status that a phase enters by a step. -/
def entering (phase : String) (r r' : Runner) : List Status :=
  if r'.status? phase = r.status? phase then [] else (r'.status? phase).toList

/-- The statuses that a phase enters on its way through some stops. -/
def enteredAlong (phase : String) : Runner → List Runner → List Status
  | _, [] => []
  | r, q :: stops => entering phase r q ++ enteredAlong phase q stops

/-- The statuses that a phase enters while things happen to a runner, in order. -/
def entered (r : Runner) (es : List Happening) (phase : String) : List Status :=
  enteredAlong phase r (r.path es)

/-- A phase has moved on, and no other one has. -/
structure Moved (r r' : Runner) (phase : String) (s : Status) : Prop where
  before : ∃ t, r.status? phase = some t ∧ t.rank < s.rank
  after : r'.status? phase = some s
  others : ∀ other, other ≠ phase → r'.status? other = r.status? other

/-- What the listener is told by a step. -/
inductive Telling (r r' : Runner) : Prop
  /-- No phase moves, and nothing is told. -/
  | mute : (∀ phase, r'.status? phase = r.status? phase) → r'.notices = r.notices →
      r'.fences.map Fence.cause = r.fences.map Fence.cause →
      (∀ m, r'.outstanding m = r.outstanding m) → Telling r r'
  /-- A phase moves, and that is told. -/
  | news {phase : String} {n : Notice} : Moved r r' phase n.status →
      r'.notices = r.notices ++ [(phase, n)] → r'.fences = r.fences →
      (∀ m, r'.outstanding m = r.outstanding m) → Telling r r'
  /-- A phase ends, which is still to be announced. -/
  | raised {f : Fence} : Moved r r' f.phase .terminated → f.phase ∉ r.ended →
      r'.notices = r.notices → r'.fences = r.fences ++ [f] →
      (∀ m, r'.outstanding m = if m = r.fences.length then 1 else r.outstanding m) → Telling r r'
  /-- The end of a phase, which no one was told, is told. -/
  | announced {fence : Nat} {f : Fence} {n : Notice} :
      (∀ phase, r'.status? phase = r.status? phase) → r.fences[fence]? = some f →
      r.status? f.phase = some .terminated → f.phase ∉ r.ended → n.status = .terminated →
      r'.notices = r.notices ++ [(f.phase, n)] → r'.fences = r.fences →
      (∀ m, m ≠ fence → r'.outstanding m = r.outstanding m) → Telling r r'

/-- By a step a phase stays where it is or moves on, of which the listener is told or has still to be
told. -/
structure Onto (phase : String) (r r' : Runner) : Prop where
  onward : r'.status? phase = r.status? phase ∨
    ∃ s t, r.status? phase = some s ∧ r'.status? phase = some t ∧ s.rank < t.rank
  account : r'.told phase ++ r'.due phase =
    r.told phase ++ r.due phase ++ entering phase r r'

/-- Whatever end the listener was not told is still to be announced. -/
def Pledged (r : Runner) : Prop :=
  ∀ phase, r.due phase ≠ [] → ∃ (fence : Nat) (f : Fence),
    r.fences[fence]? = some f ∧ f.phase = phase ∧ r.outstanding fence ≠ 0

section Tellings
variable {r r' : Runner}

theorem SameLedger.telling (h : SameLedger r r') (hn : r'.notices = r.notices) : Telling r r' :=
  .mute h.statuses hn (by rw [h.fences]) h.outstanding

/-- A move is told at once, unless it is the end of a phase that shares sessions. -/
theorem telling_move (o : r.Fenced) (hr : r.loops.Running) (hs : 0 < r.loops.size)
    (hl : r.listening = true) (here : Option Nat) {phase : String} {i : Instance} {s : Standing}
    (hi : r.instances.get? phase = some i) (hrank : i.standing.status.rank < s.status.rank)
    (hg : ∀ key, r.keyOf phase = some key → (r.groups.get? key).isSome) :
    Telling r (r.move here phase s) := by
  have status : ∀ other, (r.move here phase s).status? other =
      if other = phase then some s.status else r.status? other := fun other => by
    rw [(holders_move here phase s r).status?_eq, status?_stand hi]
  have moved : Moved r (r.move here phase s) phase s.status := {
    before := ⟨_, by rw [status?, hi]; rfl, hrank⟩
    after := (status phase).trans (if_pos rfl)
    others := fun other hne => (status other).trans (if_neg hne) }
  have unfenced := o.unfenced_of_rank hi hrank
  obtain ⟨r₁, same, hm⟩ := move_cases here (s := s) hi hg
  have notices : r₁.notices = r.notices := same.notices
  have fences : r₁.fences = r.fences := same.fences
  have outstanding : ∀ m, r₁.outstanding m = r.outstanding m := same.ledger.outstanding
  rcases hm with ⟨_, he⟩ | ⟨key, ht, hk, he⟩
  · refine .news (n := s.notice) moved ?_ ?_ fun m => ?_
    · have heard : r₁.listening = true := same.listening.trans hl
      rw [he, notices_deliver, notices, if_pos heard]
    · rw [he, deliver_eq, fences]
    · rw [he, deliver_eq, ← outstanding]
      rfl
  · have o₁ : r₁.Fenced := (o.stand hi hrank).same same.ledger
    obtain ⟨q, raised, hq⟩ := raiseFence_eq here
      { phase := phase, group := key, notice := s.notice, time := r.now : Fence } (same.running hr) rfl
    have size : 0 < r₁.loops.size := by rw [same.size]; exact hs
    rw [ht] at moved
    refine .raised (f := { phase := phase, group := key, notice := s.notice, time := r.now
                           pending := others here r₁.loops.size })
      moved ?_ ?_ ?_ fun m => ?_
    · intro hm
      obtain ⟨m, f, hf, hp, _⟩ := o.seen phase key hk (.inr (.inr hm))
      exact unfenced (List.mem_map.mpr ⟨f, List.mem_of_getElem? hf, hp⟩)
    · rw [he, (reported_raiseFence (same.running hr) rfl here).notices, List.append_nil, notices]
    · rw [he, hq, ← fences]
      exact raised.fences
    · rw [he, hq, raised.outstanding o₁ size rfl, outstanding, fences]

/-- An announcement that gets its turn is made, if every loop has carried out the end. -/
theorem telling_announce (o : r.Fenced) (hl : r.listening = true) {r₁ : Runner} {loop fence : Nat}
    (taken : Taken r r₁ loop (.announce fence)) : Telling r (r₁.announce fence) := by
  obtain ⟨f, hf, hone, _⟩ := announce_single o taken
  obtain ⟨_, ht, hn⟩ := o.raised fence f hf
  have park := park_outstanding o taken hf
  have others := fun m => announce_others (m := m) taken
  obtain ⟨loops, rfl⟩ := taken.rest
  have hf₁ : ({ r with loops := loops } : Runner).fences[fence]? = some f := hf
  simp only [announce, hf₁]
  split
  · refine .announced (fun _ => ?_) hf ht ?_ (n := Fence.outcome f) ?_ ?_ ?_ fun m hne => ?_
    · rw [deliver_eq]
      rfl
    · intro he
      obtain ⟨hk, _, _⟩ := o.raised fence f hf
      obtain ⟨m, g, hg, hp, h0⟩ := o.seen f.phase f.group hk (.inr (.inr he))
      rw [o.fence_unique hg hf hp, hone] at h0
      cases h0
    · unfold Fence.outcome
      split <;> exact hn
    · rw [notices_deliver]
      exact congrArg _ (if_pos hl)
    · rw [deliver_eq]
    · rw [deliver_eq, ← others m hne]
      rfl
  · rename_i hp
    exact .mute (fun _ => rfl) rfl (park_story _ fence).causes fun m => park hp m

theorem telling_seal (o : r.Fenced) (hr : r.loops.Running) {r₁ : Runner} {loop fence : Nat}
    (taken : Taken r r₁ loop (.seal fence)) : Telling r (r₁.sealed loop fence) := by
  have whole := sealed_outstanding o taken hr
  obtain ⟨f, hf, _⟩ := seal_pending o taken
  obtain ⟨loops, rfl⟩ := taken.rest
  have story := lower_story { r with loops := loops } loop fence f
  have lowered : (({ r with loops := loops } : Runner).lower loop fence f).notices = r.notices := rfl
  have he := sealed_eq (r := { r with loops := loops }) hf loop
  rw [he] at whole ⊢
  split
  · rename_i hd
    rw [if_pos hd] at whole
    exact .mute story.statuses lowered story.causes whole
  · rename_i hd
    rw [if_neg hd] at whole
    exact .mute story.statuses lowered story.causes whole

theorem telling_order (o : r.Fenced) (hr : r.loops.Running) (hl : r.listening = true) {loop : Nat}
    {t : Task} {loops : LoopGroup Task} (hn : r.loops.next? loop = some (t, loops))
    (ht : t.isOrder = true) : Telling r ({ r with loops := loops }.perform loop t) := by
  have taken := taken_of_next? o.prompt hn ht
  have calm : (∀ fence, t ≠ .seal fence ∧ t ≠ .announce fence) →
      SameLedger { r with loops := loops } ({ r with loops := loops }.perform loop t) →
      ({ r with loops := loops }.perform loop t).notices = r.notices →
      Telling r ({ r with loops := loops }.perform loop t) :=
    fun hc h => ((taken.ledger hc).trans h).telling
  cases t with
  | stamp group phase time => exact calm (fun _ => by simp) (ledger_modifyGroup ..) rfl
  | «seal» fence => exact telling_seal o hr taken
  | announce fence => exact telling_announce o hl taken
  | read survey slot group =>
    refine calm (fun _ => by simp) (ledger_read ..) ?_
    obtain ⟨groups, surveys, he, _⟩ := read_eq loop survey slot group { r with loops := loops }
    rw [perform, Telling.perform, he]
    rfl
  | prune group phase => exact calm (fun _ => by simp) (ledger_modifyGroup ..) rfl
  | resume => cases ht
  | pace => cases ht
  | expire => cases ht

theorem telling_beginPruning (r : Runner) : Telling r r.beginPruning.2 := by
  have whole : ∀ (places : List (String × String × Nat)) (q : Runner) (m : Nat),
      (places.foldl (fun r p => r.push p.2.2 (.prune p.2.1 p.1)) q).outstanding m =
        q.outstanding m := by
    intro places
    induction places with
    | nil => exact fun _ _ => rfl
    | cons p rest ih =>
      intro q m
      exact (ih _ m).trans (outstanding_push q p.2.2 (t := .prune p.2.1 p.1) rfl m nofun)
  refine .mute (holders_beginPruning r).status?_eq ?_ ?_ fun m => whole _ { r with pruneQueue := [] } m
  · obtain ⟨loops, he⟩ := beginPruning_eq r
    rw [he]
    rfl
  · obtain ⟨loops, he⟩ := beginPruning_eq r
    rw [he]

theorem Stride.telling (o : r.Fenced) (hr : r.loops.Running) (hs : 0 < r.loops.size)
    (hl : r.listening = true) (h : Stride r r') : Telling r r' := by
  cases h with
  | lull h => exact h.toSameLedger.telling h.notices
  | move here hi hrank hg _ => exact telling_move o hr hs hl here hi hrank hg
  | survey recent =>
    refine (ledger_beginSurvey r recent).telling ?_
    obtain ⟨loops, he⟩ := beginSurvey_eq r recent
    rw [he]
    rfl
  | pruning => exact telling_beginPruning r
  | order hn ht => exact telling_order o hr hl hn ht

end Tellings

section Accounts
variable {r r' : Runner} {phase : String}

theorem due_of_ended (h : phase ∈ r.ended) : r.due phase = [] := if_neg fun hd => hd.2 h

theorem due_of_unended (ht : r.status? phase = some .terminated) (h : phase ∉ r.ended) :
    r.due phase = [.terminated] := if_pos ⟨ht, h⟩

theorem due_of_ne (h : r.status? phase ≠ some .terminated) : r.due phase = [] :=
  if_neg fun hd => h hd.1

theorem due_congr (hs : r'.status? phase = r.status? phase)
    (he : phase ∈ r'.ended ↔ phase ∈ r.ended) : r'.due phase = r.due phase := by
  simp only [due, hs, he]

theorem entering_of_eq (h : r'.status? phase = r.status? phase) : entering phase r r' = [] :=
  if_pos h

theorem ended_of_mute (h : r'.notices = r.notices) : r'.ended = r.ended := by rw [ended, ended, h]

theorem ended_of_news {name : String} {n : Notice} (h : r'.notices = r.notices ++ [(name, n)]) :
    phase ∈ r'.ended ↔ phase ∈ r.ended ∨ (n.status = .terminated ∧ phase = name) := by
  rw [ended, h, endings_append, ended]
  by_cases hn : n.status = .terminated <;> simp [endings, hn]

theorem told_of_news {name : String} {n : Notice} (h : r'.notices = r.notices ++ [(name, n)]) :
    r'.told phase = r.told phase ++ if name = phase then [n.status] else [] := by
  rw [told, h, List.filterMap_append, told]
  split <;> simp [*]

namespace Moved
variable {name : String} {s : Status} (h : Moved r r' name s)
include h

theorem idle : r.status? name ≠ some .terminated := by
  intro he
  obtain ⟨t, ht, hlt⟩ := h.before
  cases he.symm.trans ht
  have := terminated_highest s
  omega

theorem entering_self : entering name r r' = [s] := by
  obtain ⟨t, ht, hlt⟩ := h.before
  rw [entering, h.after, ht, if_neg, Option.toList_some]
  intro he
  cases he
  exact Nat.lt_irrefl _ hlt

theorem onward (phase : String) : r'.status? phase = r.status? phase ∨
    ∃ s t, r.status? phase = some s ∧ r'.status? phase = some t ∧ s.rank < t.rank := by
  by_cases he : phase = name
  · obtain ⟨t, ht, hlt⟩ := h.before
    rw [he]
    exact .inr ⟨t, s, ht, h.after, hlt⟩
  · exact .inl (h.others phase he)

end Moved

theorem Telling.onto (h : Telling r r') (phase : String) : Onto phase r r' := by
  cases h with
  | mute hs hn _ _ =>
    refine ⟨.inl (hs phase), ?_⟩
    rw [entering_of_eq (hs phase), List.append_nil, due_congr (hs phase) (by rw [ended_of_mute hn]),
      told, told, hn]
  | @news name n moved hn _ _ =>
    refine ⟨moved.onward phase, ?_⟩
    rw [told_of_news hn]
    by_cases he : name = phase
    · subst he
      have after : r'.due name = [] := by
        by_cases ht : n.status = .terminated
        · exact due_of_ended ((ended_of_news hn).mpr (.inr ⟨ht, rfl⟩))
        · apply due_of_ne
          rw [moved.after]
          simpa using ht
      rw [if_pos rfl, after, due_of_ne moved.idle, moved.entering_self, List.append_nil,
        List.append_nil]
    · have same := moved.others phase (Ne.symm he)
      have due : r'.due phase = r.due phase :=
        due_congr same (by simp [ended_of_news hn, Ne.symm he])
      rw [if_neg he, entering_of_eq same, due, List.append_nil, List.append_nil]
  | @raised f moved hu hn _ _ =>
    refine ⟨moved.onward phase, ?_⟩
    have ended : r'.ended = r.ended := ended_of_mute hn
    have told : r'.told phase = r.told phase := by rw [told, told, hn]
    by_cases he : f.phase = phase
    · subst he
      have after : r'.due f.phase = [.terminated] := due_of_unended moved.after (by rwa [ended])
      rw [told, after, due_of_ne moved.idle, moved.entering_self, List.append_nil]
    · have same := moved.others phase (Ne.symm he)
      rw [told, entering_of_eq same, due_congr same (by rw [ended]), List.append_nil]
  | @announced fence f n hs _ ht hu hend hn _ _ =>
    refine ⟨.inl (hs phase), ?_⟩
    rw [told_of_news hn, entering_of_eq (hs phase), List.append_nil]
    by_cases he : f.phase = phase
    · subst he
      have after : r'.due f.phase = [] :=
        due_of_ended ((ended_of_news hn).mpr (.inr ⟨hend, rfl⟩))
      rw [if_pos rfl, after, due_of_unended ht hu, hend, List.append_nil]
    · rw [if_neg he, due_congr (hs phase) (by simp [ended_of_news hn, Ne.symm he]), List.append_nil]

theorem Telling.pledged (h : Telling r r') (p : r.Pledged) : r'.Pledged := by
  intro phase hd
  cases h with
  | mute hs hn hc ho =>
    rw [due_congr (hs phase) (by rw [ended_of_mute hn])] at hd
    obtain ⟨fence, f, hf, hp, h0⟩ := p phase hd
    obtain ⟨f', hf', he⟩ := fence_of_causes hc.symm hf
    exact ⟨fence, f', hf', (Prod.mk.inj he).1.trans hp, by rwa [ho]⟩
  | @news name n moved hn hf ho =>
    have hne : phase ≠ name := by
      rintro rfl
      by_cases ht : n.status = .terminated
      · exact hd (due_of_ended ((ended_of_news hn).mpr (.inr ⟨ht, rfl⟩)))
      · apply hd (due_of_ne _)
        rw [moved.after]
        simpa using ht
    rw [due_congr (moved.others phase hne) (by simp [ended_of_news hn, hne])] at hd
    obtain ⟨fence, f, hf', hp, h0⟩ := p phase hd
    exact ⟨fence, f, by rwa [hf], hp, by rwa [ho]⟩
  | @raised g moved hu hn hf ho =>
    by_cases hne : phase = g.phase
    · exact ⟨r.fences.length, g, by rw [hf, List.getElem?_concat_length], hne.symm,
        by simp [ho]⟩
    · rw [due_congr (moved.others phase hne) (by rw [ended_of_mute hn])] at hd
      obtain ⟨fence, f, hf', hp, h0⟩ := p phase hd
      have hlt := (List.getElem?_eq_some_iff.mp hf').1
      refine ⟨fence, f, by rw [hf, List.getElem?_append_left hlt, hf'], hp, ?_⟩
      rwa [ho, if_neg (Nat.ne_of_lt hlt)]
  | @announced fence g n hs hg _ _ hend hn hf ho =>
    have hne : phase ≠ g.phase := by
      rintro rfl
      exact hd (due_of_ended ((ended_of_news hn).mpr (.inr ⟨hend, rfl⟩)))
    rw [due_congr (hs phase) (by simp [ended_of_news hn, hne])] at hd
    obtain ⟨m, f, hf', hp, h0⟩ := p phase hd
    have other : m ≠ fence := by
      rintro rfl
      cases hf'.symm.trans hg
      exact hne hp.symm
    exact ⟨m, f, by rwa [hf], hp, by rwa [ho m other]⟩

end Accounts

section Runs
variable {r r' : Runner}

/-- A runner whose listener will be told whatever there is to tell. -/
structure Heard (r : Runner) : Prop where
  fenced : r.Fenced
  running : r.loops.Running
  size : 0 < r.loops.size
  listening : r.listening = true
  pledged : r.Pledged

theorem Stride.passage (h : Stride r r') : ∃ e, Passage r e r' := by
  cases h with
  | lull h => exact ⟨.poolStats, .stages nofun h.stages⟩
  | move here hi hrank hg ht => exact ⟨.poolStats, .stages nofun (.single (.move here hi hrank hg ht))⟩
  | survey recent => exact ⟨_, .survey recent⟩
  | pruning => exact ⟨_, .pruning⟩
  | order hn ht => exact ⟨_, .order hn ht⟩

theorem Heard.stride (w : r.Heard) (h : Stride r r') : r'.Heard := by
  obtain ⟨e, p⟩ := h.passage
  obtain ⟨running, size⟩ := p.running w.running w.size
  exact {
    fenced := w.fenced.passage w.running w.size p
    running := running
    size := size
    listening := (p.listening w.running w.size).trans w.listening
    pledged := (h.telling w.fenced w.running w.size w.listening).pledged w.pledged }

theorem Heard.onto (w : r.Heard) (h : Stride r r') (phase : String) : Onto phase r r' :=
  (h.telling w.fenced w.running w.size w.listening).onto phase

theorem enteredAlong_congr {phase : String} (hs : r'.status? phase = r.status? phase)
    (stops : List Runner) : enteredAlong phase r' stops = enteredAlong phase r stops := by
  cases stops with
  | nil => rfl
  | cons q stops => simp only [enteredAlong, entering, hs]

/-- Over a whole way, what the listener is told and has still to be told is what a phase enters. -/
theorem Route.account {stops : List Runner} (h : Route r stops r') (w : r.Heard) (phase : String) :
    r'.Heard ∧ r'.told phase ++ r'.due phase =
      r.told phase ++ r.due phase ++ enteredAlong phase r stops := by
  induction h with
  | refl => exact ⟨w, (List.append_nil _).symm⟩
  | rest h _ ih =>
    have step := w.onto (.lull h) phase
    obtain ⟨heard, account⟩ := ih (w.stride (.lull h))
    have same := h.statuses phase
    refine ⟨heard, ?_⟩
    rw [account, step.account, entering_of_eq same, List.append_nil, enteredAlong_congr same]
  | head h _ ih =>
    obtain ⟨heard, account⟩ := ih (w.stride h)
    refine ⟨heard, ?_⟩
    rw [account, (w.onto h phase).account, enteredAlong, List.append_assoc]

theorem Route.onward {stops : List Runner} (h : Route r stops r') (w : r.Heard) {phase : String}
    {s : Status} (hs : r.status? phase = some s) :
    (s :: enteredAlong phase r stops).Pairwise (·.rank < ·.rank) ∧
      (s :: enteredAlong phase r stops).getLast? = r'.status? phase := by
  induction h generalizing s with
  | refl => exact ⟨List.pairwise_singleton .., hs.symm⟩
  | rest h _ ih =>
    have same := h.statuses phase
    rw [← enteredAlong_congr same]
    exact ih (w.stride (.lull h)) (same.trans hs)
  | @head r q r' stops h _ ih =>
    have w' := w.stride h
    rw [enteredAlong]
    rcases (w.onto h phase).onward with same | ⟨_, t, ha, ht, hlt⟩
    · rw [entering_of_eq same]
      exact ih w' (same.trans hs)
    · cases hs.symm.trans ha
      have new : entering phase r q = [t] := by
        rw [entering, ht, hs, if_neg, Option.toList_some]
        intro he
        cases he
        exact Nat.lt_irrefl _ hlt
      obtain ⟨ordered, last⟩ := ih w' ht
      rw [new, List.singleton_append]
      refine ⟨List.pairwise_cons.mpr ⟨fun u hu => ?_, ordered⟩, ?_⟩
      · rcases List.mem_cons.mp hu with rfl | hu
        · exact hlt
        · exact Nat.lt_trans hlt (List.rel_of_pairwise_cons ordered hu)
      · rw [List.getLast?_cons_cons]
        exact last

theorem Route.absent {stops : List Runner} (h : Route r stops r') (w : r.Heard) {phase : String}
    (hs : r.status? phase = none) :
    r'.status? phase = none ∧ enteredAlong phase r stops = [] := by
  induction h with
  | refl => exact ⟨hs, rfl⟩
  | rest h _ ih =>
    have same := h.statuses phase
    rw [← enteredAlong_congr same]
    exact ih (w.stride (.lull h)) (same.trans hs)
  | head h _ ih =>
    rcases (w.onto h phase).onward with same | ⟨_, _, ha, _⟩
    · obtain ⟨gone, empty⟩ := ih (w.stride h) (same.trans hs)
      refine ⟨gone, ?_⟩
      rw [enteredAlong, entering_of_eq same, empty, List.append_nil]
    · cases hs.symm.trans ha

end Runs

theorem Heard.settled {r : Runner} (w : r.Heard) (h : r.loops.isIdle = true) (phase : String) :
    r.due phase = [] := by
  have unqueued : ∀ t : Task, r.queued t = 0 := fun t =>
    queued_eq_zero.mpr fun loop => by simp [orders_of_idle h]
  by_contra hd
  obtain ⟨fence, f, hf, _, h0⟩ := w.pledged phase hd
  have pending := w.fenced.pending fence f hf
  rw [unqueued] at pending
  apply h0
  rw [outstanding, unqueued, hf]
  simp [Fence.waits, pending]

theorem Fresh.undue {r : Runner} (h : r.Fresh) (phase : String) : r.due phase = [] := by
  apply due_of_ne
  intro ht
  obtain ⟨i, hi, hs⟩ := Option.map_eq_some_iff.mp ht
  rw [h.instances phase i hi] at hs
  cases hs

theorem Fresh.heard {r : Runner} (h : r.Fresh) (hl : r.listening = true) : r.Heard where
  fenced := h.fenced
  running := h.owned.running
  size := h.size
  listening := hl
  pledged := fun phase hd => absurd (h.undue phase) hd

/-- How the listener is told of a phase. -/
structure Notified (r₀ r : Runner) (es : List Happening) (phase : String) : Prop where
  /-- A phase enters its statuses in order, each of them once. -/
  ordered : (r₀.entered es phase).Pairwise (·.rank < ·.rank)
  started : .notStarted ∉ r₀.entered es phase
  /-- It stands where it has come to. -/
  current : ∀ s, r.status? phase = some s → s = ((r₀.entered es phase).getLast?).getD .notStarted
  /-- The listener is told of them in that order, and none is left out. -/
  inOrder : r.told phase <+: r₀.entered es phase
  /-- Nothing is told after the end of the phase. -/
  final : ∀ before after, r.told phase = before ++ .terminated :: after → after = []
  /-- Once the loops have nothing to do, the listener has been told of all of them. -/
  whole : r.loops.isIdle = true → r.told phase = r₀.entered es phase

theorem phase_statuses_told {r₀ r : Runner} {es : List Happening} (h₀ : r₀.Initial)
    (hl : r₀.listening = true) (h : Course r₀ es r) (phase : String) :
    Notified r₀ r es phase := by
  have fresh := fresh_of_initial h₀
  have start := fresh.heard hl
  have route := h.route h₀
  obtain ⟨heard, account⟩ := route.account start phase
  have silent : r₀.told phase = [] := by simp [told, notices, fresh.journal]
  rw [silent, fresh.undue, List.append_nil, List.nil_append] at account
  have inOrder : r.told phase <+: r₀.entered es phase := ⟨r.due phase, account⟩
  obtain ⟨ordered, started, current⟩ : (r₀.entered es phase).Pairwise (·.rank < ·.rank) ∧
      .notStarted ∉ r₀.entered es phase ∧
      ∀ s, r.status? phase = some s → s = ((r₀.entered es phase).getLast?).getD .notStarted := by
    cases hs : r₀.status? phase with
    | none =>
      obtain ⟨gone, empty⟩ := route.absent start hs
      rw [entered, empty, gone]
      exact ⟨.nil, List.not_mem_nil, fun _ h => by cases h⟩
    | some s =>
      obtain ⟨ordered, last⟩ := route.onward start hs
      obtain ⟨i, hi, rfl⟩ := Option.map_eq_some_iff.mp hs
      rw [fresh.instances phase i hi] at ordered last
      obtain ⟨later, ordered⟩ := List.pairwise_cons.mp ordered
      refine ⟨ordered, fun hm => Nat.lt_irrefl _ (later _ hm), fun t ht => ?_⟩
      rw [← last, List.getLast?_cons] at ht
      exact (Option.some.inj ht).symm
  refine ⟨ordered, started, current, inOrder, fun before after he => ?_, fun hi => ?_⟩
  · cases after with
    | nil => rfl
    | cons s after =>
      have told := ordered.sublist inOrder.sublist
      rw [he] at told
      have later := List.rel_of_pairwise_cons (List.pairwise_append.mp told).2.1 List.mem_cons_self
      have := terminated_highest s
      omega
  · rw [heard.settled hi, List.append_nil] at account
    exact account

/-- The only run of a phase fails, by which the phase ends. The listener is told of that once the
other loop has caught up. -/
theorem gate_statuses_told : ∃ r es, Course gateRunner es r ∧
    r.told "login" = [.running, .terminating, .terminated] ∧ Notified gateRunner r es "login" := by
  have h := Course.one (r := gateRunner) (e := .deed none (.begin "login")) trivial rfl
  have h := h.next (e := .deed none (.enroll "login")) trivial rfl
  have h := h.next (e := .turn 0) (fun _ _ h => by cases h) rfl
  have h := h.next (e := .turn 0) (fun _ _ h => by cases h) rfl
  have h := h.next (e := .openGate 0 (some .taskDropped)) trivial rfl
  have h := h.next (e := .turn 0) (fun _ _ h => by cases h) rfl
  have h := h.next (e := .turn 0) (fun _ _ h => by cases h) rfl
  have h := h.next (e := .turn 1) (fun _ _ h => by cases h) rfl
  have h := h.next (e := .turn 1) (fun _ _ h => by cases h) rfl
  have h := h.next (e := .turn 0) (fun _ _ h => by cases h) rfl
  exact ⟨_, _, h, rfl, phase_statuses_told gateRunner_initial rfl h "login"⟩

end LoadGen.Runner
