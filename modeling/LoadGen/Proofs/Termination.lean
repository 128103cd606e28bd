import LoadGen.Proofs.Endings

namespace LoadGen.Runner

/-- What the listener was told in between. The phases that have ended with that are queued for
pruning. -/
structure Reported (r r' : Runner) (news : List (String × Notice)) : Prop where
  listening : r'.listening = r.listening
  heard : news ≠ [] → r.listening = true
  notices : r'.notices = r.notices ++ news
  pruneQueue : r.listening = true → r'.pruneQueue = r.pruneQueue ++ endings news

/-- The phases that still wait to be pruned after a happening, apart from new ones. -/
def waitingAfter (r : Runner) : Happening → List String
  | .beginPruning => []
  | _ => r.pruneQueue

/-- A happening tells the listener some news. The phases that have ended with that are queued for
pruning, and no others. -/
structure Told (r : Runner) (e : Happening) (r' : Runner) (news : List (String × Notice)) : Prop where
  notices : r'.notices = r.notices ++ news
  pruneQueue : r'.pruneQueue = r.waitingAfter e ++ endings news

section Orders

theorem foldl_push_eq {α : Type} (place : α → Nat) (task : α → Task) (l : List α) (r : Runner) :
    ∃ loops, l.foldl (fun r a => r.push (place a) (task a)) r = { r with loops := loops } := by
  induction l generalizing r with
  | nil => exact ⟨r.loops, rfl⟩
  | cons a l ih => exact ih (r.push (place a) (task a))

theorem enterGroup_eq (r : Runner) (key name : String) : ∃ loops, r.enterGroup key name =
    { r.modifyGroup key fun g => { g with current := some name } with loops := loops } :=
  foldl_push_eq id (fun _ => .stamp key name r.now) _ _

theorem beginSurvey_eq (r : Runner) (recent : Option Nat) : ∃ loops, (r.beginSurvey recent).2 =
    { r with
      loops := loops
      surveys := r.surveys ++ [{
        recent := recent
        replies := r.surveyPlaces.map fun (_, e) =>
          if r.loops.isOpen e then Reply.pending else .dropped }] } :=
  foldl_push_eq (fun p : (String × Nat) × Nat => p.1.2)
    (fun p => .read r.surveys.length p.2 p.1.1) _ _

theorem beginPruning_eq (r : Runner) : ∃ loops,
    r.beginPruning.2 = { r with loops := loops, pruneQueue := [] } :=
  foldl_push_eq (fun p : String × String × Nat => p.2.2) (fun p => .prune p.2.1 p.1) _ _

end Orders

section Reported
variable {r r₁ r₂ r' : Runner}

theorem Reported.mute (hn : r'.listening = r.listening) (hj : r'.notices = r.notices)
    (hp : r'.pruneQueue = r.pruneQueue) : Reported r r' [] :=
  ⟨hn, fun h => absurd rfl h, by rw [hj, List.append_nil],
    fun _ => by rw [hp]; exact (List.append_nil _).symm⟩

theorem Reported.trans {news news' : List (String × Notice)} (h : Reported r r₁ news)
    (k : Reported r₁ r₂ news') : Reported r r₂ (news ++ news') where
  listening := k.listening.trans h.listening
  heard := by
    intro hn
    by_cases he : news = []
    · subst he
      exact h.listening.symm.trans (k.heard hn)
    · exact h.heard he
  notices := by rw [k.notices, h.notices, List.append_assoc]
  pruneQueue := by
    intro hl
    rw [k.pruneQueue (h.listening.trans hl), h.pruneQueue hl, endings_append, List.append_assoc]

theorem SameRecord.reported (h : SameRecord r r') : Reported r r' [] :=
  .mute h.listening h.notices h.pruneQueue

theorem reported_deliver (r : Runner) (phase : String) (n : Notice) :
    Reported r (r.deliver phase n) (if r.listening then [(phase, n)] else []) where
  listening := by rw [deliver_eq]
  heard := by cases r.listening <;> simp
  notices := notices_deliver r phase n
  pruneQueue := by
    intro hl
    rw [deliver_eq, hl]
    by_cases hn : n.status = .terminated <;> simp [endings, hn]

theorem reported_raiseFence {f : Fence} (hr : r.loops.Running) (hp : f.pending = 0)
    (here : Option Nat) : Reported r (raiseFence here f r) [] := by
  obtain ⟨q, raised, he⟩ := raiseFence_eq here f hr hp
  rw [he]
  obtain ⟨loops, groups, rfl⟩ := raised.rest
  exact .mute rfl rfl rfl

theorem Stage.reported (hr : r.loops.Running) (h : Stage r r') : ∃ news, Reported r r' news := by
  cases h with
  | same h => exact ⟨_, h.reported⟩
  | ensure => exact ⟨_, .mute rfl rfl rfl⟩
  | record => exact ⟨_, .mute rfl rfl rfl⟩
  | @enter phase key _ =>
    obtain ⟨loops, he⟩ := enterGroup_eq r key phase
    rw [he]
    exact ⟨_, .mute rfl rfl rfl⟩
  | @move here phase i s hi hrank hg _ =>
    obtain ⟨r₁, same, hm⟩ := move_cases here (s := s) hi hg
    have stood : Reported r (r.modifyInstance phase fun i => { i with standing := s }) [] :=
      .mute rfl rfl rfl
    rcases hm with ⟨_, he⟩ | ⟨key, _, _, he⟩
    · rw [he]
      exact ⟨_, (stood.trans same.reported).trans (reported_deliver ..)⟩
    · rw [he]
      exact ⟨_, (stood.trans same.reported).trans
        (reported_raiseFence (same.running hr) rfl here)⟩

theorem reported_order (loop : Nat) (r : Runner) {t : Task} (ht : t.isOrder = true) :
    ∃ news, Reported r (r.perform loop t) news := by
  cases t with
  | stamp group phase time => exact ⟨_, .mute rfl rfl rfl⟩
  | «seal» fence =>
    refine ⟨[], ?_⟩
    cases hf : r.fences[fence]? with
    | none =>
      simp only [perform, Telling.perform, Runner.sealed, hf]
      exact .mute rfl rfl rfl
    | some f =>
      rw [perform, Telling.perform, sealed_eq hf]
      split <;> exact .mute rfl rfl rfl
  | announce fence =>
    simp only [perform, Telling.perform, announce]
    split
    · exact ⟨_, .mute rfl rfl rfl⟩
    · split
      · exact ⟨_, reported_deliver ..⟩
      · exact ⟨_, .mute rfl rfl rfl⟩
  | read survey slot group =>
    refine ⟨[], ?_⟩
    simp only [perform, Telling.perform, read]
    split
    · split <;> exact .mute rfl rfl rfl
    · exact .mute rfl rfl rfl
  | prune group phase => exact ⟨_, .mute rfl rfl rfl⟩
  | resume => cases ht
  | pace => cases ht
  | expire => cases ht

theorem Passage.reported {e : Happening} (hr : r.loops.Running) (hs : 0 < r.loops.size)
    (h : Passage r e r') : e = .beginPruning ∨ ∃ news, Reported r r' news := by
  cases h with
  | survey recent =>
    obtain ⟨loops, he⟩ := beginSurvey_eq r recent
    rw [he]
    exact .inr ⟨_, .mute rfl rfl rfl⟩
  | pruning => exact .inl rfl
  | order _ ht =>
    have taken : ∀ loops, Reported r { r with loops := loops } [] := fun _ => .mute rfl rfl rfl
    obtain ⟨news, h⟩ := reported_order _ { r with loops := _ } ht
    exact .inr ⟨_, (taken _).trans h⟩
  | stages _ h =>
    have kept := h.keep (I := fun q => ∃ news, Reported r q news) hr hs ⟨_, .mute rfl rfl rfl⟩
      fun hr _ hi h => by
        obtain ⟨news, hi⟩ := hi
        obtain ⟨news', h⟩ := h.reported hr
        exact ⟨_, hi.trans h⟩
    exact .inr kept.1

theorem Passage.told {e : Happening} (hr : r.loops.Running) (hs : 0 < r.loops.size)
    (hl : r.listening = true) (h : Passage r e r') : ∃ news, Told r e r' news := by
  by_cases he : e = .beginPruning
  · subst he
    cases h with
    | pruning =>
      obtain ⟨loops, he⟩ := beginPruning_eq r
      rw [he]
      exact ⟨[], (List.append_nil _).symm, rfl⟩
    | stages hn => exact absurd rfl hn
  · obtain ⟨news, h⟩ := (h.reported hr hs).resolve_left he
    refine ⟨news, h.notices, (h.pruneQueue hl).trans ?_⟩
    cases e with
    | beginPruning => exact absurd rfl he
    | _ => rfl

theorem Passage.listening {e : Happening} (hr : r.loops.Running) (hs : 0 < r.loops.size)
    (h : Passage r e r') : r'.listening = r.listening := by
  by_cases he : e = .beginPruning
  · subst he
    cases h with
    | pruning =>
      obtain ⟨loops, he⟩ := beginPruning_eq r
      rw [he]
    | stages hn => exact absurd rfl hn
  · obtain ⟨news, h⟩ := (h.reported hr hs).resolve_left he
    exact h.listening

theorem Passage.heard {e : Happening} (hr : r.loops.Running) (hs : 0 < r.loops.size)
    (h : Passage r e r') {phase : String} (he : phase ∈ r'.ended) :
    phase ∈ r.ended ∨ r.listening = true := by
  rcases h.reported hr hs with rfl | ⟨news, h⟩
  · cases h with
    | pruning =>
      obtain ⟨loops, hp⟩ := beginPruning_eq r
      rw [hp] at he
      exact .inl he
    | stages hn => exact absurd rfl hn
  · rw [ended, h.notices, endings_append] at he
    refine (List.mem_append.mp he).imp_right fun he => h.heard fun none => ?_
    rw [none] at he
    cases he

end Reported

theorem Course.listening {r₀ r : Runner} {es : List Happening} (h₀ : r₀.Initial)
    (h : Course r₀ es r) : r.listening = r₀.listening := by
  induction h with
  | refl => rfl
  | next hc ha he ih =>
    have o := hc.owned h₀
    exact (((change_of_after ha he).passage o).listening o.running o.size).trans ih

theorem Course.heard {r₀ r : Runner} {es : List Happening} (h₀ : r₀.Initial) (h : Course r₀ es r)
    {phase : String} (he : phase ∈ r.ended) : r₀.listening = true := by
  induction h with
  | refl => simp [ended, notices, (fresh_of_initial h₀).journal, endings] at he
  | next hc ha hstep ih =>
    have o := hc.owned h₀
    rcases ((change_of_after ha hstep).passage o).heard o.running o.size he with he | hl
    · exact ih he
    · exact (hc.listening h₀).symm.trans hl

theorem Fenced.endedOn {r : Runner} (o : r.Fenced) {phase : String} (h : r.Released phase) :
    ∃ time, ∀ loop, r.EndedOn loop phase time := by
  obtain ⟨fence, f, hf, hp, h0⟩ := h
  have hz := o.pending fence f hf
  rw [o.settled fence f hf h0] at hz
  exact ⟨f.time, fun loop => ⟨fence, f, hf, hp, rfl, queued_eq_zero.mp hz.symm loop⟩⟩

theorem Measured.ended {r : Runner} (m : r.Measured) {loop : Nat} {phase key : String} {time : Nat}
    (h : r.EndedOn loop phase time) {b : Board} (hb : r.board? key loop = some b) :
    b.Ended phase time := fun metric c hc =>
  (m.stops key loop b hb phase metric c hc time).mpr h

/-- How the end of a phase that shares sessions is announced. -/
structure Announced (r : Runner) (phase key : String) : Prop where
  once : r.ended.count phase ≤ 1
  /-- If the end was announced, its buckets have ended on every loop, all of them at one time. -/
  settled : phase ∈ r.ended → ∃ time, ∀ es r', Course r es r' →
    ∀ loop b, r'.board? key loop = some b → b.Ended phase time
  told : ∀ e r', r.Allowed e → r.after? e = some r' → ∃ news, Told r e r' news

theorem phase_end_announced {r₀ r : Runner} {es : List Happening} (h₀ : r₀.Initial)
    (hl : r₀.listening = true) (h : Course r₀ es r) {phase key : String}
    (hk : r.keyOf phase = some key) : r.Announced phase key := by
  have fenced := h.fenced h₀
  refine ⟨fenced.told phase key hk, fun ht => ?_, fun e r' ha he => ?_⟩
  · obtain ⟨time, ended⟩ := fenced.endedOn (fenced.seen phase key hk (.inr (.inr ht)))
    refine ⟨time, fun es' r' k loop b hb => ?_⟩
    have measured := (h.trans k).measured h₀
    have lasting := h.lasting h₀ k
    have inside := (measured.placed key loop b hb).1
    rw [lasting.size] at inside
    exact measured.ended (lasting.endedOn loop inside phase time (ended loop)) hb
  · have o := h.owned h₀
    exact ((change_of_after ha he).passage o).told o.running o.size ((h.listening h₀).trans hl)

/-- A request is measured on one loop. The announcement has to wait for the other loop, and is made
when that loop has caught up. -/
theorem gate_end_announced : ∃ r es b c, Course gateRunner es r ∧ "login" ∈ r.ended ∧
    r.board? "users" 0 = some b ∧ b.Holds "login" "page" c ∧ r.Announced "login" "users" := by
  have h := Course.one (r := gateRunner) (e := .deed none (.begin "login")) trivial rfl
  have h := h.next (e := .deed none (.enroll "login")) trivial rfl
  have h := h.next (e := .createRequest 0 .complete) trivial rfl
  have h := h.next (e := .command 0 (.begin "page" ⟨"visit", 0⟩))
    ⟨_, rfl, _, List.mem_singleton_self _, rfl⟩ rfl
  have h := h.next (e := .deed none (.complete 0)) trivial rfl
  have h := h.next (e := .deed none (.terminate "login")) trivial rfl
  have h := h.next (e := .turn 0) (fun _ _ h => by cases h) rfl
  have h := h.next (e := .turn 0) (fun _ _ h => by cases h) rfl
  have h := h.next (e := .turn 0) (fun _ _ h => by cases h) rfl
  have h := h.next (e := .turn 0) (fun _ _ h => by cases h) rfl
  have h := h.next (e := .turn 1) (fun _ _ h => by cases h) rfl
  have h := h.next (e := .turn 1) (fun _ _ h => by cases h) rfl
  have h := h.next (e := .turn 0) (fun _ _ h => by cases h) rfl
  exact ⟨_, _, _, _, h, List.mem_singleton_self _, rfl,
    ⟨_, List.mem_singleton_self _, rfl, List.mem_singleton_self _⟩,
    phase_end_announced gateRunner_initial rfl h rfl⟩

end LoadGen.Runner
