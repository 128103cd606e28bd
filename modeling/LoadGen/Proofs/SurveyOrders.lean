import LoadGen.Proofs.Termination

namespace LoadGen

/-- Orders that are given from outside the loops. -/
def Task.isErrand : Task → Bool
  | .read .. | .prune .. => true
  | _ => false

namespace Runner

/-- The surveys are the same, and no loop has got a new errand. -/
structure Unasked (r r' : Runner) : Prop where
  surveys : r'.surveys = r.surveys
  errands : ∀ loop t, t.isErrand = true → t ∈ r'.orders loop → t ∈ r.orders loop

section Orders

theorem orders_push_of_ne (r : Runner) {loop other : Nat} (h : other ≠ loop) (t : Task) :
    (r.push loop t).orders other = r.orders other := by
  simp only [orders, push, LoopGroup.posted, LoopGroup.push, LoopGroup.getElem?_modify,
    if_neg h.symm]

/-- An order that is there after a series of them was there before, or is one of them. -/
theorem orders_mem_foldl_push {α : Type} (place : α → Nat) (task : α → Task) {l : List α}
    {r : Runner} {loop : Nat} {t : Task}
    (h : t ∈ (l.foldl (fun r a => r.push (place a) (task a)) r).orders loop) :
    t ∈ r.orders loop ∨ ∃ a ∈ l, t = task a ∧ place a = loop := by
  induction l generalizing r with
  | nil => exact .inl h
  | cons a l ih =>
    rcases ih h with h | ⟨b, hb, ht⟩
    · by_cases hl : loop = place a
      · rcases orders_mem_push h with h | h
        · exact .inl h
        · exact .inr ⟨a, List.mem_cons_self, h, hl.symm⟩
      · rw [orders_push_of_ne r hl] at h
        exact .inl h
    · exact .inr ⟨b, List.mem_cons_of_mem _ hb, ht⟩

theorem orders_mem_beginSurvey {r : Runner} {recent : Option Nat} {loop : Nat} {t : Task}
    (h : t ∈ (r.beginSurvey recent).2.orders loop) : t ∈ r.orders loop ∨
      ∃ slot key, t = .read r.surveys.length slot key ∧
        r.surveyPlaces[slot]? = some (key, loop) := by
  rcases orders_mem_foldl_push (fun p : (String × Nat) × Nat => p.1.2)
    (fun p => .read r.surveys.length p.2 p.1.1) h with h | ⟨⟨⟨key, e⟩, slot⟩, hp, ht, he⟩
  · exact .inl h
  · refine .inr ⟨slot, key, ht, ?_⟩
    rw [List.mem_zipIdx_iff_getElem?] at hp
    rw [← he]
    exact hp

theorem orders_mem_beginPruning {r : Runner} {loop : Nat} {t : Task}
    (h : t ∈ r.beginPruning.2.orders loop) : t ∈ r.orders loop ∨
      ∃ phase key, t = .prune key phase ∧ phase ∈ r.pruneQueue := by
  rcases orders_mem_foldl_push (fun p : String × String × Nat => p.2.2)
    (fun p => .prune p.2.1 p.1) h with h | ⟨p, hp, ht, _⟩
  · exact .inl h
  · obtain ⟨phase, hq, hp⟩ := List.mem_flatMap.mp hp
    obtain ⟨key, _, hp⟩ := List.mem_flatMap.mp hp
    obtain ⟨e, _, rfl⟩ := List.mem_map.mp hp
    exact .inr ⟨phase, key, ht, hq⟩

end Orders

namespace Unasked
variable {r r₁ r₂ r' : Runner}

theorem elsewhere (hs : r'.surveys = r.surveys) (hl : r'.loops = r.loops) : Unasked r r' :=
  ⟨hs, fun loop t _ h => by rwa [orders, hl] at h⟩

theorem trans (h : Unasked r r₁) (k : Unasked r₁ r₂) : Unasked r r₂ :=
  ⟨k.surveys.trans h.surveys, fun loop t ht hm => h.errands loop t ht (k.errands loop t ht hm)⟩

theorem push (r : Runner) (loop : Nat) {t : Task} (ht : t.isErrand = false) :
    Unasked r (r.push loop t) := by
  refine ⟨rfl, fun other u hu hm => ?_⟩
  rcases orders_mem_push hm with hm | rfl
  · exact hm
  · rw [ht] at hu
    cases hu

theorem foldl_push {α : Type} (place : α → Nat) {task : α → Task}
    (ht : ∀ a, (task a).isErrand = false) (l : List α) (r : Runner) :
    Unasked r (l.foldl (fun r a => r.push (place a) (task a)) r) := by
  obtain ⟨loops, he⟩ := foldl_push_eq place task l r
  refine ⟨by rw [he], fun loop t hte hm => ?_⟩
  rcases orders_mem_foldl_push _ _ hm with hm | ⟨a, _, rfl, _⟩
  · exact hm
  · rw [ht] at hte
    cases hte

theorem deliver (r : Runner) (phase : String) (n : Notice) : Unasked r (r.deliver phase n) := by
  rw [deliver_eq]
  exact elsewhere rfl rfl

theorem raiseFence {f : Fence} (hr : r.loops.Running) (hp : f.pending = 0) (here : Option Nat) :
    Unasked r (raiseFence here f r) := by
  obtain ⟨q, raised, he⟩ := raiseFence_eq here f hr hp
  rw [he]
  refine ⟨?_, fun loop t ht hm => ?_⟩
  · obtain ⟨loops, groups, rfl⟩ := raised.rest
    rfl
  · rcases raised.mem_orders hm with hm | rfl | rfl
    · exact hm
    · cases ht
    · cases ht

end Unasked

variable {r r' : Runner}

theorem SameRecord.unasked (h : SameRecord r r') : Unasked r r' :=
  ⟨h.surveys, fun loop t _ hm => by rwa [h.orders] at hm⟩

theorem Taken.unasked {loop : Nat} {t : Task} (h : Taken r r' loop t) : Unasked r r' := by
  obtain ⟨loops, rfl⟩ := h.rest
  exact ⟨rfl, fun _ _ _ hm => h.mem hm⟩

theorem Stage.unasked (hr : r.loops.Running) (h : Stage r r') : Unasked r r' := by
  cases h with
  | same h => exact h.unasked
  | ensure => exact .elsewhere rfl rfl
  | record => exact .elsewhere rfl rfl
  | @enter phase key _ =>
    have entered : Unasked r (r.modifyGroup key fun g => { g with current := some phase }) :=
      .elsewhere rfl rfl
    exact entered.trans (.foldl_push id (fun _ => rfl) ..)
  | @move here phase i s hi hrank hg _ =>
    obtain ⟨r₁, same, hm⟩ := move_cases here (s := s) hi hg
    have stood : Unasked r (r.modifyInstance phase fun i => { i with standing := s }) :=
      .elsewhere rfl rfl
    rcases hm with ⟨_, he⟩ | ⟨key, _, _, he⟩
    · rw [he]
      exact (stood.trans same.unasked).trans (.deliver ..)
    · rw [he]
      exact (stood.trans same.unasked).trans (.raiseFence (same.running hr) rfl here)

theorem Stages.unasked (hr : r.loops.Running) (hs : 0 < r.loops.size) (h : Stages r r') :
    Unasked r r' :=
  (h.keep (I := Unasked r) hr hs (.elsewhere rfl rfl)
    fun hr _ hi h => hi.trans (h.unasked hr)).1

theorem unasked_order (loop : Nat) (r : Runner) {t : Task} (ht : t.isOrder = true)
    (hn : ∀ survey slot key, t ≠ .read survey slot key) : Unasked r (r.perform loop t) := by
  cases t with
  | stamp group phase time => exact .elsewhere rfl rfl
  | «seal» fence =>
    cases hf : r.fences[fence]? with
    | none =>
      simp only [perform, Telling.perform, Runner.sealed, hf]
      exact .elsewhere rfl rfl
    | some f =>
      have lowered : Unasked r (r.lower loop fence f) := .elsewhere rfl rfl
      rw [perform, Telling.perform, sealed_eq hf]
      split
      · exact lowered.trans (.push _ 0 rfl)
      · exact lowered
  | announce fence =>
    simp only [perform, Telling.perform, announce]
    split
    · exact .elsewhere rfl rfl
    · split
      · exact .deliver ..
      · exact .elsewhere rfl rfl
  | read survey slot group => exact absurd rfl (hn survey slot group)
  | prune group phase => exact .elsewhere rfl rfl
  | resume => cases ht
  | pace => cases ht
  | expire => cases ht

theorem read_eq (loop survey slot : Nat) (key : String) (r : Runner) : ∃ groups surveys,
    r.read loop survey slot key = { r with groups := groups, surveys := surveys } ∧
      surveys.length = r.surveys.length := by
  unfold Runner.read
  split
  · split
    · exact ⟨r.groups, _, rfl, List.length_modify ..⟩
    · exact ⟨_, _, rfl, List.length_modify ..⟩
  · exact ⟨r.groups, r.surveys, rfl, rfl⟩

/-- An errand is old, or comes from the survey that begins now, or from the prune queue. -/
theorem Passage.errands (hp : r.Prompt) (hr : r.loops.Running) (hs : 0 < r.loops.size)
    {e : Happening} (h : Passage r e r') : r.surveys.length ≤ r'.surveys.length ∧
      ∀ loop t, t.isErrand = true → t ∈ r'.orders loop → t ∈ r.orders loop ∨
        (r.surveys.length < r'.surveys.length ∧ ∃ slot key, t = .read r.surveys.length slot key) ∨
        ∃ phase key, t = .prune key phase ∧ phase ∈ r.pruneQueue := by
  have plain : ∀ q, Unasked r q → r.surveys.length ≤ q.surveys.length ∧
      ∀ loop t, t.isErrand = true → t ∈ q.orders loop → t ∈ r.orders loop ∨
        (r.surveys.length < q.surveys.length ∧ ∃ slot key, t = .read r.surveys.length slot key) ∨
        ∃ phase key, t = .prune key phase ∧ phase ∈ r.pruneQueue := fun q h =>
    ⟨Nat.le_of_eq (by rw [h.surveys]), fun loop t ht hm => .inl (h.errands loop t ht hm)⟩
  cases h with
  | survey recent =>
    have longer : (r.beginSurvey recent).2.surveys.length = r.surveys.length + 1 := by
      obtain ⟨loops, he⟩ := beginSurvey_eq r recent
      rw [he, List.length_append, List.length_singleton]
    rw [longer]
    refine ⟨Nat.le_succ _, fun loop t _ hm => ?_⟩
    rcases orders_mem_beginSurvey hm with hm | ⟨slot, key, ht, _⟩
    · exact .inl hm
    · exact .inr (.inl ⟨Nat.lt_succ_self _, slot, key, ht⟩)
  | pruning =>
    refine ⟨?_, fun loop t _ hm => ?_⟩
    · obtain ⟨loops, he⟩ := beginPruning_eq r
      exact Nat.le_of_eq (congrArg (·.surveys.length) he.symm)
    · exact (orders_mem_beginPruning hm).imp_right .inr
  | @order loop t loops hn ht =>
    have taken := (taken_of_next? hp hn ht).unasked
    by_cases hread : ∃ survey slot key, t = .read survey slot key
    · obtain ⟨survey, slot, key, rfl⟩ := hread
      obtain ⟨groups, surveys, he, hl⟩ := read_eq loop survey slot key { r with loops := loops }
      rw [perform, Telling.perform, he]
      exact ⟨Nat.le_of_eq hl.symm, fun other u hu hm => .inl (taken.errands other u hu hm)⟩
    · exact plain _ (taken.trans (unasked_order loop _ ht fun survey slot key he =>
        hread ⟨survey, slot, key, he⟩))
  | stages _ h => exact plain _ (h.unasked hr hs)

/-- Every order to read belongs to a survey that has begun, and every phase that is pruned, or waits
for that, has been announced. -/
structure Errands (r : Runner) : Prop where
  begun : ∀ loop survey slot key, .read survey slot key ∈ r.orders loop → survey < r.surveys.length
  ended : ∀ phase, phase ∈ r.pruneQueue ∨ (∃ loop key, .prune key phase ∈ r.orders loop) →
    phase ∈ r.ended

theorem Errands.passage (d : r.Errands) (hp : r.Prompt) (hr : r.loops.Running)
    (hs : 0 < r.loops.size) (hl : r.listening = true) {e : Happening} (h : Passage r e r') :
    r'.Errands := by
  obtain ⟨longer, errands⟩ := h.errands hp hr hs
  obtain ⟨news, told⟩ := h.told hr hs hl
  have ended : r'.ended = r.ended ++ endings news := by
    rw [Runner.ended, told.notices, endings_append, Runner.ended]
  refine ⟨fun loop survey slot key hm => ?_, fun phase hw => ?_⟩
  · rcases errands loop _ rfl hm with hm | ⟨hlt, _, _, he⟩ | ⟨_, _, he, _⟩
    · have := d.begun loop survey slot key hm
      omega
    · cases he
      exact hlt
    · simp at he
  · rw [ended, List.mem_append]
    rcases hw with hq | ⟨loop, key, hm⟩
    · rw [told.pruneQueue] at hq
      refine (List.mem_append.mp hq).imp_left fun hq => d.ended phase (.inl ?_)
      cases e with
      | beginPruning => cases hq
      | _ => exact hq
    · rcases errands loop _ rfl hm with hm | ⟨_, _, _, he⟩ | ⟨_, _, he, hq⟩
      · exact .inl (d.ended phase (.inr ⟨loop, key, hm⟩))
      · simp at he
      · cases he
        exact .inl (d.ended phase (.inl hq))

theorem Course.errands {r₀ r : Runner} {es : List Happening} (h₀ : r₀.Initial)
    (hl : r₀.listening = true) (h : Course r₀ es r) : r.Errands := by
  induction h with
  | refl =>
    have fresh := fresh_of_initial h₀
    exact ⟨by simp [fresh.orders], by simp [fresh.orders, fresh.pruneQueue]⟩
  | next hc ha he ih =>
    have o := hc.owned h₀
    exact ih.passage (hc.fenced h₀).prompt o.running o.size ((hc.listening h₀).trans hl)
      ((change_of_after ha he).passage o)

end Runner
end LoadGen
