import LoadGen.Proofs.Growth

namespace LoadGen.Runner

/-- On the way from one state to another, at `q`, a loop reads its buckets for a group. -/
structure Reading (base r : Runner) (key : String) (loop : Nat) (q : Runner) (b : Board) : Prop where
  before : ∃ es, Course base es q
  after : ∃ es, Course q es r
  board : q.board? key loop = some b

/-- A survey of all buckets, some of which have been read. -/
structure Asked (base r : Runner) (survey : Nat) (places : List (String × Nat)) : Prop where
  replies : ∃ s, r.surveys[survey]? = some s ∧ s.recent = none ∧
    s.replies.length = places.length ∧ ∀ (slot : Nat) snaps,
      s.replies[slot]? = some (.answered snaps) → ∃ key loop q b,
        places[slot]? = some (key, loop) ∧ Reading base r key loop q b ∧ snaps = b.snapshot
  orders : ∀ loop slot key, .read survey slot key ∈ r.orders loop →
    places[slot]? = some (key, loop)

section Survey
variable {base r r' : Runner} {survey : Nat} {places : List (String × Nat)}

theorem Reading.later {key : String} {loop : Nat} {q : Runner} {b : Board} {es : List Happening}
    (h : Reading base r key loop q b) (k : Course r es r') : Reading base r' key loop q b := by
  obtain ⟨es', hc⟩ := h.after
  exact ⟨h.before, ⟨_, hc.trans k⟩, h.board⟩

theorem Asked.later (a : Asked base r survey places) {es : List Happening} (k : Course r es r')
    (hs : r'.surveys[survey]? = r.surveys[survey]?)
    (ho : ∀ loop slot key, .read survey slot key ∈ r'.orders loop →
      .read survey slot key ∈ r.orders loop) : Asked base r' survey places where
  replies := by
    obtain ⟨s, hq, hr, hl, ha⟩ := a.replies
    refine ⟨s, hs.trans hq, hr, hl, fun slot snaps hg => ?_⟩
    obtain ⟨key, loop, q, b, hp, reading, he⟩ := ha slot snaps hg
    exact ⟨key, loop, q, b, hp, reading.later k, he⟩
  orders := fun loop slot key hm => a.orders loop slot key (ho loop slot key hm)

theorem read_surveys (loop id slot : Nat) (key : String) (r : Runner) {s : Survey}
    (hs : r.surveys[survey]? = some s) (hr : s.recent = none) :
    (r.read loop id slot key).surveys[survey]? = some s ∨ ∃ b, id = survey ∧
      r.board? key loop = some b ∧ (r.read loop id slot key).surveys[survey]? =
        some { s with replies := s.replies.set slot (.answered b.snapshot) } := by
  unfold Runner.read
  split
  · rename_i s' b hs' hb
    by_cases he : id = survey
    · subst he
      cases hs.symm.trans hs'
      rw [hr]
      refine .inr ⟨b, rfl, hb, ?_⟩
      simp [answerSurvey, hs, hr]
    · refine .inl ?_
      split
      · simp [answerSurvey, he, hs]
      · simp [answerSurvey, he, hs, modifyBoard, Runner.modifyGroup]
  · exact .inl hs

/-- A loop reads the buckets that the survey has asked it for, or those of another survey. -/
theorem Asked.read (a : Asked base r survey places) (k : ∃ es, Course base es r) {loop id slot : Nat}
    {key : String} {loops : LoopGroup Task} {es : List Happening} (o : r.Fenced)
    (next : r.loops.next? loop = some (.read id slot key, loops))
    (step : Course r es ({ r with loops := loops }.read loop id slot key)) :
    Asked base ({ r with loops := loops }.read loop id slot key) survey places := by
  have taken := taken_of_next? o.prompt next rfl
  obtain ⟨s, hq, hr, hl, ha⟩ := a.replies
  have orders : ∀ other m name, .read survey m name ∈
      ({ r with loops := loops }.read loop id slot key).orders other →
      .read survey m name ∈ r.orders other := by
    intro other m name hm
    obtain ⟨groups, surveys, he, _⟩ := read_eq loop id slot key { r with loops := loops }
    rw [he] at hm
    exact taken.mem hm
  rcases read_surveys loop id slot key { r with loops := loops } hq hr with hs | ⟨b, rfl, hb, hs⟩
  · exact a.later step (hs.trans hq.symm) orders
  · refine ⟨⟨_, hs, hr, by rw [List.length_set]; exact hl, fun m snaps hm => ?_⟩,
      fun other m name hm => a.orders other m name (orders other m name hm)⟩
    by_cases he : slot = m
    · subst he
      have place := a.orders loop slot key (by rw [taken.first]; exact List.mem_cons_self)
      have inside : slot < s.replies.length := by
        rw [hl]
        exact (List.getElem?_eq_some_iff.mp place).1
      rw [List.getElem?_set_self inside] at hm
      cases hm
      exact ⟨key, loop, r, b, place, ⟨k, ⟨_, step⟩, hb⟩, rfl⟩
    · rw [List.getElem?_set_ne he] at hm
      obtain ⟨name, other, q, c, hp, reading, hc⟩ := ha m snaps hm
      exact ⟨name, other, q, c, hp, reading.later step, hc⟩

theorem Asked.passage (a : Asked base r survey places) (k : ∃ es, Course base es r) (o : r.Fenced)
    (hr : r.loops.Running) (hs : 0 < r.loops.size) {e : Happening} (h : Passage r e r')
    (step : Course r [e] r') : Asked base r' survey places := by
  obtain ⟨s, hq, _⟩ := a.replies
  have known : survey < r.surveys.length := (List.getElem?_eq_some_iff.mp hq).1
  have orders : ∀ loop slot key, .read survey slot key ∈ r'.orders loop →
      .read survey slot key ∈ r.orders loop := by
    intro loop slot key hm
    rcases (h.errands o.prompt hr hs).2 loop _ rfl hm with hm | ⟨_, _, _, he⟩ | ⟨_, _, he, _⟩
    · exact hm
    · cases he
      omega
    · cases he
  cases h with
  | survey recent =>
    refine a.later step ?_ orders
    obtain ⟨loops, he⟩ := beginSurvey_eq r recent
    rw [he]
    exact List.getElem?_append_left known
  | pruning =>
    refine a.later step ?_ orders
    obtain ⟨loops, he⟩ := beginPruning_eq r
    rw [he]
  | @order loop t loops next ht =>
    by_cases hread : ∃ id slot key, t = .read id slot key
    · obtain ⟨id, slot, key, rfl⟩ := hread
      exact a.read k o next step
    · have same := (taken_of_next? o.prompt next ht).unasked.trans
        (unasked_order loop _ ht fun id slot key he => hread ⟨id, slot, key, he⟩)
      exact a.later step (by rw [same.surveys]) orders
  | stages _ h => exact a.later step (by rw [(h.unasked hr hs).surveys]) orders

end Survey

theorem Errands.asked {r : Runner} (d : r.Errands) : Asked (r.beginSurvey none).2
    (r.beginSurvey none).2 r.surveys.length r.surveyPlaces where
  replies := by
    obtain ⟨loops, he⟩ := beginSurvey_eq r none
    rw [he]
    refine ⟨_, List.getElem?_concat_length, rfl, List.length_map .., fun slot snaps hg => ?_⟩
    rw [List.getElem?_map] at hg
    obtain ⟨⟨key, loop⟩, _, hg⟩ := Option.map_eq_some_iff.mp hg
    dsimp only at hg
    split at hg <;> cases hg
  orders := by
    intro loop slot key hm
    rcases orders_mem_beginSurvey hm with hm | ⟨slot', key', he, hp⟩
    · have := d.begun loop _ slot key hm
      omega
    · cases he
      exact hp

theorem Course.asked {r₀ rb r : Runner} {es es' : List Happening} (h₀ : r₀.Initial)
    (hl : r₀.listening = true) (h : Course r₀ es rb)
    (k : Course (rb.beginSurvey none).2 es' r) :
    Asked (rb.beginSurvey none).2 r rb.surveys.length rb.surveyPlaces := by
  have begun := h.next (e := .beginSurvey none) trivial rfl
  induction k with
  | refl => exact (h.errands h₀ hl).asked
  | next hc ha he ih =>
    have whole := begun.trans hc
    have o := whole.owned h₀
    exact ih.passage ⟨_, hc⟩ (whole.fenced h₀) o.running o.size
      ((change_of_after ha he).passage o) (.one ha he)

end LoadGen.Runner
