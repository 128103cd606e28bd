import LoadGen.Proofs.SurveyOrders

namespace LoadGen.Runner

/-- Every bucket of the phase is still there, with all that was counted in it. -/
def Keeps (r r' : Runner) (phase : String) : Prop :=
  ∀ key loop b, r.board? key loop = some b → ∃ b', r'.board? key loop = some b' ∧
    ∀ metric c, b.Holds phase metric c → ∃ c', b'.Holds phase metric c' ∧ Bucket.Counted c c'

/-- The end of the phase was announced, and the phase does not wait any more. -/
def Gone (r : Runner) (phase : String) : Prop := phase ∈ r.ended ∧ phase ∉ r.pruneQueue

def Unpruned (r : Runner) (phase : String) : Prop := ∀ loop key, .prune key phase ∉ r.orders loop

section Keeps
variable {r r₁ r₂ r' : Runner} {phase : String}

theorem Keeps.refl (r : Runner) (phase : String) : Keeps r r phase :=
  fun _ _ b hb => ⟨b, hb, fun _ c hc => ⟨c, hc, .refl c⟩⟩

theorem Keeps.trans (h : Keeps r r₁ phase) (k : Keeps r₁ r₂ phase) : Keeps r r₂ phase := by
  intro key loop b hb
  obtain ⟨b₁, hb₁, h⟩ := h key loop b hb
  obtain ⟨b₂, hb₂, k⟩ := k key loop b₁ hb₁
  refine ⟨b₂, hb₂, fun metric c hc => ?_⟩
  obtain ⟨c₁, hc₁, h⟩ := h metric c hc
  obtain ⟨c₂, hc₂, k⟩ := k metric c₁ hc₁
  exact ⟨c₂, hc₂, h.trans k⟩

theorem SameEnds.keeps (h : SameEnds r r') (phase : String) : Keeps r r' phase :=
  fun key loop b hb =>
    ⟨b, (h.boards key loop).trans hb, fun _ c hc => ⟨c, hc, .refl c⟩⟩

theorem keeps_modifyBoard {key : String} {loop : Nat} {f : Board → Board}
    (hf : ∀ b, r.board? key loop = some b → ∀ metric c, b.Holds phase metric c →
      ∃ c', (f b).Holds phase metric c' ∧ Bucket.Counted c c') :
    Keeps r (r.modifyBoard key loop f) phase := by
  intro key' loop' b hb
  rw [board?_modifyBoard, hb]
  split
  · rename_i he
    obtain ⟨rfl, rfl⟩ := he
    exact ⟨f b, rfl, hf b hb⟩
  · exact ⟨b, rfl, fun _ c hc => ⟨c, hc, .refl c⟩⟩

theorem Wave.keeps (m : r.Measured) (h : Wave r r') (phase : String) : Keeps r r' phase := by
  cases h with
  | same h => exact h.keeps phase
  | grow h =>
    apply keeps_modifyBoard
    intro b hb metric c hc
    obtain ⟨c', hc', hg⟩ := (h b hb).forth phase metric c hc
    exact ⟨c', hc', hg.counted⟩
  | ensure loop metric =>
    exact keeps_modifyBoard fun b _ m c hc => ⟨c, b.holds_ensure_of_holds _ metric r.now hc, .refl c⟩
  | @ends _ spot f h =>
    intro key loop b hb
    rw [h.boards key loop (m.placed key loop b hb).1, hb]
    split
    · refine ⟨_, rfl, fun metric c hc => ?_⟩
      obtain ⟨c', hc', he⟩ := (b.mapped_finish f.phase f.time).forth phase metric c hc
      refine ⟨c', hc', ?_⟩
      rw [he]
      split
      · exact ⟨[], c.total.since, rfl⟩
      · exact .refl c
    · exact ⟨b, rfl, fun _ c hc => ⟨c, hc, .refl c⟩⟩

theorem Waves.keeps (m : r.Measured) (h : Waves r r') (phase : String) : Keeps r r' phase := by
  induction h with
  | refl => exact .refl r phase
  | tail hs h ih => exact ih.trans (h.keeps (m.waves hs) phase)

theorem keeps_prune (r : Runner) (key : String) (loop : Nat) {other : String} (h : phase ≠ other) :
    Keeps r (r.modifyBoard key loop (·.prune other)) phase :=
  keeps_modifyBoard fun _ _ _ c hc => ⟨c, Board.holds_prune.mpr ⟨hc, h⟩, .refl c⟩

theorem Passage.keeps (o : r.Fenced) (m : r.Measured) (hr : r.loops.Running)
    (hs : 0 < r.loops.size) {e : Happening} (h : Passage r e r') (hn : r.Unpruned phase) :
    Keeps r r' phase := by
  rcases h.waves o m.alone hr hs with h | ⟨loop, group, other, loops, next, same, rfl⟩
  · exact h.keeps m phase
  · refine (same.keeps phase).trans (keeps_prune _ group loop ?_)
    intro same
    subst same
    apply hn loop group
    rw [(taken_of_next? o.prompt next rfl).first]
    exact List.mem_cons_self

end Keeps

/-- Every bucket of the phase was there before. -/
def Contained (r r' : Runner) (phase : String) : Prop :=
  ∀ key loop b', r'.board? key loop = some b' → ∃ b, r.board? key loop = some b ∧
    ∀ metric c', b'.Holds phase metric c' → ∃ c, b.Holds phase metric c

section Contained
variable {r r₁ r₂ r' : Runner} {phase : String}

theorem Contained.refl (r : Runner) (phase : String) : Contained r r phase :=
  fun _ _ b hb => ⟨b, hb, fun _ c hc => ⟨c, hc⟩⟩

theorem Contained.trans (h : Contained r r₁ phase) (k : Contained r₁ r₂ phase) :
    Contained r r₂ phase := by
  intro key loop b₂ hb₂
  obtain ⟨b₁, hb₁, k⟩ := k key loop b₂ hb₂
  obtain ⟨b, hb, h⟩ := h key loop b₁ hb₁
  refine ⟨b, hb, fun metric c₂ hc₂ => ?_⟩
  obtain ⟨c₁, hc₁⟩ := k metric c₂ hc₂
  exact h metric c₁ hc₁

theorem SameEnds.contained (h : SameEnds r r') (phase : String) : Contained r r' phase :=
  fun key loop b' hb' => ⟨b', (h.boards key loop).symm.trans hb', fun _ c hc => ⟨c, hc⟩⟩

theorem contained_modifyBoard {key : String} {loop : Nat} {f : Board → Board}
    (hf : ∀ b, r.board? key loop = some b → ∀ metric c', (f b).Holds phase metric c' →
      ∃ c, b.Holds phase metric c) : Contained r (r.modifyBoard key loop f) phase := by
  intro key' loop' b' hb'
  rcases board?_modifyBoard_cases hb' with ⟨rfl, rfl, b, hb, rfl⟩ | hb
  · exact ⟨b, hb, hf b hb⟩
  · exact ⟨b', hb, fun _ c hc => ⟨c, hc⟩⟩

theorem Wave.contained (m : r.Measured) (h : Wave r r') {loop : Nat} {time : Nat}
    (he : r.EndedOn loop phase time) : Contained r r' phase := by
  cases h with
  | same h => exact h.contained phase
  | grow h =>
    apply contained_modifyBoard
    intro b hb metric c' hc'
    obtain ⟨c, hc, _⟩ := (h b hb).back phase metric c' hc'
    exact ⟨c, hc⟩
  | ensure place metric hk hn =>
    apply contained_modifyBoard
    intro b hb name c' hc'
    rcases Board.holds_ensure hc' with hc | ⟨rfl, _, _⟩
    · exact ⟨c', hc⟩
    · exact absurd he (not_endedOn hn loop time)
  | ends h =>
    intro key place b' hb'
    obtain ⟨b, hb, _, _, back⟩ := m.board_before h hb'
    refine ⟨b, hb, fun metric c' hc' => ?_⟩
    obtain ⟨c, hc, _⟩ := back phase metric c' hc'
    exact ⟨c, hc⟩

theorem Waves.contained (m : r.Measured) (h : Waves r r') {loop : Nat} {time : Nat}
    (hl : loop < r.loops.size) (he : r.EndedOn loop phase time) : Contained r r' phase := by
  induction h with
  | refl => exact .refl r phase
  | tail hs h ih =>
    exact ih.trans (h.contained (m.waves hs) ((Waves.lasting hs).endedOn loop hl phase time he))

theorem Passage.contained (o : r.Fenced) (m : r.Measured) (hr : r.loops.Running)
    (hs : 0 < r.loops.size) {e : Happening} (h : Passage r e r') {time : Nat}
    (he : r.EndedOn 0 phase time) : Contained r r' phase := by
  rcases h.waves o m.alone hr hs with h | ⟨loop, group, other, loops, _, same, rfl⟩
  · exact h.contained m hs he
  · refine (same.contained phase).trans (contained_modifyBoard fun b _ metric c' hc' => ?_)
    exact ⟨c', (Board.holds_prune.mp hc').1⟩

end Contained

section Gone
variable {r₀ r r' : Runner} {es es' : List Happening}

theorem Told.gone {e : Happening} {news : List (String × Notice)} {phase : String}
    (h : Told r e r' news) (once : r'.ended.count phase ≤ 1) (hg : r.Gone phase) :
    r'.Gone phase := by
  obtain ⟨ended, waiting⟩ := hg
  have grown : r'.ended = r.ended ++ endings news := by
    rw [Runner.ended, h.notices, endings_append, Runner.ended]
  rw [grown, List.count_append] at once
  have before := List.count_pos_iff.mpr ended
  have none : phase ∉ endings news := List.count_eq_zero.mp (by omega)
  refine ⟨by rw [grown]; exact List.mem_append_left _ ended, fun hq => ?_⟩
  rw [h.pruneQueue] at hq
  rcases List.mem_append.mp hq with hq | hq
  · cases e with
    | beginPruning => cases hq
    | _ => exact waiting hq
  · exact none hq

theorem Course.gone (h₀ : r₀.Initial) (hl : r₀.listening = true) (h : Course r₀ es r)
    (k : Course r es' r') {phase key : String} (hk : r.keyOf phase = some key)
    (hg : r.Gone phase) : r'.Gone phase := by
  induction k with
  | refl => exact hg
  | @next _ _ q q' hc ha he ih =>
    have whole := h.trans hc
    have o := whole.owned h₀
    have step := hc.next ha he
    obtain ⟨news, told⟩ := ((change_of_after ha he).passage o).told o.running o.size
      ((whole.listening h₀).trans hl)
    refine told.gone (((h.trans step).fenced h₀).told phase key ?_) ih
    rw [(h.lasting h₀ step).keys]
    exact hk

theorem Course.unpruned (h₀ : r₀.Initial) (hl : r₀.listening = true) (h : Course r₀ es r)
    {phase key : String} (hk : r.keyOf phase = some key) (hg : ¬ r.Gone phase) :
    r.Unpruned phase := by
  intro loop group hm
  have ended := (h.errands h₀ hl).ended phase (.inr ⟨loop, group, hm⟩)
  have waits : phase ∈ r.pruneQueue := Decidable.not_not.mp fun hn => hg ⟨ended, hn⟩
  exact ((h.fenced h₀).waiting phase key hk waits).2 loop group hm

/-- As long as a phase waits to be pruned, or has not ended, nothing is lost. -/
theorem Course.keeps (h₀ : r₀.Initial) (hl : r₀.listening = true) (h : Course r₀ es r)
    (k : Course r es' r') {phase key : String} (hk : r.keyOf phase = some key)
    (hg : ¬ r'.Gone phase) : Keeps r r' phase := by
  induction k with
  | refl => exact .refl r phase
  | @next _ _ q q' hc ha he ih =>
    have whole := h.trans hc
    have o := whole.owned h₀
    have hk' : q.keyOf phase = some key := by
      rw [(h.lasting h₀ hc).keys]
      exact hk
    have there : ¬ q.Gone phase := fun hgone => hg (whole.gone h₀ hl (.one ha he) hk' hgone)
    exact (ih there).trans (((change_of_after ha he).passage o).keeps (whole.fenced h₀)
      (whole.measured h₀) o.running o.size (whole.unpruned h₀ hl hk' there))

theorem Course.contained (h₀ : r₀.Initial) (h : Course r₀ es r) (k : Course r es' r')
    {phase key : String} (hk : r.keyOf phase = some key) (he : phase ∈ r.ended) :
    Contained r r' phase := by
  have fenced := h.fenced h₀
  obtain ⟨time, ended⟩ := fenced.endedOn (fenced.seen phase key hk (.inr (.inr he)))
  induction k with
  | refl => exact .refl r phase
  | next hc ha hstep ih =>
    have whole := h.trans hc
    have o := whole.owned h₀
    have lasting := h.lasting h₀ hc
    exact ih.trans (((change_of_after ha hstep).passage o).contained (whole.fenced h₀)
      (whole.measured h₀) o.running o.size
      (lasting.endedOn 0 (h.owned h₀).size phase time (ended 0)))

end Gone

end LoadGen.Runner
