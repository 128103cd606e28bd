import LoadGen.Proofs.BucketEffects

namespace LoadGen.Runner

/-- Where the buckets are, and which of them have ended. -/
structure Measured (r : Runner) : Prop where
  placed : ∀ key loop b, r.board? key loop = some b → loop < r.loops.size ∧ b.executor = loop
  home : ∀ key loop b, r.board? key loop = some b → ∀ phase metric c,
    b.Holds phase metric c → r.keyOf phase = some key
  alone : r.Alone
  stops : ∀ key loop b, r.board? key loop = some b → ∀ phase metric c,
    b.Holds phase metric c → ∀ time, c.stop = some time ↔ r.EndedOn loop phase time

namespace Measured
variable {r r' : Runner}

theorem same (m : r.Measured) (h : SameEnds r r') : r'.Measured where
  placed := by
    intro key loop b hb
    rw [h.boards] at hb
    rw [h.size]
    exact m.placed key loop b hb
  home := by
    intro key loop b hb phase metric c hc
    rw [h.boards] at hb
    rw [h.keys]
    exact m.home key loop b hb phase metric c hc
  alone := h.alone m.alone
  stops := by
    intro key loop b hb phase metric c hc time
    rw [h.boards] at hb
    rw [h.endedOn]
    exact m.stops key loop b hb phase metric c hc time

/-- A board changes, and its buckets end when they did, apart from new ones that have not ended. -/
theorem modifyBoard (m : r.Measured) {key : String} {loop : Nat} {f : Board → Board}
    (hx : ∀ b, r.board? key loop = some b → (f b).executor = b.executor)
    (hf : ∀ b, r.board? key loop = some b → ∀ phase metric c, (f b).Holds phase metric c →
      (∃ c₀, b.Holds phase metric c₀ ∧ c.stop = c₀.stop) ∨
        (r.keyOf phase = some key ∧ c.stop = none ∧ ∀ time, ¬ r.EndedOn loop phase time)) :
    (r.modifyBoard key loop f).Measured where
  placed := by
    intro key' loop' b' hb'
    rcases board?_modifyBoard_cases hb' with ⟨rfl, rfl, b, hb, rfl⟩ | hb
    · rw [hx b hb]
      exact m.placed key' loop' b hb
    · exact m.placed key' loop' b' hb
  home := by
    intro key' loop' b' hb' phase metric c hc
    rcases board?_modifyBoard_cases hb' with ⟨rfl, rfl, b, hb, rfl⟩ | hb
    · rcases hf b hb phase metric c hc with ⟨c₀, hc₀, _⟩ | ⟨hk, _⟩
      · exact m.home key' loop' b hb phase metric c₀ hc₀
      · exact hk
    · exact m.home key' loop' b' hb phase metric c hc
  alone := m.alone
  stops := by
    intro key' loop' b' hb' phase metric c hc time
    rcases board?_modifyBoard_cases hb' with ⟨rfl, rfl, b, hb, rfl⟩ | hb
    · rcases hf b hb phase metric c hc with ⟨c₀, hc₀, he⟩ | ⟨_, he, hn⟩
      · rw [he]
        exact m.stops key' loop' b hb phase metric c₀ hc₀ time
      · have unended : ¬ EndedOn (r.modifyBoard key' loop' f) loop' phase time := hn time
        simp [he, unended]
    · exact m.stops key' loop' b' hb phase metric c hc time

/-- The board as it was before a phase ended, and its buckets as they were. -/
theorem board_before (m : r.Measured) {spot : Option Nat} {f : Fence} (h : Ends r r' spot f)
    {key : String} {loop : Nat} {b' : Board} (hb' : r'.board? key loop = some b') :
    ∃ b, r.board? key loop = some b ∧ loop < r.loops.size ∧ b'.executor = b.executor ∧
      ∀ phase metric c', b'.Holds phase metric c' → ∃ c, b.Holds phase metric c ∧
        c' = if spot = some loop ∧ phase = f.phase then c.finish f.time else c := by
  cases hb : r.board? key loop with
  | none =>
    rw [h.absent key loop hb] at hb'
    cases hb'
  | some b =>
    have hl := (m.placed key loop b hb).1
    rw [h.boards key loop hl, hb] at hb'
    refine ⟨b, rfl, hl, ?_⟩
    split at hb'
    · rename_i he
      cases hb'
      have mapped := b.mapped_finish f.phase f.time
      refine ⟨mapped.executor, fun phase metric c' hc' => ?_⟩
      obtain ⟨c, hc, hr⟩ := mapped.back phase metric c' hc'
      exact ⟨c, hc, by rw [hr]; simp [he.2]⟩
    · rename_i hn
      cases hb'
      refine ⟨rfl, fun phase metric c' hc' => ⟨c', hc', (if_neg fun he => ?_).symm⟩⟩
      obtain ⟨hs, rfl⟩ := he
      have hk := (m.home key loop b' hb _ metric c' hc').symm.trans h.group
      exact hn ⟨Option.some.inj hk, hs⟩

theorem ends (m : r.Measured) {spot : Option Nat} {f : Fence} (h : Ends r r' spot f) :
    r'.Measured where
  placed := by
    intro key loop b' hb'
    obtain ⟨b, hb, _, hx, _⟩ := m.board_before h hb'
    rw [h.size, hx]
    exact m.placed key loop b hb
  home := by
    intro key loop b' hb' phase metric c' hc'
    obtain ⟨b, hb, _, _, back⟩ := m.board_before h hb'
    obtain ⟨c, hc, _⟩ := back phase metric c' hc'
    rw [h.keys]
    exact m.home key loop b hb phase metric c hc
  alone := h.alone m.alone
  stops := by
    intro key loop b' hb' phase metric c' hc' time
    obtain ⟨b, hb, hl, _, back⟩ := m.board_before h hb'
    obtain ⟨c, hc, rfl⟩ := back phase metric c' hc'
    rw [h.endedOn loop hl]
    split
    · rename_i he
      obtain ⟨hs, rfl⟩ := he
      have hn := h.fresh loop hl hs time
      simp [Bucket.finish, hs, hn, eq_comm]
    · rename_i hn
      rw [m.stops key loop b hb phase metric c hc]
      exact ⟨.inl, fun h => h.resolve_right fun h => hn ⟨h.1, h.2.1⟩⟩

theorem wave (m : r.Measured) (h : Wave r r') : r'.Measured := by
  cases h with
  | same h => exact m.same h
  | grow h =>
    apply m.modifyBoard (fun b hb => (h b hb).executor)
    intro b hb phase metric c hc
    obtain ⟨c₀, hc₀, hg⟩ := (h b hb).back phase metric c hc
    exact .inl ⟨c₀, hc₀, hg.stop⟩
  | @ensure phase key loop metric hk hn =>
    refine m.modifyBoard (fun _ _ => rfl) fun b hb name m c hc => ?_
    rcases Board.holds_ensure hc with hc | ⟨rfl, _, hs⟩
    · exact .inl ⟨c, hc, rfl⟩
    · exact .inr ⟨hk, hs, not_endedOn hn loop⟩
  | ends h => exact m.ends h

theorem waves (m : r.Measured) (h : Waves r r') : r'.Measured := by
  induction h with
  | refl => exact m
  | tail _ h ih => exact ih.wave h

theorem prune (m : r.Measured) (key : String) (loop : Nat) (phase : String) :
    (r.modifyBoard key loop (·.prune phase)).Measured :=
  m.modifyBoard (fun _ _ => rfl) fun _ _ _ _ c hc => .inl ⟨c, (Board.holds_prune.mp hc).1, rfl⟩

end Measured

/-- The phases keep their keys, and what the loops have ended stays so. -/
structure Lasting (r r' : Runner) : Prop where
  size : r'.loops.size = r.loops.size
  groups : r'.groups.keys = r.groups.keys
  keys : ∀ phase, r'.keyOf phase = r.keyOf phase
  endedOn : ∀ loop < r.loops.size, ∀ phase time, r.EndedOn loop phase time →
    r'.EndedOn loop phase time

theorem Lasting.refl (r : Runner) : Lasting r r := ⟨rfl, rfl, fun _ => rfl, fun _ _ _ _ => id⟩

theorem Lasting.trans {r₁ r₂ r₃ : Runner} (h : Lasting r₁ r₂) (k : Lasting r₂ r₃) :
    Lasting r₁ r₃ where
  size := k.size.trans h.size
  groups := k.groups.trans h.groups
  keys := fun phase => (k.keys phase).trans (h.keys phase)
  endedOn := fun loop hl phase time ended =>
    k.endedOn loop (by rw [h.size]; exact hl) phase time (h.endedOn loop hl phase time ended)

theorem SameEnds.lasting {r r' : Runner} (h : SameEnds r r') : Lasting r r' :=
  ⟨h.size, h.groups, h.keys, fun loop _ phase time => (h.endedOn loop phase time).mpr⟩

theorem lasting_modifyBoard (r : Runner) (key : String) (loop : Nat) (f : Board → Board) :
    Lasting r (r.modifyBoard key loop f) :=
  ⟨rfl, Dict.keys_modify .., fun _ => rfl, fun _ _ _ _ => id⟩

theorem Wave.lasting {r r' : Runner} (h : Wave r r') : Lasting r r' := by
  cases h with
  | same h => exact h.lasting
  | grow => exact lasting_modifyBoard ..
  | ensure => exact lasting_modifyBoard ..
  | ends h =>
    exact ⟨h.size, h.groups, h.keys, fun loop hl phase time ended =>
      (h.endedOn loop hl phase time).mpr (.inl ended)⟩

theorem Waves.lasting {r r' : Runner} (h : Waves r r') : Lasting r r' := by
  induction h with
  | refl => exact .refl r
  | tail _ h ih => exact ih.trans h.lasting

section Passages
variable {r r' : Runner}

theorem Stages.waves (o : r.Fenced) (hr : r.loops.Running) (hs : 0 < r.loops.size)
    (h : Stages r r') : r'.Fenced ∧ Waves r r' :=
  (h.keep (I := fun q => q.Fenced ∧ Waves r q) hr hs ⟨o, .refl⟩
    fun hr hs hi h => ⟨hi.1.stage hr hs h, hi.2.trans (h.waves hi.1 hr)⟩).1

theorem Passage.waves (o : r.Fenced) (ha : r.Alone) (hr : r.loops.Running) (hs : 0 < r.loops.size)
    {e : Happening} (h : Passage r e r') : Waves r r' ∨ ∃ loop group phase loops,
      r.loops.next? loop = some (.prune group phase, loops) ∧
        SameEnds r { r with loops := loops } ∧
        r' = { r with loops := loops }.modifyBoard group loop (·.prune phase) := by
  cases h with
  | survey recent => exact .inl (.single (.same (ends_beginSurvey r recent)))
  | pruning => exact .inl (.single (.same (ends_beginPruning r)))
  | @order loop t loops hn ht =>
    by_cases hp : ∃ group phase, t = .prune group phase
    · obtain ⟨group, phase, rfl⟩ := hp
      have taken := taken_of_next? o.prompt hn ht
      exact .inr ⟨loop, group, phase, loops, hn, taken.ends (by simp), rfl⟩
    · exact .inl (waves_order o ha hn ht fun group phase he => hp ⟨group, phase, he⟩)
  | stages _ h => exact .inl (h.waves o hr hs).2

theorem Passage.lasting (o : r.Fenced) (ha : r.Alone) (hr : r.loops.Running)
    (hs : 0 < r.loops.size) {e : Happening} (h : Passage r e r') : Lasting r r' := by
  rcases h.waves o ha hr hs with h | ⟨loop, group, phase, loops, _, same, rfl⟩
  · exact h.lasting
  · exact same.lasting.trans (lasting_modifyBoard ..)

theorem Measured.passage (m : r.Measured) (o : r.Fenced) (hr : r.loops.Running)
    (hs : 0 < r.loops.size) {e : Happening} (h : Passage r e r') : r'.Measured := by
  rcases h.waves o m.alone hr hs with h | ⟨loop, group, phase, loops, _, same, rfl⟩
  · exact m.waves h
  · exact (m.same same).prune group loop phase

end Passages

theorem Fresh.board {r : Runner} (h : r.Fresh) {key : String} {loop : Nat} {b : Board}
    (hb : r.board? key loop = some b) : loop < r.loops.size ∧ b = { executor := loop } := by
  obtain ⟨g, hg, hb⟩ := Option.bind_eq_some_iff.mp hb
  rw [h.groups key g hg, newGroup, List.getElem?_map] at hb
  obtain ⟨n, hn, rfl⟩ := Option.map_eq_some_iff.mp hb
  obtain ⟨hl, rfl⟩ := List.getElem?_eq_some_iff.mp hn
  simp only [List.length_range] at hl
  exact ⟨hl, by rw [List.getElem_range]⟩

theorem Fresh.board?_isSome {r : Runner} (h : r.Fresh) {key : String} (hk : key ∈ r.groups.keys)
    {loop : Nat} (hl : loop < r.loops.size) : (r.board? key loop).isSome := by
  obtain ⟨g, hg⟩ := Option.isSome_iff_exists.mp (Dict.get?_isSome_of_mem_keys hk)
  rw [board?, hg, Option.bind_some, h.groups key g hg]
  simp [newGroup, hl]

theorem Fresh.measured {r : Runner} (h : r.Fresh) : r.Measured := by
  have empty : ∀ key loop b, r.board? key loop = some b → ∀ phase metric c,
      ¬ b.Holds phase metric c := by
    intro key loop b hb phase metric c hc
    obtain ⟨p, hp, _⟩ := hc
    rw [(h.board hb).2] at hp
    cases hp
  exact {
    placed := by
      intro key loop b hb
      obtain ⟨hl, rfl⟩ := h.board hb
      exact ⟨hl, rfl⟩
    home := fun key loop b hb phase metric c hc => absurd hc (empty key loop b hb phase metric c)
    alone := by
      intro loop fence
      simp [h.orders]
    stops := fun key loop b hb phase metric c hc => absurd hc (empty key loop b hb phase metric c) }

theorem Course.measured {r₀ r : Runner} {es : List Happening} (h₀ : r₀.Initial)
    (h : Course r₀ es r) : r.Measured := by
  induction h with
  | refl => exact (fresh_of_initial h₀).measured
  | next hc ha he ih =>
    have o := hc.owned h₀
    exact ih.passage (hc.fenced h₀) o.running o.size ((change_of_after ha he).passage o)

theorem Course.lasting {r₀ r r' : Runner} {es es' : List Happening} (h₀ : r₀.Initial)
    (h : Course r₀ es r) (k : Course r es' r') : Lasting r r' := by
  induction k with
  | refl => exact .refl r
  | next hc ha he ih =>
    have whole := h.trans hc
    have o := whole.owned h₀
    exact ih.trans (((change_of_after ha he).passage o).lasting (whole.fenced h₀)
      (whole.measured h₀).alone o.running o.size)

end LoadGen.Runner
