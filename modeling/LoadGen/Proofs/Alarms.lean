import LoadGen.Proofs.Loops

namespace LoadGen

namespace EventLoop
variable {τ : Type}

/-- The tasks that a loop has, each with the timer that holds it or has queued it. -/
def held (l : EventLoop τ) : List (Option Nat × τ) :=
  l.timers.map (fun m => (some m.id, m.task)) ++ l.queue.map fun q => (q.timer, q.task)

theorem held_fire (l : EventLoop τ) : l.fire.held.Perm l.held := by
  let entry (m : Timer τ) : Option Nat × τ := (some m.id, m.task)
  have sorted : (fireOrder (l.timers.filter l.passed)).Perm (l.timers.filter l.passed) :=
    List.mergeSort_perm ..
  have whole : (l.timers.filter l.passed ++ l.timers.filter fun m => !l.passed m).Perm l.timers :=
    List.filter_append_perm ..
  have queued : l.fire.held = (l.timers.filter fun m => !l.passed m).map entry ++
      (l.queue.map (fun q => (q.timer, q.task)) ++
        (fireOrder (l.timers.filter l.passed)).map entry) := by
    simp [held, fire, entry, Function.comp_def]
  rw [queued, held]
  refine (List.perm_append_comm.append_left _).trans ?_
  rw [← List.append_assoc]
  refine List.Perm.append_right _ ?_
  rw [← List.map_append]
  exact ((List.perm_append_comm.trans (sorted.append_right _)).trans whole).map entry

/-- A timer that is alone on its loop queues its task once the clock passes its time. -/
theorem advance_of_timers_eq {l : EventLoop τ} {m : Timer τ} {time : Duration}
    (hc : l.closed = false) (ht : l.timers = [m])
    (hd : m.due.nanos < l.clock.nanos + time.nanos) : l.advance time =
      { l with
        clock := ⟨l.clock.nanos + time.nanos⟩
        queue := l.queue ++ [⟨some m.id, m.task⟩]
        timers := [] } := by
  simp [advance, fire, fireOrder, passed, hc, ht, hd]

variable [DecidableEq τ]

/-- The timers under which a task waits; none for each time that it was posted. -/
def waits (l : EventLoop τ) (t : τ) : List (Option Nat) := (l.held.filter (·.2 = t)).map (·.1)

variable {l m : EventLoop τ} {t u : τ}

theorem waits_push (l : EventLoop τ) (h : u ≠ t) : (l.push u).waits t = l.waits t := by
  unfold push
  split
  · rfl
  · simp [waits, held, h]

theorem waits_armAt_of_ne (l : EventLoop τ) (due : Duration) (h : u ≠ t) :
    (l.armAt due u).2.waits t = l.waits t := by
  unfold armAt waits held
  dsimp only
  split
  · rfl
  · simp [h]

theorem waits_armAt (hc : l.closed = false) (due : Duration) (t : τ) :
    ((l.armAt due t).2.waits t).Perm (some l.armed :: l.waits t) := by
  simp only [waits, held, armAt, hc, Bool.false_eq_true, if_false, List.map_append, List.map_cons,
    List.map_nil, List.filter_append, List.append_assoc]
  simp

theorem waits_disarm (l : EventLoop τ) (k : Nat) (t : τ) :
    (l.disarm k).waits t = (l.waits t).filter (· != some k) := by
  simp only [waits, held, disarm, List.filter_append, List.map_append, List.filter_map,
    List.filter_filter, List.map_map, Function.comp_def]
  congr 2
  · refine List.filter_congr fun x _ => ?_
    rw [Bool.and_comm]
    simp [bne]
  · refine List.filter_congr fun x _ => ?_
    rw [Bool.and_comm]

theorem waits_advance (l : EventLoop τ) (time : Duration) (t : τ) :
    ((l.advance time).waits t).Perm (l.waits t) := by
  unfold advance
  split
  · exact .refl _
  · exact ((held_fire _).filter _).map _

/-- What a loop takes out does not wait any more; the other tasks wait as before. -/
theorem waits_of_next? (h : l.next? = some (u, m)) :
    (u ≠ t → m.waits t = l.waits t) ∧ (u = t → ∃ k, (l.waits t).Perm (k :: m.waits t)) := by
  unfold next? at h
  split at h
  · cases h
  · rename_i q rest hq
    cases h
    constructor
    · intro hn
      simp [waits, held, hq, hn]
    · intro he
      exact ⟨q.timer, by simp [waits, held, hq, he]⟩

end EventLoop

namespace LoopGroup
variable {τ : Type}

/-- How many timers one loop has armed so far; the next one gets this number. -/
def armed (g : LoopGroup τ) (i : Nat) : Nat := ((g.loops[i]?).map (·.armed)).getD 0

theorem arm_fst {g : LoopGroup τ} {i : Nat} (hi : i < g.size) (delay : Duration) (t : τ) :
    (g.arm i delay t).1 = g.armed i ∧ ((g.arm i delay t).2).armed i = g.armed i + 1 := by
  have hl : g.loops[i]? = some g.loops[i] := List.getElem?_eq_getElem hi
  constructor
  · simp only [arm, armed, hl]
    rfl
  · simp only [arm_snd, armed, getElem?_modify, hl]
    rfl

theorem loops_of_next? {g g' : LoopGroup τ} {i : Nat} {u : τ} (h : g.next? i = some (u, g')) :
    ∃ l m, g.loops[i]? = some l ∧ l.next? = some (u, m) ∧
      ∀ j : Nat, g'.loops[j]? = if i = j then some m else g.loops[j]? := by
  unfold next? at h
  split at h
  · cases h
  · rename_i l hl
    obtain ⟨⟨v, m⟩, hn, he⟩ := Option.map_eq_some_iff.mp h
    cases he
    refine ⟨l, m, hl, hn, fun j => ?_⟩
    have inside := (List.getElem?_eq_some_iff.mp hl).1
    rw [List.getElem?_set]
    simp [inside]

theorem armed_next? {g g' : LoopGroup τ} {i : Nat} {u : τ} (h : g.next? i = some (u, g'))
    (j : Nat) : g'.armed j = g.armed j := by
  obtain ⟨l, m, hl, hn, hg⟩ := loops_of_next? h
  rw [armed, armed, hg]
  split
  · rename_i he
    subst he
    rw [hl]
    unfold EventLoop.next? at hn
    split at hn <;> cases hn
    rfl
  · rfl

variable [DecidableEq τ]

/-- The timers under which a task waits on one loop. -/
def waits (g : LoopGroup τ) (i : Nat) (t : τ) : List (Option Nat) :=
  ((g.loops[i]?).map (·.waits t)).getD []

theorem waits_modify (g : LoopGroup τ) (i j : Nat) (f : EventLoop τ → EventLoop τ) (t : τ) :
    (g.modify i f).waits j t =
      if i = j then ((g.loops[j]?).map fun l => (f l).waits t).getD [] else g.waits j t := by
  simp only [waits, getElem?_modify]
  split <;> simp [Function.comp_def]

theorem waits_disarm (g : LoopGroup τ) (i k j : Nat) (t : τ) :
    (g.disarm i k).waits j t =
      if i = j then (g.waits j t).filter (· != some k) else g.waits j t := by
  simp only [disarm, waits_modify, EventLoop.waits_disarm]
  split
  · simp only [waits]
    cases g.loops[j]? <;> rfl
  · rfl

theorem waits_arm {g : LoopGroup τ} (hr : g.Running) {i : Nat} (hi : i < g.size)
    (delay : Duration) (t : τ) :
    (((g.arm i delay t).2).waits i t).Perm (some (g.armed i) :: g.waits i t) := by
  have hl : g.loops[i]? = some g.loops[i] := List.getElem?_eq_getElem hi
  rw [arm_snd, waits_modify, if_pos rfl, waits, armed, hl]
  exact EventLoop.waits_armAt (hr _ (List.getElem_mem hi)) _ t

theorem waits_arm_of_ne (g : LoopGroup τ) {i j : Nat} (hj : i ≠ j) (delay : Duration) (u t : τ) :
    ((g.arm i delay u).2).waits j t = g.waits j t := by
  rw [arm_snd, waits_modify, if_neg hj]

theorem waits_next? {g g' : LoopGroup τ} {i : Nat} {t : τ} (h : g.next? i = some (t, g')) :
    (∃ k, (g.waits i t).Perm (k :: g'.waits i t)) ∧ ∀ j, i ≠ j → g'.waits j t = g.waits j t := by
  obtain ⟨l, m, hl, hn, hg⟩ := loops_of_next? h
  constructor
  · obtain ⟨k, hk⟩ := (EventLoop.waits_of_next? hn).2 rfl
    exact ⟨k, by simpa [waits, hg, hl] using hk⟩
  · intro j hj
    rw [waits, waits, hg, if_neg hj]

theorem waits_subset_of_next? {g g' : LoopGroup τ} {i : Nat} {t : τ}
    (h : g.next? i = some (t, g')) (j : Nat) : g'.waits j t ⊆ g.waits j t := by
  obtain ⟨⟨k, here⟩, elsewhere⟩ := waits_next? h
  by_cases hj : i = j
  · subst hj
    exact fun o ho => here.symm.subset (List.mem_cons_of_mem _ ho)
  · rw [elsewhere j hj]
    exact List.Subset.refl _

/-- One group of loops goes on as another one. The timers of some tasks stay. -/
structure Holds (p : τ → Bool) (g g' : LoopGroup τ) : Prop where
  size : g'.size = g.size
  running : g.Running → g'.Running
  armed : ∀ i, g.armed i ≤ g'.armed i
  waits : ∀ i t, p t → (g'.waits i t).Perm (g.waits i t)

namespace Holds
variable {p : τ → Bool} {g g₁ g' : LoopGroup τ}

theorem refl (g : LoopGroup τ) : Holds p g g :=
  ⟨rfl, id, fun _ => Nat.le_refl _, fun _ _ _ => .refl _⟩

theorem trans (h : Holds p g g₁) (k : Holds p g₁ g') : Holds p g g' where
  size := k.size.trans h.size
  running := k.running ∘ h.running
  armed := fun i => Nat.le_trans (h.armed i) (k.armed i)
  waits := fun i t ht => (k.waits i t ht).trans (h.waits i t ht)

theorem modify (g : LoopGroup τ) (i : Nat) {f : EventLoop τ → EventLoop τ}
    (hc : ∀ l, (f l).closed = l.closed) (ha : ∀ l, l.armed ≤ (f l).armed)
    (hw : ∀ l, g.loops[i]? = some l → ∀ t, p t → ((f l).waits t).Perm (l.waits t)) :
    Holds p g (g.modify i f) where
  size := size_modify g i f
  running := fun h => running_modify h i hc
  armed := by
    intro j
    simp only [LoopGroup.armed, getElem?_modify]
    split
    · cases g.loops[j]? with
      | none => exact Nat.le_refl _
      | some l => exact ha l
    · exact Nat.le_refl _
  waits := by
    intro j t ht
    simp only [LoopGroup.waits, getElem?_modify]
    split
    · rename_i he
      subst he
      cases hl : g.loops[i]? with
      | none => exact .refl _
      | some l => exact hw l hl t ht
    · exact .refl _

theorem push (g : LoopGroup τ) (i : Nat) {u : τ} (hu : p u = false) : Holds p g (g.push i u) := by
  refine modify g i (fun l => l.closed_push u) (fun l => ?_) fun l _ t ht => ?_
  · unfold EventLoop.push
    split <;> exact Nat.le_refl _
  · rw [EventLoop.waits_push l (ne_of_apply_ne p (by simp [hu, ht]))]

theorem armAt (g : LoopGroup τ) (i : Nat) (due : Duration) {u : τ} (hu : p u = false) :
    Holds p g (g.armAt i due u) := by
  refine modify g i (fun _ => rfl) (fun l => Nat.le_succ _) fun l _ t ht => ?_
  rw [EventLoop.waits_armAt_of_ne l due (ne_of_apply_ne p (by simp [hu, ht]))]

theorem arm (g : LoopGroup τ) (i : Nat) (delay : Duration) {u : τ} (hu : p u = false) :
    Holds p g (g.arm i delay u).2 := by
  rw [arm_snd]
  refine modify g i (fun _ => rfl) (fun l => Nat.le_succ _) fun l _ t ht => ?_
  rw [EventLoop.arm, EventLoop.waits_armAt_of_ne l _ (ne_of_apply_ne p (by simp [hu, ht]))]

theorem disarm (g : LoopGroup τ) (i : Nat) {k : Nat} (hk : ∀ t, p t → some k ∉ g.waits i t) :
    Holds p g (g.disarm i k) := by
  refine modify g i (fun _ => rfl) (fun _ => Nat.le_refl _) fun l hl t ht => ?_
  rw [EventLoop.waits_disarm, List.filter_eq_self.mpr]
  intro o ho
  have absent : some k ∉ l.waits t := by simpa [LoopGroup.waits, hl] using hk t ht
  have other : o ≠ some k := by
    rintro rfl
    exact absent ho
  simpa using other

theorem take {i : Nat} {u : τ} (h : g.next? i = some (u, g')) (hu : p u = false) :
    Holds p g g' := by
  have took := took_of_next? h
  refine ⟨took.size, took.running, fun j => Nat.le_of_eq (armed_next? h j).symm, fun j t ht => ?_⟩
  obtain ⟨l, m, hl, hn, hg⟩ := loops_of_next? h
  rw [LoopGroup.waits, LoopGroup.waits, hg]
  split
  · rename_i he
    subst he
    rw [hl]
    exact .of_eq ((EventLoop.waits_of_next? hn).1 (ne_of_apply_ne p (by simp [hu, ht])))
  · exact .refl _

theorem advance (g : LoopGroup τ) (i : Nat) (time : Duration) : Holds p g (g.advance i time) := by
  refine modify g i (fun l => l.closed_advance time) (fun l => ?_) fun l _ t _ =>
    l.waits_advance time t
  unfold EventLoop.advance
  split <;> exact Nat.le_refl _

end Holds
end LoopGroup
end LoadGen
