import LoadGen.Loop.Group

namespace LoadGen

namespace EventLoop
variable {τ : Type}

/-- The queued tasks that no timer put there. -/
def posted (l : EventLoop τ) : List τ := (l.queue.filter (·.timer.isNone)).map (·.task)

/-- The tasks that timers hold or have put into the queue. -/
def timed (l : EventLoop τ) : List τ :=
  l.timers.map (·.task) ++ (l.queue.filter (·.timer.isSome)).map (·.task)

@[simp] theorem closed_push (l : EventLoop τ) (t : τ) : (l.push t).closed = l.closed := by
  unfold push
  split <;> rfl

theorem posted_push (l : EventLoop τ) (t : τ) (h : l.closed = false) :
    (l.push t).posted = l.posted ++ [t] := by
  simp [posted, push, h, List.filter_append]

theorem timed_push (l : EventLoop τ) (t : τ) : (l.push t).timed = l.timed := by
  unfold push
  split
  · rfl
  · simp [timed, List.filter_append]

theorem timed_armAt {l : EventLoop τ} {due : Duration} {t u : τ}
    (h : u ∈ (l.armAt due t).2.timed) : u ∈ l.timed ∨ u = t := by
  simp only [timed, armAt, List.mem_append, List.mem_map] at h ⊢
  rcases h with ⟨m, hm, rfl⟩ | hq
  · split at hm
    · exact .inl (.inl ⟨m, hm, rfl⟩)
    · rcases List.mem_append.mp hm with hm | hm
      · exact .inl (.inl ⟨m, hm, rfl⟩)
      · rw [List.mem_singleton] at hm
        exact .inr (by rw [hm])
  · exact .inl (.inr hq)

@[simp] theorem posted_disarm (l : EventLoop τ) (id : Nat) : (l.disarm id).posted = l.posted := by
  simp only [posted, disarm, List.filter_filter]
  congr 1
  apply List.filter_congr
  intro q _
  cases q.timer <;> simp

@[simp] theorem closed_disarm (l : EventLoop τ) (id : Nat) : (l.disarm id).closed = l.closed := rfl

theorem timed_disarm {l : EventLoop τ} {id : Nat} {u : τ} (h : u ∈ (l.disarm id).timed) :
    u ∈ l.timed := by
  simp only [timed, disarm, List.mem_append, List.mem_map, List.mem_filter] at h ⊢
  rcases h with ⟨m, ⟨hm, _⟩, hu⟩ | ⟨q, ⟨⟨hq, _⟩, ht⟩, hu⟩
  · exact .inl ⟨m, hm, hu⟩
  · exact .inr ⟨q, ⟨hq, ht⟩, hu⟩

@[simp] theorem posted_fire (l : EventLoop τ) : l.fire.posted = l.posted := by
  simp [posted, fire, List.filter_append, List.filter_map, Function.comp_def]

theorem timed_fire {l : EventLoop τ} {u : τ} (h : u ∈ l.fire.timed) : u ∈ l.timed := by
  simp only [timed, fire, List.mem_append, List.mem_map, List.mem_filter] at h ⊢
  rcases h with ⟨m, ⟨hm, _⟩, hu⟩ | ⟨q, ⟨hq, ht⟩, hu⟩
  · exact .inl ⟨m, hm, hu⟩
  · rcases hq with hq | ⟨m, hm, rfl⟩
    · exact .inr ⟨q, ⟨hq, ht⟩, hu⟩
    · refine .inl ⟨m, ?_, hu⟩
      have hf := List.mem_mergeSort.mp hm
      exact (List.mem_filter.mp hf).1

@[simp] theorem posted_advance (l : EventLoop τ) (time : Duration) :
    (l.advance time).posted = l.posted := by
  unfold advance
  split
  · rfl
  · rw [posted_fire]
    rfl

@[simp] theorem closed_advance (l : EventLoop τ) (time : Duration) :
    (l.advance time).closed = l.closed := by
  unfold advance
  split <;> rfl

theorem timed_advance {l : EventLoop τ} {time : Duration} {u : τ}
    (h : u ∈ (l.advance time).timed) : u ∈ l.timed := by
  unfold advance at h
  split at h
  · exact h
  · exact timed_fire (l := { l with clock := ⟨l.clock.nanos + time.nanos⟩ }) h

end EventLoop

namespace LoopGroup
variable {τ : Type}

def posted (g : LoopGroup τ) (i : Nat) : List τ := ((g.loops[i]?).map (·.posted)).getD []

def timed (g : LoopGroup τ) (i : Nat) : List τ := ((g.loops[i]?).map (·.timed)).getD []

def Running (g : LoopGroup τ) : Prop := ∀ l ∈ g.loops, l.closed = false

/-- What one loop does leaves the tasks that were posted to all of them. -/
structure Quiet (g g' : LoopGroup τ) : Prop where
  size : g'.size = g.size
  running : g.Running → g'.Running
  posted : ∀ i, g'.posted i = g.posted i

theorem isOpen_of_running {g : LoopGroup τ} (h : g.Running) {i : Nat} (hi : i < g.size) :
    g.isOpen i = true := by
  have hl : g.loops[i]? = some g.loops[i] := List.getElem?_eq_getElem hi
  simp [isOpen, hl, h _ (List.getElem_mem hi)]

@[simp] theorem size_modify (g : LoopGroup τ) (i : Nat) (f : EventLoop τ → EventLoop τ) :
    (g.modify i f).size = g.size := List.length_modify ..

theorem getElem?_modify (g : LoopGroup τ) (i j : Nat) (f : EventLoop τ → EventLoop τ) :
    (g.modify i f).loops[j]? = if i = j then (g.loops[j]?).map f else g.loops[j]? := by
  simp only [modify, List.getElem?_modify]
  split <;> simp

theorem running_modify {g : LoopGroup τ} (h : g.Running) (i : Nat) {f : EventLoop τ → EventLoop τ}
    (hf : ∀ l, (f l).closed = l.closed) : (g.modify i f).Running := by
  intro l hl
  obtain ⟨j, hj⟩ := List.mem_iff_getElem?.mp hl
  rw [getElem?_modify] at hj
  split at hj
  · obtain ⟨m, hm, rfl⟩ := Option.map_eq_some_iff.mp hj
    rw [hf]
    exact h m (List.mem_of_getElem? hm)
  · exact h l (List.mem_of_getElem? hj)

theorem quiet_modify (g : LoopGroup τ) (i : Nat) {f : EventLoop τ → EventLoop τ}
    (hf : ∀ l, (f l).closed = l.closed) (hp : ∀ l, (f l).posted = l.posted) :
    Quiet g (g.modify i f) where
  size := size_modify g i f
  running := fun h => running_modify h i hf
  posted := by
    intro j
    simp only [posted, getElem?_modify]
    split
    · simp [Function.comp_def, hp]
    · rfl

theorem timed_modify {g : LoopGroup τ} {i j : Nat} {f : EventLoop τ → EventLoop τ} {u : τ}
    (h : u ∈ (g.modify i f).timed j) :
    u ∈ g.timed j ∨ ∃ l, g.loops[i]? = some l ∧ u ∈ (f l).timed := by
  simp only [timed, getElem?_modify] at h ⊢
  split at h
  · rename_i he
    subst he
    cases hl : g.loops[i]? with
    | none => simp [hl] at h
    | some l => exact .inr ⟨l, rfl, by simpa [hl] using h⟩
  · exact .inl h

@[simp] theorem size_push (g : LoopGroup τ) (i : Nat) (t : τ) : (g.push i t).size = g.size :=
  size_modify ..

theorem running_push {g : LoopGroup τ} (h : g.Running) (i : Nat) (t : τ) :
    (g.push i t).Running := running_modify h i fun l => l.closed_push t

theorem posted_push {g : LoopGroup τ} (h : g.Running) {i : Nat} (hi : i < g.size) (t : τ)
    (j : Nat) : (g.push i t).posted j = g.posted j ++ if i = j then [t] else [] := by
  simp only [posted, push, getElem?_modify]
  split
  · rename_i he
    subst he
    have hl : g.loops[i]? = some g.loops[i] := List.getElem?_eq_getElem hi
    simp [hl, EventLoop.posted_push _ t (h _ (List.getElem_mem hi))]
  · simp

/-- A stopped loop does not take the task, and there may be no such loop. -/
theorem posted_push_or (g : LoopGroup τ) (i : Nat) (t : τ) (j : Nat) :
    (g.push i t).posted j = g.posted j ∨ (g.push i t).posted j = g.posted j ++ [t] := by
  simp only [posted, push, getElem?_modify]
  split
  · cases hl : g.loops[j]? with
    | none => exact .inl rfl
    | some l =>
      cases hc : l.closed with
      | true => exact .inl (by simp [EventLoop.push, hc])
      | false => exact .inr (by simp [EventLoop.posted_push l t hc])
  · exact .inl rfl

theorem timed_push {g : LoopGroup τ} {i j : Nat} {t u : τ} (h : u ∈ (g.push i t).timed j) :
    u ∈ g.timed j := by
  simp only [timed, push, getElem?_modify] at h ⊢
  split at h
  · simpa [Function.comp_def, EventLoop.timed_push] using h
  · exact h

theorem arm_snd (g : LoopGroup τ) (i : Nat) (delay : Duration) (t : τ) :
    (g.arm i delay t).2 = g.modify i fun l => (l.arm delay t).2 := by
  unfold arm
  split
  · rename_i l hl
    simp only [modify, LoopGroup.mk.injEq]
    apply List.ext_getElem?
    intro j
    rw [List.getElem?_modify, List.getElem?_set]
    by_cases he : i = j
    · subst he
      have hlt : i < g.loops.length := (List.getElem?_eq_some_iff.mp hl).1
      rw [if_pos rfl, if_pos hlt, hl]
      simp
    · simp [he]
  · rename_i hl
    simp only [modify]
    rw [List.modify_eq_self (List.getElem?_eq_none_iff.mp hl)]

theorem quiet_arm (g : LoopGroup τ) (i : Nat) (delay : Duration) (t : τ) :
    Quiet g (g.arm i delay t).2 := by
  rw [arm_snd]
  exact quiet_modify g i (fun _ => rfl) (fun _ => rfl)

theorem timed_arm {g : LoopGroup τ} {i j : Nat} {delay : Duration} {t u : τ}
    (h : u ∈ (g.arm i delay t).2.timed j) : u = t ∨ ∃ k, u ∈ g.timed k := by
  rw [arm_snd] at h
  rcases timed_modify h with h | ⟨l, hl, h⟩
  · exact .inr ⟨j, h⟩
  · rcases EventLoop.timed_armAt h with h | h
    · exact .inr ⟨i, by simpa [timed, hl] using h⟩
    · exact .inl h

theorem quiet_armAt (g : LoopGroup τ) (i : Nat) (due : Duration) (t : τ) :
    Quiet g (g.armAt i due t) := quiet_modify g i (fun _ => rfl) (fun _ => rfl)

theorem timed_armAt {g : LoopGroup τ} {i j : Nat} {due : Duration} {t u : τ}
    (h : u ∈ (g.armAt i due t).timed j) : u = t ∨ ∃ k, u ∈ g.timed k := by
  rcases timed_modify h with h | ⟨l, hl, h⟩
  · exact .inr ⟨j, h⟩
  · rcases EventLoop.timed_armAt h with h | h
    · exact .inr ⟨i, by simpa [timed, hl] using h⟩
    · exact .inl h

theorem quiet_disarm (g : LoopGroup τ) (i id : Nat) : Quiet g (g.disarm i id) :=
  quiet_modify g i (fun l => l.closed_disarm id) (fun l => l.posted_disarm id)

theorem timed_disarm {g : LoopGroup τ} {i j id : Nat} {u : τ} (h : u ∈ (g.disarm i id).timed j) :
    ∃ k, u ∈ g.timed k := by
  rcases timed_modify h with h | ⟨l, hl, h⟩
  · exact ⟨j, h⟩
  · exact ⟨i, by simpa [timed, hl] using EventLoop.timed_disarm h⟩

theorem quiet_advance (g : LoopGroup τ) (i : Nat) (time : Duration) : Quiet g (g.advance i time) :=
  quiet_modify g i (fun l => l.closed_advance time) (fun l => l.posted_advance time)

theorem timed_advance {g : LoopGroup τ} {i j : Nat} {time : Duration} {u : τ}
    (h : u ∈ (g.advance i time).timed j) : ∃ k, u ∈ g.timed k := by
  rcases timed_modify h with h | ⟨l, hl, h⟩
  · exact ⟨j, h⟩
  · exact ⟨i, by simpa [timed, hl] using EventLoop.timed_advance h⟩

/-- The task that a loop takes out was posted first, or comes from a timer. The other loops keep
what they have. -/
structure Took (g g' : LoopGroup τ) (i : Nat) (t : τ) : Prop where
  size : g'.size = g.size
  running : g.Running → g'.Running
  inside : i < g.size
  first : g.posted i = t :: g'.posted i ∨ (t ∈ g.timed i ∧ g'.posted i = g.posted i)
  others : ∀ j, j ≠ i → g'.posted j = g.posted j
  timed : ∀ j u, u ∈ g'.timed j → u ∈ g.timed j

theorem took_of_next? {g g' : LoopGroup τ} {i : Nat} {t : τ} (h : g.next? i = some (t, g')) :
    Took g g' i t := by
  unfold next? at h
  split at h
  · cases h
  · rename_i l hl
    obtain ⟨⟨u, m⟩, hn, he⟩ := Option.map_eq_some_iff.mp h
    cases he
    unfold EventLoop.next? at hn
    split at hn
    · cases hn
    · rename_i q rest hq
      cases hn
      have hlt : i < g.loops.length := (List.getElem?_eq_some_iff.mp hl).1
      have hi : (⟨g.loops.set i { l with queue := rest }⟩ : LoopGroup τ).loops[i]? =
          some { l with queue := rest } := List.getElem?_set_self hlt
      have hj : ∀ j, j ≠ i → (⟨g.loops.set i { l with queue := rest }⟩ : LoopGroup τ).loops[j]? =
          g.loops[j]? := fun j hne => List.getElem?_set_ne hne.symm
      refine ⟨List.length_set .., ?_, hlt, ?_, ?_, ?_⟩
      · intro hr m hm
        obtain ⟨j, hm⟩ := List.mem_iff_getElem?.mp hm
        by_cases he : j = i
        · subst he
          rw [hi] at hm
          cases hm
          exact hr l (List.mem_of_getElem? hl)
        · rw [hj j he] at hm
          exact hr m (List.mem_of_getElem? hm)
      · simp only [posted, LoopGroup.timed, hi, hl, Option.map_some, Option.getD_some,
          EventLoop.posted, EventLoop.timed, hq]
        cases ht : q.timer with
        | none => exact .inl (by simp [ht])
        | some id => exact .inr ⟨by simp [ht], by simp [ht]⟩
      · intro j hne
        simp only [posted, hj j hne]
      · intro j u hu
        by_cases he : j = i
        · subst he
          simp only [LoopGroup.timed, hi, hl, Option.map_some, Option.getD_some, EventLoop.timed,
            hq, List.mem_append, List.mem_map, List.mem_filter, List.mem_cons] at hu ⊢
          rcases hu with hu | ⟨p, ⟨hp, hs⟩, rfl⟩
          · exact .inl hu
          · exact .inr ⟨p, ⟨.inr hp, hs⟩, rfl⟩
        · simpa only [LoopGroup.timed, hj j he] using hu

end LoopGroup
end LoadGen
