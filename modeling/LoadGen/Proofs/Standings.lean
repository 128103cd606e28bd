import LoadGen.Phase.Standing

namespace LoadGen.Standing

/-- A standing that a phase can have. -/
structure Lawful (s : Standing) : Prop where
  watched : s.watched = s.status
  idle : s.status = .notStarted ∨ s.status = .terminated → s.active = 0
  busy : s.status = .terminating → 0 < s.active
  fresh : s.status = .notStarted → s.startedAt = none
  started : s.status = .running ∨ s.status = .finished → s.startedAt.isSome
  finished : s.finishedAt.isSome ↔ s.startedAt.isSome ∧ s.status ≠ .running
  terminated : s.terminatedAt.isSome ↔ s.status = .terminated

/-- What comes after a standing, unless it is the start: the status never goes back, and the count
grows only while the phase runs. -/
structure Follows (s t : Standing) : Prop where
  rank : s.status.rank ≤ t.status.rank
  running : t.status = .running → s.status = .running
  grows : s.active < t.active → s.status = .running
  startedAt : t.startedAt = s.startedAt

/-- What a phase that is told to end makes of its standing, if anything. -/
inductive Ends (now : Nat) (s : Standing) : Option Standing → Prop
  | finish {name : String} {t? : Option Standing} : s.finish name now = .ok t? → Ends now s t?
  | tryTerminate : Ends now s (s.tryTerminate now)
  | terminate : Ends now s (s.terminate now)

/-- A move that ends something: the status goes on, and nobody joins or leaves. -/
structure Onward (now : Nat) (s t : Standing) : Prop where
  rank : s.status.rank < t.status.rank
  running : t.status ≠ .running
  active : t.active = s.active
  startedAt : t.startedAt = s.startedAt
  lawful : s.Lawful → t.Lawful
  terminatedAt : t.status = .terminated → t.terminatedAt = some now

theorem initial_lawful : Lawful {} := by
  constructor <;> simp

theorem Follows.refl (s : Standing) : Follows s s :=
  ⟨Nat.le_refl _, id, fun h => absurd h (Nat.lt_irrefl _), rfl⟩

theorem Follows.trans {s t u : Standing} (h : Follows s t) (k : Follows t u) : Follows s u where
  rank := Nat.le_trans h.rank k.rank
  running := h.running ∘ k.running
  grows := by
    intro hg
    rcases Nat.lt_or_ge s.active t.active with ht | ht
    · exact h.grows ht
    · exact h.running (k.grows (Nat.lt_of_le_of_lt ht hg))
  startedAt := k.startedAt.trans h.startedAt

theorem Onward.follows {now : Nat} {s t : Standing} (h : Onward now s t) : Follows s t where
  rank := Nat.le_of_lt h.rank
  running := fun hr => absurd hr h.running
  grows := fun hg => absurd hg (by rw [h.active]; exact Nat.lt_irrefl _)
  startedAt := h.startedAt

theorem lawful_notes {s : Standing} (failure : Option Failure) (limit : Bool) :
    Lawful { s with failure := failure, limitExceeded := limit } ↔ Lawful s :=
  ⟨fun h => ⟨h.watched, h.idle, h.busy, h.fresh, h.started, h.finished, h.terminated⟩,
    fun h => ⟨h.watched, h.idle, h.busy, h.fresh, h.started, h.finished, h.terminated⟩⟩

theorem start_lawful {name : String} {now : Nat} {s t : Standing} (h : s.Lawful)
    (hs : s.start name now = .ok t) :
    t.Lawful ∧ t.active = s.active ∧ s.status = .notStarted ∧ t.status = .running ∧
      t.startedAt = some now := by
  unfold start at hs
  split at hs
  · rename_i he
    cases hs
    have hn := h.fresh he
    have hf := h.finished
    have ht := h.terminated
    simp only [he, hn, reduceCtorEq, iff_false, ne_eq, not_false_eq_true, and_true,
      Option.isSome_none, Bool.false_eq_true, Bool.not_eq_true] at hf ht
    refine ⟨⟨rfl, ?_, ?_, ?_, ?_, ?_, ?_⟩, rfl, he, rfl, rfl⟩ <;> simp [become, hf, ht]
  · cases hs

theorem start_rank {name : String} {now : Nat} {s t : Standing} (h : s.Lawful)
    (hs : s.start name now = .ok t) : s.status.rank < t.status.rank := by
  obtain ⟨_, _, fresh, running, _⟩ := start_lawful h hs
  rw [fresh, running]
  decide

theorem start_ne_terminated {name : String} {now : Nat} {s t : Standing} (h : s.Lawful)
    (hs : s.start name now = .ok t) : t.status ≠ .terminated := by
  obtain ⟨_, _, _, running, _⟩ := start_lawful h hs
  rw [running]
  decide

theorem finish_onward {name : String} {now : Nat} {s t : Standing}
    (hs : s.finish name now = .ok (some t)) : s.Onward now t := by
  unfold finish at hs
  split at hs
  · cases hs
  · rename_i he
    cases hs
    refine ⟨by simp [he, become, Status.rank], nofun, rfl, rfl, fun h => ?_, nofun⟩
    have hr := h.started (.inl he)
    have ht := h.terminated
    refine ⟨rfl, ?_, ?_, ?_, ?_, ?_, ?_⟩ <;> simp_all [become]
  · cases hs

theorem tryTerminate_onward {now : Nat} {s t : Standing} (hs : s.tryTerminate now = some t) :
    s.Onward now t := by
  unfold tryTerminate at hs
  split at hs
  · rename_i he
    cases hs
    refine ⟨by simp [he.1, become, Status.rank], nofun, rfl, rfl, fun h => ?_, fun _ => rfl⟩
    have hf := h.finished
    have hr := h.started (.inr he.1)
    refine ⟨rfl, ?_, ?_, ?_, ?_, ?_, ?_⟩ <;> simp_all [become]
  · cases hs

section Halt
variable (s : Standing) (now : Nat)

/-- A phase that runs admits nobody any more. -/
def halt : Standing := if s.status = .running then { s with finishedAt := some now } else s

@[simp] theorem halt_active : (s.halt now).active = s.active := by
  unfold halt
  split <;> rfl

@[simp] theorem halt_startedAt : (s.halt now).startedAt = s.startedAt := by
  unfold halt
  split <;> rfl

@[simp] theorem halt_terminatedAt : (s.halt now).terminatedAt = s.terminatedAt := by
  unfold halt
  split <;> rfl

variable {s} in
theorem Lawful.halt_finishedAt (h : s.Lawful) :
    (s.halt now).finishedAt.isSome ↔ s.startedAt.isSome := by
  unfold halt
  split
  · rename_i hr
    simp [h.started (.inl hr)]
  · rename_i hr
    simp [h.finished, hr]

end Halt

theorem terminate_onward {now : Nat} {s t : Standing} (hs : s.terminate now = some t) :
    s.Onward now t := by
  unfold terminate at hs
  split at hs
  · cases hs
  · rename_i hn
    have low : s.status.rank < Status.terminating.rank := by simpa [Status.isTerminating] using hn
    have he : (if (s.halt now).active = 0 then
        { (s.halt now).become .terminated with terminatedAt := some now }
      else (s.halt now).become .terminating) = t := Option.some.inj hs
    rw [halt_active] at he
    split at he
    · rename_i ha
      subst he
      have high : Status.terminating.rank < Status.terminated.rank := by decide
      refine ⟨Nat.lt_trans low high, nofun, halt_active .., halt_startedAt .., fun h => ?_,
        fun _ => rfl⟩
      have hf := h.halt_finishedAt now
      refine ⟨rfl, ?_, ?_, ?_, ?_, ?_, ?_⟩ <;> simp [become, ha, hf]
    · rename_i ha
      subst he
      refine ⟨low, nofun, halt_active .., halt_startedAt .., fun h => ?_, nofun⟩
      have hf := h.halt_finishedAt now
      have ht : s.terminatedAt = none := by
        have hs : s.status ≠ .terminated := by
          intro he
          rw [he] at low
          exact absurd low (by decide)
        simpa [hs] using h.terminated
      refine ⟨rfl, ?_, ?_, ?_, ?_, ?_, ?_⟩ <;> simp [become, hf, ht, Nat.pos_of_ne_zero ha]

theorem Ends.onward {now : Nat} {s t : Standing} {t? : Option Standing} (h : s.Ends now t?)
    (ht : t? = some t) : s.Onward now t := by
  cases h with
  | finish h => exact finish_onward (ht ▸ h)
  | tryTerminate => exact tryTerminate_onward ht
  | terminate => exact terminate_onward ht

theorem join_lawful {s : Standing} (h : s.Lawful) (hr : s.status = .running) : s.join.Lawful := by
  refine ⟨h.watched, ?_, ?_, h.fresh, h.started, h.finished, h.terminated⟩ <;> simp [join, hr]

theorem join_follows {s : Standing} (hr : s.status = .running) : Follows s s.join :=
  ⟨Nat.le_refl _, fun _ => hr, fun _ => hr, rfl⟩

theorem leave_active (s : Standing) (now : Nat) : (s.leave now).active = s.active - 1 := by
  unfold leave
  dsimp only
  split <;> rfl

theorem leave_status (s : Standing) (now : Nat) :
    (s.leave now).status =
      if s.active - 1 = 0 ∧ s.status = .terminating then .terminated else s.status := by
  unfold leave
  dsimp only
  split <;> rfl

theorem leave_lawful {s : Standing} (h : s.Lawful) (ha : 0 < s.active) (now : Nat) :
    (s.leave now).Lawful := by
  have hi : s.status ≠ .notStarted ∧ s.status ≠ .terminated := by
    constructor <;> intro he
    · have := h.idle (.inl he)
      omega
    · have := h.idle (.inr he)
      omega
  unfold leave
  dsimp only
  split
  · rename_i he
    have hf := h.finished
    simp only [he.2, ne_eq, reduceCtorEq, not_false_eq_true, and_true] at hf
    refine ⟨rfl, fun _ => he.1, ?_, ?_, ?_, ?_, ?_⟩ <;> simp [become, hf]
  · rename_i he
    refine ⟨h.watched, fun hs => ?_, fun hs => ?_, h.fresh, h.started, h.finished, h.terminated⟩
    · exact absurd hs (by simp [hi])
    · exact Nat.pos_of_ne_zero fun h0 => he ⟨h0, hs⟩

theorem leave_follows (s : Standing) (now : Nat) : Follows s (s.leave now) where
  rank := by
    rw [leave_status]
    split
    · rename_i he
      rw [he.2]
      decide
    · exact Nat.le_refl _
  running := by
    rw [leave_status]
    split
    · nofun
    · exact id
  grows := fun hg => absurd hg (by rw [leave_active]; omega)
  startedAt := by
    unfold leave
    dsimp only
    split <;> rfl

theorem leave_terminatedAt_of_eq {s : Standing} {now : Nat} (h : (s.leave now).status = s.status) :
    (s.leave now).terminatedAt = s.terminatedAt := by
  unfold leave at h ⊢
  dsimp only at h ⊢
  split
  · rename_i he
    rw [if_pos he, he.2] at h
    cases h
  · rfl

theorem leave_terminatedAt {s : Standing} {now : Nat} (h : (s.leave now).status ≠ s.status) :
    (s.leave now).terminatedAt = some now := by
  unfold leave at h ⊢
  dsimp only at h ⊢
  split
  · rfl
  · rename_i hn
    rw [if_neg hn] at h
    exact absurd rfl h

theorem leave_rank {s : Standing} {now : Nat} (h : (s.leave now).status ≠ s.status) :
    s.status.rank < (s.leave now).status.rank := by
  rw [leave_status] at h ⊢
  split at h
  · rename_i he
    rw [if_pos he, he.2]
    decide
  · exact absurd rfl h

end LoadGen.Standing
