import LoadGen.Measure.Board
import Mathlib.Order.Basic
import Mathlib.Tactic.Push

namespace LoadGen

/-- A change of a bucket that does not move its beginning while nothing has been counted, and takes
no count back. -/
def Bucket.KeepsBeginning (f : Bucket → Bucket) : Prop :=
  ∀ c, (f c).total.requests = 0 → c.total.requests = 0 ∧ (f c).start = c.start

theorem Bucket.keepsBeginning_finish (time : Nat) : KeepsBeginning (·.finish time) :=
  fun _ h => ⟨h, rfl⟩

namespace Board

/-- What is done with a board. It does not matter who does it of those that share the board. -/
inductive Operation
  | startPhase (phase : String) (now : Nat)
  | ensure (phase metric : String) (now : Nat)
  | update (phase metric : String) (f : Bucket → Bucket)
  | applyToPhase (phase : String) (f : Bucket → Bucket)
  | prune (phase : String)
  | snapshot (only : Option String)
  | takeRecent (now : Nat)

/-- A name for a bucket of a board, which may be gone by the time it is used. -/
structure Reference where
  phase : String
  metric : String

def Reference.bind (ref : Reference) (now : Nat) : Operation := .ensure ref.phase ref.metric now

def Reference.write (ref : Reference) (f : Bucket → Bucket) : Operation :=
  .update ref.phase ref.metric f

namespace Operation

def perform (b : Board) : Operation → Board
  | startPhase phase now => b.startPhase phase now
  | ensure phase metric now => b.ensure phase metric now
  | update phase metric f => b.update phase metric f
  | applyToPhase phase f => b.applyToPhase phase f
  | prune phase => b.prune phase
  | snapshot _ => b
  | takeRecent now => (b.takeRecent now).2

/-- The operation makes an entry for the phase unless there is one. -/
def Opens (op : Operation) (phase : String) : Prop :=
  (∃ now, op = startPhase phase now) ∨ ∃ metric now, op = ensure phase metric now

theorem not_opens_prune {phase other : String} : ¬ (prune phase).Opens other := by
  rintro (⟨_, h⟩ | ⟨_, _, h⟩) <;> cases h

/-- The operation changes the bucket, if it is there, by this function. -/
def Writes (op : Operation) (phase metric : String) (f : Bucket → Bucket) : Prop :=
  op = update phase metric f ∨ op = applyToPhase phase f

end Operation

def after (executor : Nat) (ops : List Operation) : Board :=
  ops.foldl Operation.perform { executor := executor }

/-- The operation at that place made the entry of the phase that is there now: it was the first one
to ask for an entry after the phase was pruned for the last time. -/
structure OpenedAt (ops : List Operation) (phase : String) (i : Nat) : Prop where
  opens : ∃ op, ops[i]? = some op ∧ op.Opens phase
  first : ∀ j op, j < i → ops[j]? = some op → op.Opens phase →
    ∃ k, j < k ∧ k < i ∧ ops[k]? = some (.prune phase)
  kept : ∀ k, i < k → ops[k]? ≠ some (.prune phase)

/-- The entry of one phase was made before that of the other. -/
def Before (ops : List Operation) (phase other : String) : Prop :=
  ∃ i j, OpenedAt ops phase i ∧ OpenedAt ops other j ∧ i < j

/-- The phase was started by the operation at that place, and neither started again nor pruned
after that. -/
structure StartedAt (ops : List Operation) (phase : String) (now i : Nat) : Prop where
  starts : ops[i]? = some (.startPhase phase now)
  last : ∀ j t, i < j → ops[j]? ≠ some (.startPhase phase t)
  kept : ∀ j, i < j → ops[j]? ≠ some (.prune phase)

/-- After that place the beginning of the bucket is left to the starts of its phase. -/
def LeftAlone (ops : List Operation) (phase metric : String) (i : Nat) : Prop :=
  ∀ j op f, i < j → ops[j]? = some op → op.Writes phase metric f → Bucket.KeepsBeginning f

section History
variable {ops : List Operation} {op : Operation} {phase other metric : String} {i j now : Nat}

theorem getElem?_snoc {o : Operation} : (ops ++ [op])[j]? = some o ↔
    ops[j]? = some o ∨ (j = ops.length ∧ o = op) := by
  rcases Nat.lt_trichotomy j ops.length with hlt | rfl | hgt
  · rw [List.getElem?_append_left hlt]
    exact ⟨.inl, fun h => h.resolve_right fun h => absurd h.1 (Nat.ne_of_lt hlt)⟩
  · simp [eq_comm]
  · rw [List.getElem?_eq_none (by simp; omega), List.getElem?_eq_none (by omega)]
    simp [Nat.ne_of_gt hgt]

theorem lt_of_getElem? {o : Operation} (h : ops[j]? = some o) : j < ops.length :=
  (List.getElem?_eq_some_iff.mp h).1

theorem OpenedAt.lt (h : OpenedAt ops phase i) : i < ops.length := by
  obtain ⟨_, hi, _⟩ := h.opens
  exact lt_of_getElem? hi

/-- If an entry was asked for and not pruned after that, some operation made it. -/
theorem exists_openedAt (hj : ops[j]? = some op) (ho : op.Opens phase)
    (kept : ∀ k, j < k → ops[k]? ≠ some (.prune phase)) : ∃ i, OpenedAt ops phase i := by
  -- by induction on the place: either nothing earlier counts, or something earlier does
  induction j using Nat.strongRecOn generalizing op with
  | ind j ih =>
    by_cases first : ∀ j' op', j' < j → ops[j']? = some op' → op'.Opens phase →
        ∃ k, j' < k ∧ k < j ∧ ops[k]? = some (.prune phase)
    · exact ⟨j, ⟨op, hj, ho⟩, first, kept⟩
    · push Not at first
      obtain ⟨j', op', hlt, hj', ho', between⟩ := first
      refine ih j' hlt hj' ho' fun k hk => ?_
      rcases Nat.lt_trichotomy k j with h | rfl | h
      · exact between k hk h
      · rw [hj]
        rintro ⟨⟩
        exact Operation.not_opens_prune ho
      · exact kept k h

theorem OpenedAt.snoc (h : OpenedAt ops phase i) (hp : op ≠ .prune phase) :
    OpenedAt (ops ++ [op]) phase i where
  opens := by
    obtain ⟨o, hi, ho⟩ := h.opens
    exact ⟨o, getElem?_snoc.mpr (.inl hi), ho⟩
  first := by
    intro j o hj hg ho
    rcases getElem?_snoc.mp hg with hg | ⟨rfl, _⟩
    · obtain ⟨k, hjk, hki, hk⟩ := h.first j o hj hg ho
      exact ⟨k, hjk, hki, getElem?_snoc.mpr (.inl hk)⟩
    · exact absurd h.lt (Nat.not_lt.mpr (Nat.le_of_lt hj))
  kept := by
    intro k hk hg
    rcases getElem?_snoc.mp hg with hg | ⟨_, he⟩
    · exact h.kept k hk hg
    · exact hp he.symm

theorem openedAt_snoc_new (ho : op.Opens phase) (none : ∀ i, ¬ OpenedAt ops phase i) :
    OpenedAt (ops ++ [op]) phase ops.length where
  opens := ⟨op, getElem?_snoc.mpr (.inr ⟨rfl, rfl⟩), ho⟩
  first := by
    intro j o hj hg hopens
    have hg := (getElem?_snoc.mp hg).resolve_right fun h => absurd h.1 (Nat.ne_of_lt hj)
    by_contra hn
    push Not at hn
    obtain ⟨i, hi⟩ := exists_openedAt hg hopens fun k hk hp =>
      hn k hk (lt_of_getElem? hp) (getElem?_snoc.mpr (.inl hp))
    exact none i hi
  kept := by
    intro k hk hg
    have := lt_of_getElem? hg
    simp only [List.length_append, List.length_singleton] at this
    omega

theorem openedAt_snoc : OpenedAt (ops ++ [op]) phase i ↔
    op ≠ .prune phase ∧
      (OpenedAt ops phase i ∨ (i = ops.length ∧ op.Opens phase ∧ ∀ j, ¬ OpenedAt ops phase j)) := by
  constructor
  · intro h
    obtain ⟨o, hg, ho⟩ := h.opens
    rcases getElem?_snoc.mp hg with hi | ⟨rfl, rfl⟩
    · have notPruned : op ≠ .prune phase := by
        rintro rfl
        exact h.kept ops.length (lt_of_getElem? hi) (getElem?_snoc.mpr (.inr ⟨rfl, rfl⟩))
      refine ⟨notPruned, .inl ⟨⟨o, hi, ho⟩, fun j o' hj hg ho' => ?_, fun k hk hg =>
        h.kept k hk (getElem?_snoc.mpr (.inl hg))⟩⟩
      obtain ⟨k, hjk, hki, hk⟩ := h.first j o' hj (getElem?_snoc.mpr (.inl hg)) ho'
      refine ⟨k, hjk, hki, (getElem?_snoc.mp hk).resolve_right fun he => ?_⟩
      exact absurd (lt_of_getElem? hi) (Nat.not_lt.mpr (he.1 ▸ Nat.le_of_lt hki))
    · refine ⟨?_, .inr ⟨rfl, ho, fun j hj => ?_⟩⟩
      · rintro rfl
        exact Operation.not_opens_prune ho
      · obtain ⟨o', hg, ho'⟩ := hj.opens
        obtain ⟨k, hjk, hkl, hk⟩ := h.first j o' hj.lt (getElem?_snoc.mpr (.inl hg)) ho'
        exact hj.kept k hjk
          ((getElem?_snoc.mp hk).resolve_right fun he => absurd he.1 (Nat.ne_of_lt hkl))
  · rintro ⟨hp, h | ⟨rfl, ho, none⟩⟩
    · exact h.snoc hp
    · exact openedAt_snoc_new ho none

theorem Before.snoc (h : Before ops phase other) (hp : op ≠ .prune phase)
    (hq : op ≠ .prune other) : Before (ops ++ [op]) phase other := by
  obtain ⟨i, j, hi, hj, hlt⟩ := h
  exact ⟨i, j, hi.snoc hp, hj.snoc hq, hlt⟩

theorem Before.irrefl : ¬ Before ops phase phase := by
  rintro ⟨i, j, hi, hj, hlt⟩
  obtain ⟨o, hg, ho⟩ := hi.opens
  obtain ⟨k, hik, _, hk⟩ := hj.first i o hlt hg ho
  exact hi.kept k hik hk

theorem Before.ne (h : Before ops phase other) : phase ≠ other := by
  rintro rfl
  exact h.irrefl

theorem startedAt_snoc : StartedAt (ops ++ [op]) phase now i ↔
    (i = ops.length ∧ op = .startPhase phase now) ∨
      (StartedAt ops phase now i ∧ op ≠ .prune phase ∧ ∀ t, op ≠ .startPhase phase t) := by
  constructor
  · intro h
    rcases getElem?_snoc.mp h.starts with hi | ⟨rfl, he⟩
    · have here : (ops ++ [op])[ops.length]? = some op := getElem?_snoc.mpr (.inr ⟨rfl, rfl⟩)
      refine .inr ⟨⟨hi, fun j t hj hg => h.last j t hj (getElem?_snoc.mpr (.inl hg)),
        fun j hj hg => h.kept j hj (getElem?_snoc.mpr (.inl hg))⟩, ?_, fun t => ?_⟩
      · rintro rfl
        exact h.kept _ (lt_of_getElem? hi) here
      · rintro rfl
        exact h.last _ t (lt_of_getElem? hi) here
    · exact .inl ⟨rfl, he.symm⟩
  · have past : ∀ {j : Nat} {o : Operation}, ops.length < j → (ops ++ [op])[j]? ≠ some o := by
      intro j o hj hg
      have := lt_of_getElem? hg
      simp only [List.length_append, List.length_singleton] at this
      omega
    rintro (⟨rfl, rfl⟩ | ⟨h, hp, hs⟩)
    · exact ⟨getElem?_snoc.mpr (.inr ⟨rfl, rfl⟩), fun _ _ hj => past hj, fun _ hj => past hj⟩
    · refine ⟨getElem?_snoc.mpr (.inl h.starts), fun j t hj hg => ?_, fun j hj hg => ?_⟩
      · rcases getElem?_snoc.mp hg with hg | ⟨_, he⟩
        · exact h.last j t hj hg
        · exact hs t he.symm
      · rcases getElem?_snoc.mp hg with hg | ⟨_, he⟩
        · exact h.kept j hj hg
        · exact hp he.symm

theorem LeftAlone.of_snoc (h : LeftAlone (ops ++ [op]) phase metric i) :
    LeftAlone ops phase metric i :=
  fun j o f hj hg => h j o f hj (getElem?_snoc.mpr (.inl hg))

theorem LeftAlone.snoc_last (h : LeftAlone (ops ++ [op]) phase metric i) (hi : i < ops.length)
    {f : Bucket → Bucket} (hw : op.Writes phase metric f) : Bucket.KeepsBeginning f :=
  h ops.length op f hi (getElem?_snoc.mpr (.inr ⟨rfl, rfl⟩)) hw

end History

end Board
end LoadGen
