import LoadGen.Pool
import Mathlib.Data.List.Nodup
import Mathlib.Order.Bounds.Basic

namespace LoadGen.Lending
variable {α : Type} {make : Nat → α} {most : Nat}

/-- What is done with a pool, and what it answers. -/
inductive Dealing (α : Type)
  | make
  | lend (a : α)
  | refuse
  | takeBack (a : α)
  | resetMarks

def Dealing.isRefusal : Dealing α → Bool
  | .refuse => true
  | _ => false

def Dealing.isReset : Dealing α → Bool
  | .resetMarks => true
  | _ => false

/-- A pool after a dealing, and the things that are out then. -/
structure Entry (α : Type) where
  dealing : Dealing α
  pool : Pool α
  out : List α

/-- The next dealing with a pool. Only a thing that is out comes back. -/
inductive Step (make : Nat → α) (e : Entry α) : Entry α → Prop
  | lend {a : α} {p : Pool α} (asked : e.pool.acquire make = (some a, p)) :
      Step make e ⟨.lend a, p, a :: e.out⟩
  | refuse {p : Pool α} (asked : e.pool.acquire make = (none, p)) :
      Step make e ⟨.refuse, p, e.out⟩
  | takeBack {a : α} {out : List α} (back : e.out.Perm (a :: out)) :
      Step make e ⟨.takeBack a, e.pool.release a, out⟩
  | resetMarks : Step make e ⟨.resetMarks, e.pool.resetMarks, e.out⟩

/-- The last dealing with a pool of at most `most` things, and all those before it, back to when the
pool was made. -/
inductive History (make : Nat → α) (most : Nat) : Entry α → List (Entry α) → Prop
  | make : History make most ⟨.make, { max := most }, []⟩ []
  | next {e e' : Entry α} {past : List (Entry α)} : History make most e past → Step make e e' →
      History make most e' (e :: past)

variable {e e' : Entry α} {past : List (Entry α)}

/-- How many things were out at some time or other. -/
def uses (entries : List (Entry α)) : Set Nat := { n | ∃ e ∈ entries, e.pool.used = n }

@[simp] theorem uses_singleton (e : Entry α) : uses [e] = {e.pool.used} := by
  ext n
  simp [uses, eq_comm]

theorem uses_cons (e : Entry α) (past : List (Entry α)) :
    uses (e :: past) = insert e.pool.used (uses past) := by
  ext n
  simp [uses, eq_comm]

section Stock

/-- Each thing that the pool has made is in one place: free, or out. -/
structure Stocked (make : Nat → α) (most : Nat) (e : Entry α) : Prop where
  bound : e.pool.max = most
  within : e.pool.created ≤ most
  places : (e.out ++ e.pool.free).Perm ((List.range e.pool.created).map make)

namespace Stocked

theorem length (h : Stocked make most e) : e.out.length + e.pool.free.length = e.pool.created := by
  simpa using h.places.length_eq

theorem used (h : Stocked make most e) : e.pool.used = e.out.length := by
  have := h.length
  rw [Pool.used]
  omega

theorem refuses (h : Stocked make most e) :
    (e.pool.acquire make).1 = none ↔ e.pool.used = most := by
  have whole := h.length
  have within := h.within
  rw [h.used]
  cases asked : e.pool.acquire make with
  | mk o q =>
    cases Pool.acquired asked with
    | again free =>
      rw [free, List.length_cons] at whole
      simp only [reduceCtorEq, false_iff]
      omega
    | anew free room =>
      rw [free, List.length_nil] at whole
      rw [h.bound] at room
      simp only [reduceCtorEq, false_iff]
      omega
    | never free full =>
      rw [free, List.length_nil] at whole
      rw [h.bound] at full
      simp only [true_iff]
      omega

theorem step (h : Stocked make most e) (s : Step make e e') : Stocked make most e' := by
  have places := h.places
  cases s with
  | lend asked =>
    cases Pool.acquired asked with
    | again free =>
      rw [free] at places
      exact ⟨h.bound, h.within, List.perm_middle.symm.trans places⟩
    | anew free room =>
      refine ⟨h.bound, h.bound ▸ room, ?_⟩
      rw [free, List.append_nil] at places ⊢
      rw [List.range_succ, List.map_append]
      exact (places.cons _).trans (List.perm_append_singleton _ _).symm
  | refuse asked =>
    cases Pool.acquired asked
    exact ⟨h.bound, h.within, places⟩
  | takeBack back =>
    exact ⟨h.bound, h.within, (List.perm_middle.trans (back.append_right _).symm).trans places⟩
  | resetMarks => exact ⟨h.bound, h.within, places⟩

end Stocked

theorem History.stocked (h : History make most e past) : Stocked make most e := by
  induction h with
  | make => exact ⟨rfl, Nat.zero_le _, .nil⟩
  | next _ s ih => exact ih.step s

theorem Step.depletions (s : Step make e e') :
    e'.pool.depletions = e.pool.depletions + if e'.dealing.isRefusal then 1 else 0 := by
  cases s with
  | lend asked => exact (Pool.acquired asked).depletions
  | refuse asked => cases Pool.acquired asked; rfl
  | takeBack => rfl
  | resetMarks => rfl

theorem History.depletions (h : History make most e past) :
    e.pool.depletions = (e :: past).countP (·.dealing.isRefusal) := by
  induction h with
  | make => rfl
  | next _ s ih => rw [s.depletions, ih, List.countP_cons (l := _ :: _)]

/-- A pool makes a thing only when none is free, so that all it has made is out then. -/
theorem Step.created (s : Step make e e') :
    e'.pool.created = e.pool.created ∨
      e'.pool.created = e.pool.created + 1 ∧ e'.pool.used = e'.pool.created := by
  cases s with
  | lend asked =>
    cases Pool.acquired asked with
    | again => exact .inl rfl
    | anew free => exact .inr ⟨rfl, by simp [Pool.used, free]⟩
  | refuse asked => cases Pool.acquired asked; exact .inl rfl
  | takeBack => exact .inl rfl
  | resetMarks => exact .inl rfl

theorem History.created (h : History make most e past) :
    IsGreatest (uses (e :: past)) e.pool.created := by
  induction h with
  | make => simp [Pool.used]
  | @next e e' past h s ih =>
    have highest : e'.pool.created = max e'.pool.used e.pool.created := by
      have : e'.pool.used ≤ e'.pool.created := Nat.sub_le ..
      rcases s.created with same | ⟨more, all⟩ <;> omega
    rw [uses_cons, highest]
    exact ih.insert _

/-- What a pool is like after a history. -/
structure Elastic (make : Nat → α) (most : Nat) (e : Entry α) (past : List (Entry α)) : Prop where
  /-- What is out and what is free are together what was made, each thing once. -/
  places : (e.out ++ e.pool.free).Perm ((List.range e.pool.created).map make)
  once : make.Injective → (e.out ++ e.pool.free).Nodup
  used : e.pool.used = e.out.length
  used_le : e.pool.used ≤ e.pool.created
  created_le : e.pool.created ≤ e.pool.max
  bound : e.pool.max = most
  refuses : (e.pool.acquire make).1 = none ↔ e.pool.used = e.pool.max
  refused : (e.pool.acquire make).1 = none →
    (e.pool.acquire make).2 = { e.pool with depletions := e.pool.depletions + 1 }
  /-- It has told that nothing was left as often as it has refused. -/
  depletions : e.pool.depletions = (e :: past).countP (·.dealing.isRefusal)
  /-- It has made as many as were out at one time, and no more. -/
  created : IsGreatest (uses (e :: past)) e.pool.created

/-- However things are taken out of a pool and brought back, none is lost and none is lent twice, and
the pool grows only as it has to, up to its bound. -/
theorem pool_elastic (h : History make most e past) : Elastic make most e past := by
  have s := h.stocked
  exact {
    places := s.places
    once := fun apart => s.places.nodup_iff.mpr (List.Nodup.map apart List.nodup_range)
    used := s.used
    used_le := Nat.sub_le ..
    created_le := s.bound ▸ s.within
    bound := s.bound
    refuses := s.bound ▸ s.refuses
    refused := Pool.acquire_none
    depletions := h.depletions
    created := h.created }

/-- Two things are out, so that a third one is refused; then one comes back and goes out again. -/
theorem refused_thing_comes_back : ∃ e past, History (· + 1) 2 e past ∧
    e.out = [1, 2] ∧ e.pool.depletions = 1 ∧ Elastic (· + 1) 2 e past := by
  have h := @History.make Nat (· + 1) 2
  have h := h.next (.lend (show Pool.acquire _ _ = (some 1, _) from rfl))
  have h := h.next (.lend (show Pool.acquire _ _ = (some 2, _) from rfl))
  have h := h.next (.refuse (show Pool.acquire _ _ = (none, _) from rfl))
  have h := h.next (.takeBack (.swap 1 2 []))
  have h := h.next (.lend (show Pool.acquire _ _ = (some 1, _) from rfl))
  exact ⟨_, _, h, rfl, rfl, pool_elastic h⟩

end Stock

section Marks

/-- The entries since the marks were last set, with the one that set them. -/
def sinceMarked : List (Entry α) → List (Entry α)
  | [] => []
  | e :: past => if e.dealing.isReset then [e] else e :: sinceMarked past

/-- A dealing sets both marks, or moves each of them to the new use if that is beyond it. A lent thing
cannot lower the use and one that comes back cannot raise it, so one mark is enough for each. -/
theorem Stocked.marks (h : Stocked make most e) (s : Step make e e')
    (low : e.pool.minUsed ≤ e.pool.used) (high : e.pool.used ≤ e.pool.maxUsed) :
    (e'.dealing.isReset ∧ e'.pool.minUsed = e'.pool.used ∧ e'.pool.maxUsed = e'.pool.used) ∨
      (e'.dealing.isReset = false ∧ e'.pool.minUsed = min e'.pool.used e.pool.minUsed ∧
        e'.pool.maxUsed = max e'.pool.used e.pool.maxUsed) := by
  have before := h.used
  have after := (h.step s).used
  cases s with
  | lend asked =>
    have took := Pool.acquired asked
    refine .inr ⟨rfl, ?_, took.maxUsed.trans (Nat.max_comm ..)⟩
    rw [List.length_cons] at after
    rw [took.minUsed]
    omega
  | refuse asked =>
    cases Pool.acquired asked
    exact .inr ⟨rfl, (Nat.min_eq_right low).symm, (Nat.max_eq_right high).symm⟩
  | takeBack back =>
    have fewer := back.length_eq
    rw [List.length_cons] at fewer
    refine .inr ⟨rfl, Nat.min_comm .., ?_⟩
    simp only [Pool.release] at after ⊢
    omega
  | resetMarks => exact .inl ⟨rfl, rfl, rfl⟩

theorem used_mem_uses (e : Entry α) (past : List (Entry α)) :
    e.pool.used ∈ uses (sinceMarked (e :: past)) := by
  rw [sinceMarked]
  split <;> simp [uses_cons]

theorem History.marks (h : History make most e past) :
    IsLeast (uses (sinceMarked (e :: past))) e.pool.minUsed ∧
      IsGreatest (uses (sinceMarked (e :: past))) e.pool.maxUsed := by
  induction h with
  | make => simp [sinceMarked, Dealing.isReset, Pool.used]
  | @next e e' past h s ih =>
    have here := used_mem_uses e past
    rcases h.stocked.marks s (ih.1.2 here) (ih.2.2 here) with
      ⟨reset, low, high⟩ | ⟨other, low, high⟩
    · rw [sinceMarked, if_pos reset, uses_singleton, low, high]
      exact ⟨isLeast_singleton, isGreatest_singleton⟩
    · rw [sinceMarked, if_neg (Bool.eq_false_iff.mp other), uses_cons, low, high]
      exact ⟨ih.1.insert _, ih.2.insert _⟩

/-- The marks of a pool are the lowest and the highest use since they were set, that moment counted, or
since the pool was made. A refusal does not move them. -/
theorem marks_exact (h : History make most e past) :
    IsLeast (uses (sinceMarked (e :: past))) e.pool.minUsed ∧
      IsGreatest (uses (sinceMarked (e :: past))) e.pool.maxUsed ∧
      ∀ p, e.pool.acquire make = (none, p) →
        p.minUsed = e.pool.minUsed ∧ p.maxUsed = e.pool.maxUsed := by
  refine ⟨h.marks.1, h.marks.2, fun p asked => ?_⟩
  cases Pool.acquired asked
  exact ⟨rfl, rfl⟩

/-- The marks are set while two things are out; one comes back, and the other one after it. -/
theorem marks_since_reset : ∃ e past, History (· + 1) 3 e past ∧
    (sinceMarked (e :: past)).map (·.pool.used) = [0, 1, 2] ∧
    IsLeast (uses (sinceMarked (e :: past))) 0 ∧ IsGreatest (uses (sinceMarked (e :: past))) 2 := by
  have h := @History.make Nat (· + 1) 3
  have h := h.next (.lend (show Pool.acquire _ _ = (some 1, _) from rfl))
  have h := h.next (.lend (show Pool.acquire _ _ = (some 2, _) from rfl))
  have h := h.next .resetMarks
  have h := h.next (.takeBack (.refl [2, 1]))
  have h := h.next (.takeBack (.refl [1]))
  have marks := marks_exact h
  exact ⟨_, _, h, rfl, marks.1, marks.2.1⟩

end Marks
end LoadGen.Lending
