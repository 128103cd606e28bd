import LoadGen.Proofs.Happenings
import LoadGen.Proofs.Loops

namespace LoadGen

def Task.isStamp : Task → Bool
  | .stamp .. => true
  | _ => false

def Task.isTurn : Task → Bool
  | .resume _ => true
  | _ => false

/-- No turn of a run is queued in front of an order to write its phase down. -/
def Ordered (id : Nat) (phase : String) (tasks : List Task) : Prop :=
  tasks.Pairwise fun t u => t = .resume id → ∀ key time, u ≠ .stamp key phase time

theorem Ordered.concat {id : Nat} {phase : String} {tasks : List Task} {t : Task}
    (h : Ordered id phase tasks) (ht : ∀ key time, t ≠ .stamp key phase time) :
    Ordered id phase (tasks ++ [t]) := by
  refine List.pairwise_append.mpr ⟨h, List.pairwise_singleton .., fun u _ v hv _ => ?_⟩
  rw [List.mem_singleton.mp hv]
  exact ht

namespace Runner

/-- The run is under way, and its session lives on that loop. -/
def Calls (r : Runner) (id loop : Nat) : Prop :=
  ∃ run ∈ r.runs, run.id = id ∧ r.executorOf run.session = loop

/-- A run gets new turns only on its own loop, and no phase is to be written down that was not
before. Timers for new turns are set for some runs only. -/
structure SameCalls (may : Nat → Prop) (r r' : Runner) : Prop where
  stamps : ∀ loop t, t.isStamp = true → t ∈ r'.loops.posted loop → t ∈ r.loops.posted loop
  ordered : ∀ loop id phase, Ordered id phase (r.loops.posted loop) →
    Ordered id phase (r'.loops.posted loop)
  posted : ∀ loop id, .resume id ∈ r'.loops.posted loop →
    .resume id ∈ r.loops.posted loop ∨ r.Calls id loop
  timed : ∀ loop id, .resume id ∈ r'.loops.timed loop →
    may id ∨ ∃ other, .resume id ∈ r.loops.timed other

namespace SameCalls
variable {may : Nat → Prop} {r r₁ r₂ r' : Runner}

theorem elsewhere (h : r'.loops = r.loops) : SameCalls may r r' where
  stamps := fun _ _ _ hm => by rwa [h] at hm
  ordered := fun _ _ _ ho => by rwa [h]
  posted := fun _ _ hm => .inl (by rwa [h] at hm)
  timed := fun loop _ hm => .inr ⟨loop, by rwa [h] at hm⟩

theorem refl (r : Runner) : SameCalls may r r := elsewhere rfl

theorem trans (h : SameCalls may r r₁) (back : ∀ id loop, r₁.Calls id loop → r.Calls id loop)
    (k : SameCalls may r₁ r₂) : SameCalls may r r₂ where
  stamps := fun loop t ht hm => h.stamps loop t ht (k.stamps loop t ht hm)
  ordered := fun loop id phase ho => k.ordered loop id phase (h.ordered loop id phase ho)
  posted := by
    intro loop id hm
    rcases k.posted loop id hm with hm | hc
    · exact h.posted loop id hm
    · exact .inr (back id loop hc)
  timed := by
    intro loop id hm
    rcases k.timed loop id hm with hm | ⟨other, hm⟩
    · exact .inl hm
    · exact h.timed other id hm

theorem onLoops (r : Runner) {loops : LoopGroup Task} (hp : ∀ i, loops.posted i = r.loops.posted i)
    (ht : ∀ loop id, .resume id ∈ loops.timed loop →
      may id ∨ ∃ other, .resume id ∈ r.loops.timed other) :
    SameCalls may r { r with loops := loops } where
  stamps := fun loop t _ hm => by rwa [← hp]
  ordered := fun loop _ _ ho => by rwa [hp]
  posted := fun loop _ hm => .inl (by rwa [← hp])
  timed := ht

/-- A task is queued that writes nothing down, on the loop of the run if it is the turn of a run. -/
theorem push (r : Runner) {executor : Nat} {t : Task} (hs : t.isStamp = false)
    (hr : ∀ id, t = .resume id → r.Calls id executor) : SameCalls may r (r.push executor t) := by
  have outside : ∀ loop, loop ≠ executor →
      (r.push executor t).loops.posted loop = r.loops.posted loop := by
    intro loop hne
    simp only [Runner.push, LoopGroup.posted, LoopGroup.push, LoopGroup.getElem?_modify,
      if_neg hne.symm]
  have either := LoopGroup.posted_push_or r.loops executor t
  exact {
    stamps := by
      intro loop u hu hm
      rcases either loop with he | he
      · rwa [Runner.push, he] at hm
      · rw [Runner.push, he] at hm
        rcases List.mem_append.mp hm with hm | hm
        · exact hm
        · rw [List.mem_singleton.mp hm, hs] at hu
          cases hu
    ordered := by
      intro loop id phase ho
      rcases either loop with he | he
      · rwa [Runner.push, he]
      · rw [Runner.push, he]
        apply ho.concat
        intro key time same
        rw [same] at hs
        cases hs
    posted := by
      intro loop id hm
      by_cases hl : loop = executor
      · subst hl
        rcases either loop with he | he
        · exact .inl (by rwa [Runner.push, he] at hm)
        · rw [Runner.push, he] at hm
          rcases List.mem_append.mp hm with hm | hm
          · exact .inl hm
          · exact .inr (hr id (List.mem_singleton.mp hm).symm)
      · exact .inl (by rwa [outside loop hl] at hm)
    timed := fun loop _ hm => .inr ⟨loop, LoopGroup.timed_push hm⟩ }

theorem take {executor : Nat} {t : Task} {loops : LoopGroup Task}
    (h : r.loops.next? executor = some (t, loops)) : SameCalls may r { r with loops := loops } := by
  have took := LoopGroup.took_of_next? h
  have tail : ∀ loop, r.loops.posted loop = loops.posted loop ∨
      r.loops.posted loop = t :: loops.posted loop := by
    intro loop
    by_cases he : loop = executor
    · subst he
      rcases took.first with hf | ⟨_, hf⟩
      · exact .inr hf
      · exact .inl hf.symm
    · exact .inl (took.others loop he).symm
  have mem : ∀ loop u, u ∈ loops.posted loop → u ∈ r.loops.posted loop := by
    intro loop u hu
    rcases tail loop with he | he
    · rwa [he]
    · rw [he]
      exact List.mem_cons_of_mem _ hu
  exact {
    stamps := fun loop u _ hm => mem loop u hm
    ordered := by
      intro loop id phase ho
      rcases tail loop with he | he
      · rwa [he] at ho
      · rw [he] at ho
        exact ho.of_cons
    posted := fun loop id hm => .inl (mem loop _ hm)
    timed := fun loop id hm => .inr ⟨loop, took.timed loop _ hm⟩ }

end SameCalls

end Runner
end LoadGen
