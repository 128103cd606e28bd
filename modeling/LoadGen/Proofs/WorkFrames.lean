import LoadGen.Proofs.Timekeeping
import LoadGen.Proofs.Tracking

namespace LoadGen.Runner

/-- The runs are where they were. -/
structure SameRuns (r r' : Runner) : Prop where
  runs : r'.runs = r.runs
  runCount : r'.runCount = r.runCount

/-- Runs and requests stay, and so does what the sessions have in flight. -/
structure KeepsWork (r r' : Runner) : Prop extends SameRuns r r' where
  requests : r'.requests = r.requests
  inFlight : ∀ i, r'.inFlight? i = r.inFlight? i

variable {r r₁ r' : Runner}

namespace SameRuns

theorem refl (r : Runner) : SameRuns r r := ⟨rfl, rfl⟩

theorem trans (h : SameRuns r r₁) (k : SameRuns r₁ r') : SameRuns r r' :=
  ⟨k.runs.trans h.runs, k.runCount.trans h.runCount⟩

theorem foldl {α : Type} {f : Runner → α → Runner} (h : ∀ r a, SameRuns r (f r a)) (r : Runner)
    (l : List α) : SameRuns r (l.foldl f r) := by
  induction l generalizing r with
  | nil => exact refl r
  | cons a l ih => exact (h r a).trans (ih (f r a))

end SameRuns

theorem OnRequests.sameRuns (h : OnRequests r r') : SameRuns r r' := ⟨h.runs, h.runCount⟩

theorem KeepsTime.sameRuns (h : KeepsTime r r') : SameRuns r r' := ⟨h.runs, h.runCount⟩

namespace KeepsWork

theorem elsewhere (hr : r'.runs = r.runs) (hc : r'.runCount = r.runCount)
    (hq : r'.requests = r.requests) (hs : r'.sessions = r.sessions) : KeepsWork r r' := by
  refine ⟨⟨hr, hc⟩, hq, fun i => ?_⟩
  rw [inFlight?, session?, hs]
  rfl

theorem refl (r : Runner) : KeepsWork r r := elsewhere rfl rfl rfl rfl

theorem trans (h : KeepsWork r r₁) (k : KeepsWork r₁ r') : KeepsWork r r' where
  toSameRuns := h.toSameRuns.trans k.toSameRuns
  requests := k.requests.trans h.requests
  inFlight := fun i => (k.inFlight i).trans (h.inFlight i)

theorem foldl {α : Type} {f : Runner → α → Runner} (h : ∀ r a, KeepsWork r (f r a)) (r : Runner)
    (l : List α) : KeepsWork r (l.foldl f r) := by
  induction l generalizing r with
  | nil => exact refl r
  | cons a l ih => exact (h r a).trans (ih (f r a))

theorem modifySession (r : Runner) (id : Nat) {f : Session → Session}
    (hf : ∀ s, (f s).inFlight = s.inFlight) : KeepsWork r (r.modifySession id f) :=
  ⟨⟨rfl, rfl⟩, rfl, (Spins.modifySession r id hf).inFlight⟩

theorem spins (h : KeepsWork r r') : Spins r r' where
  inFlight := h.inFlight
  owner := fun id => by rw [owner?, owner?, request?, h.requests]; rfl
  active := fun id q hq hc => ⟨q, by rw [request?, h.requests]; exact hq, hc⟩

end KeepsWork

theorem Routine.keepsWork {moves : Prop} (h : Routine moves r r') : KeepsWork r r' :=
  ⟨h.keepsTime.sameRuns, h.requests, h.spins.inFlight⟩

theorem keepsWork_begin {name : String} (h : r.begin name = .ok r') : KeepsWork r r' := by
  obtain ⟨i, s, r₁, _, _, entered, rfl⟩ := begin_cases h
  refine KeepsWork.trans ?_ (routine_move ..).keepsWork
  rcases entered with ⟨key, _, rfl⟩ | rfl
  · obtain ⟨loops, he⟩ := enterGroup_eq r key name
    rw [he]
    exact .elsewhere rfl rfl rfl rfl
  · exact .refl _

theorem keepsWork_breakOff (r : Runner) (run : Run) : KeepsWork r (r.breakOff run) := by
  unfold breakOff
  split
  · exact .modifySession r _ fun _ => rfl
  · exact .elsewhere rfl rfl rfl rfl
  · exact .refl r

end LoadGen.Runner
