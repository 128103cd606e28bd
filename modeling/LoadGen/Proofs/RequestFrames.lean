import LoadGen.Proofs.RoutineWrites

namespace LoadGen.Runner

/-- Neither the requests nor the phases change. -/
structure Spares (r r' : Runner) : Prop where
  requests : r'.requests = r.requests
  instances : r'.instances = r.instances

theorem spares_acquire {r r₁ : Runner} {key : String} {session : Nat}
    (h : r.acquire key = (some session, r₁)) : Spares r r₁ := by
  cases acquires h with
  | anew | again => exact ⟨rfl, rfl⟩

theorem spares_spawn (r : Runner) (session : Nat) (phase : String) :
    Spares r (r.spawn session phase) := by
  unfold spawn
  dsimp only
  split <;> exact ⟨rfl, rfl⟩

theorem spares_enterGroup (r : Runner) (key name : String) : Spares r (r.enterGroup key name) := by
  obtain ⟨loops, he⟩ := enterGroup_eq r key name
  rw [he]
  exact ⟨rfl, rfl⟩

theorem spares_putOff (run : Run) (r : Runner) : Spares r (putOff run r) := ⟨rfl, rfl⟩

theorem spares_breakOff (r : Runner) (run : Run) : Spares r (r.breakOff run) := by
  unfold breakOff
  split <;> exact ⟨rfl, rfl⟩

theorem spares_openGate {r r' : Runner} {session : Nat} {f : Option Failure}
    (h : r.openGate session f = some r') : Spares r r' := by
  obtain ⟨_, _, _, _, _, rfl⟩ := openGate_eq_some h
  exact ⟨rfl, rfl⟩

theorem spares_phasePoolStats {r r' : Runner} {name : String} {stats : List (String × Nat × Nat)}
    (h : r.phasePoolStats name = .ok (stats, r')) : Spares r r' := by
  obtain ⟨i, _, h⟩ := bind_eq_ok.mp h
  split at h <;> cases h <;> exact ⟨rfl, rfl⟩

end LoadGen.Runner
