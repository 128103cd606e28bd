import LoadGen.Proofs.RequestFrames

namespace LoadGen

/-- What a group is reported with: its pool, and the phase that it started last. -/
structure Stake where
  pool : Pool Nat
  current : Option String

def Group.stake (g : Group) : Stake := ⟨g.pool, g.current⟩

namespace Runner

def stake? (r : Runner) (key : String) : Option Stake := (r.groups.get? key).map Group.stake

/-- No group has anything else at stake. -/
structure SameStakes (r r' : Runner) : Prop where
  stakes : ∀ key, r'.stake? key = r.stake? key

variable {r r₁ r' : Runner}

namespace SameStakes

theorem refl (r : Runner) : SameStakes r r := ⟨fun _ => rfl⟩

theorem trans (h : SameStakes r r₁) (k : SameStakes r₁ r') : SameStakes r r' :=
  ⟨fun key => (k.stakes key).trans (h.stakes key)⟩

theorem elsewhere (hg : r'.groups = r.groups) : SameStakes r r' :=
  ⟨fun key => by rw [stake?, hg, stake?]⟩

theorem modifyGroup (r : Runner) (key : String) {f : Group → Group}
    (h : ∀ g, (f g).stake = g.stake) : SameStakes r (r.modifyGroup key f) :=
  ⟨Dict.map_get?_modify fun g _ => h g⟩

theorem modifyBoard (r : Runner) (key : String) (loop : Nat) (f : Board → Board) :
    SameStakes r (r.modifyBoard key loop f) := modifyGroup r key fun _ => rfl

end SameStakes

theorem Routine.stakes {moves : Prop} (h : Routine moves r r') : SameStakes r r' := by
  induction h with
  | notes _ _ hg => exact .elsewhere hg
  | push | arm | modifySession | modifyInstance => exact .elsewhere rfl
  | modifyGroup r key hf =>
    refine .modifyGroup r key fun g => ?_
    rw [Group.stake, (hf g).1, (hf g).2, Group.stake]
  | trans _ _ ih later => exact ih.trans later

theorem stakes_employ (r : Runner) (session : Nat) (phase : String) :
    SameStakes r (r.employ session phase) := by
  unfold employ spawn
  dsimp only
  split <;> exact .elsewhere rfl

/-- Only requests, sessions, timers and measurements change. -/
structure OnRequests (r r' : Runner) : Prop extends SameStakes r r' where
  instances : r'.instances = r.instances
  runs : r'.runs = r.runs
  runCount : r'.runCount = r.runCount

namespace OnRequests

theorem elsewhere (hg : r'.groups = r.groups) (hi : r'.instances = r.instances)
    (hr : r'.runs = r.runs) (hc : r'.runCount = r.runCount) : OnRequests r r' :=
  ⟨.elsewhere hg, hi, hr, hc⟩

theorem refl (r : Runner) : OnRequests r r := elsewhere rfl rfl rfl rfl

theorem trans (h : OnRequests r r₁) (k : OnRequests r₁ r') : OnRequests r r' where
  toSameStakes := h.toSameStakes.trans k.toSameStakes
  instances := k.instances.trans h.instances
  runs := k.runs.trans h.runs
  runCount := k.runCount.trans h.runCount

theorem foldl {α : Type} {f : Runner → α → Runner} (h : ∀ r a, OnRequests r (f r a)) (r : Runner)
    (l : List α) : OnRequests r (l.foldl f r) := by
  induction l generalizing r with
  | nil => exact refl r
  | cons a l ih => exact (h r a).trans (ih (f r a))

theorem modifyRequest (r : Runner) (id : Nat) (f : Request → Request) :
    OnRequests r (r.modifyRequest id f) := elsewhere rfl rfl rfl rfl

theorem modifySession (r : Runner) (id : Nat) (f : Session → Session) :
    OnRequests r (r.modifySession id f) := elsewhere rfl rfl rfl rfl

end OnRequests

theorem Routine.onRequests (h : Routine False r r') : OnRequests r r' :=
  ⟨h.stakes, h.instances, h.runs, h.runCount⟩

section Requests

theorem onRequests_disarmRequest (r : Runner) (q : Request) : OnRequests r (r.disarmRequest q) := by
  unfold disarmRequest
  split <;> exact .elsewhere rfl rfl rfl rfl

theorem onRequests_completeRequest (r : Runner) (id : Nat) :
    OnRequests r (r.completeRequest id) := by
  unfold completeRequest
  split
  · exact .refl r
  · have disarmed := onRequests_disarmRequest r
    exact ((disarmed _).trans (.modifyRequest ..)).trans (.modifySession ..)

theorem onRequests_releaseRequest (r : Runner) (id : Nat) : OnRequests r (r.releaseRequest id) :=
  (onRequests_completeRequest r id).trans (.modifyRequest ..)

theorem onRequests_stopSession (r : Runner) (session : Nat) :
    OnRequests r (r.stopSession session) := by
  have left : OnRequests r (r.modifySession session fun s => { s with inFlight := [] }) :=
    .modifySession ..
  exact (left.trans (.foldl onRequests_completeRequest _ _)).trans (.modifySession ..)

theorem onRequests_beginRequest {id : Nat} {sequence : Sequence} {metric : String}
    (h : r.beginRequest id sequence metric = .ok r') : OnRequests r r' := by
  obtain ⟨⟨b, r₁⟩, hb, h⟩ := bind_eq_ok.mp h
  cases h
  have started : ∀ f, OnRequests r₁ (r₁.modifyRequest id f) := fun _ => .modifyRequest ..
  have counted : ∀ q : Runner, OnRequests q (q.measure b r₁.now .request) :=
    fun q => (Routine.modifyBoard q ..).onRequests
  exact (((routine_bucketFor hb).onRequests.trans (started _)).trans (counted _)).trans
    (.modifySession ..)

theorem onRequests_recover (r : Runner) (id : Nat) (recovery : Recovery) :
    OnRequests r (r.recover id recovery) := by
  cases recovery with
  | complete => exact onRequests_completeRequest r id
  | leave => exact .refl r
  | release => exact onRequests_releaseRequest r id
  | markInvalid => exact .modifyRequest ..
  | restart sequence metric =>
    simp only [recover]
    split
    · rename_i h
      exact onRequests_beginRequest h
    · exact .refl r

theorem onRequests_timeOut (r : Runner) (id : Nat) : OnRequests r (r.timeOut id) := by
  have forgot : ∀ f, OnRequests r (r.modifyRequest id f) := .modifyRequest r id
  unfold timeOut
  split
  · exact .refl r
  · dsimp only
    split
    · exact forgot _
    · have late : ∀ f g, OnRequests r ((r.modifyRequest id f).modifyRequest id g) := fun f _ =>
        (forgot f).trans (.modifyRequest ..)
      exact (((late _ _).trans (routine_measureIn ..).onRequests).trans (onRequests_recover ..)).trans
        (routine_notifyConnection ..).onRequests

theorem onRequests_expire (r : Runner) (id : Nat) : OnRequests r (r.expire id) := by
  unfold expire
  split
  · exact .refl r
  · split
    · exact onRequests_timeOut r id
    · exact .refl r

theorem onRequests_setTimeout (r : Runner) (id : Nat) (delay : Duration) :
    OnRequests r (r.setTimeout id delay) := by
  have armed : ∀ loops, OnRequests r { r with loops := loops } :=
    fun _ => .elsewhere rfl rfl rfl rfl
  unfold setTimeout
  split
  · exact .refl r
  · split
    · exact .refl r
    · exact ((armed _).trans (onRequests_disarmRequest ..)).trans (.modifyRequest ..)

/-- A command that is not refused is carried out, with or without its session. -/
theorem command_applied {id : Nat} {c : RequestCommand} (h : r.command id c = .ok r') :
    r.applyCommand id c = .ok r' := by
  unfold command at h
  split at h
  · split at h
    · exact h
    · cases h
  · exact h

theorem onRequests_command {id : Nat} {c : RequestCommand} (h : r.command id c = .ok r') :
    OnRequests r r' := by
  have applied := command_applied h
  cases c with
  | begin => exact onRequests_beginRequest applied
  | setTimeout => cases applied; exact onRequests_setTimeout ..
  | timeOut => cases applied; exact onRequests_timeOut ..
  | respond => cases applied; exact (routine_respond r id).onRequests
  | complete => cases applied; exact onRequests_completeRequest ..
  | release => cases applied; exact onRequests_releaseRequest ..
  | enter => cases applied; exact (routine_enterRequest r id).onRequests
  | exit => cases applied; exact (routine_exitRequest r id).onRequests
  | attach | sent | completing | invalidate | look => cases applied; exact .elsewhere rfl rfl rfl rfl

end Requests

theorem stakes_breakOff (r : Runner) (run : Run) : SameStakes r (r.breakOff run) := by
  unfold breakOff
  split <;> exact .elsewhere rfl

theorem stakes_openGate {session : Nat} {f : Option Failure}
    (h : r.openGate session f = some r') : SameStakes r r' := by
  obtain ⟨_, _, _, _, _, rfl⟩ := openGate_eq_some h
  exact .elsewhere rfl

end Runner
end LoadGen
