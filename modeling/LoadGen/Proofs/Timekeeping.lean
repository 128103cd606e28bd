import LoadGen.Proofs.Alarms
import LoadGen.Proofs.Requests

namespace LoadGen

/-- The task that the timer of a request holds. -/
def Task.isExpire : Task → Bool
  | .expire _ => true
  | _ => false

/-- The session and the timer of a request, and whether it is held. -/
def Request.watch (q : Request) : Nat × Option Nat × Bool := (q.session, q.timer, q.held)

namespace Runner

/-- Every session lives on one of the loops. -/
def Seated (r : Runner) : Prop :=
  0 < r.loops.size ∧ ∀ e ∈ r.sessions.map (·.executor), e < r.loops.size

def Stocked (r : Runner) : Prop :=
  ∀ key g, r.groups.get? key = some g → ∀ session ∈ g.pool.free, session < r.sessions.length

/-- The timers of requests stay, on the loops as well as in the requests; so do the places of the
sessions, to which others may come, and the runs with the timers that they wait for. -/
structure KeepsTime (r r' : Runner) : Prop where
  loops : LoopGroup.Holds Task.isExpire r.loops r'.loops
  requests : ∀ id, (r'.request? id).map Request.watch = (r.request? id).map Request.watch
  sessions : r.sessions.map (·.executor) <+: r'.sessions.map (·.executor)
  runs : r'.runs = r.runs
  runCount : r'.runCount = r.runCount
  seated : r.Seated → r'.Seated
  stocked : r.Stocked → r'.Stocked

namespace KeepsTime
variable {r r₁ r' : Runner}

theorem samePlaces (hl : r'.loops = r.loops) (hq : r'.requests = r.requests)
    (hs : r'.sessions.map (·.executor) = r.sessions.map (·.executor)) (hr : r'.runs = r.runs)
    (hc : r'.runCount = r.runCount) (hg : r'.groups = r.groups) : KeepsTime r r' where
  loops := by rw [hl]; exact .refl _
  requests := fun id => by simp only [request?, hq]
  sessions := by simp only [hs, List.prefix_rfl]
  runs := hr
  runCount := hc
  seated := by
    intro h
    rw [Seated, hs, hl]
    exact h
  stocked := by
    intro h
    have population : r'.sessions.length = r.sessions.length := by
      simpa using congrArg List.length hs
    rw [Stocked, hg, population]
    exact h

theorem elsewhere (hl : r'.loops = r.loops) (hq : r'.requests = r.requests)
    (hs : r'.sessions = r.sessions) (hr : r'.runs = r.runs) (hc : r'.runCount = r.runCount)
    (hg : r'.groups = r.groups) : KeepsTime r r' := samePlaces hl hq (by rw [hs]) hr hc hg

theorem refl (r : Runner) : KeepsTime r r := elsewhere rfl rfl rfl rfl rfl rfl

theorem trans (h : KeepsTime r r₁) (k : KeepsTime r₁ r') : KeepsTime r r' where
  loops := h.loops.trans k.loops
  requests := fun id => (k.requests id).trans (h.requests id)
  sessions := h.sessions.trans k.sessions
  runs := k.runs.trans h.runs
  runCount := k.runCount.trans h.runCount
  seated := k.seated ∘ h.seated
  stocked := k.stocked ∘ h.stocked

theorem foldl {α : Type} {f : Runner → α → Runner} (h : ∀ r a, KeepsTime r (f r a)) (r : Runner)
    (l : List α) : KeepsTime r (l.foldl f r) := by
  induction l generalizing r with
  | nil => exact refl r
  | cons a l ih => exact (h r a).trans (ih (f r a))

theorem onLoops (r : Runner) {loops : LoopGroup Task}
    (h : LoopGroup.Holds Task.isExpire r.loops loops) : KeepsTime r { r with loops := loops } :=
  { refl r with
    loops := h
    seated := by simp only [Seated, h.size]; exact id }

theorem push (r : Runner) (executor : Nat) {t : Task} (ht : t.isExpire = false) :
    KeepsTime r (r.push executor t) := onLoops r (.push _ _ ht)

theorem modifyGroup (r : Runner) {key : String} {f : Group → Group}
    (hf : ∀ g, r.groups.get? key = some g → ∀ session ∈ (f g).pool.free,
      session ∈ g.pool.free ∨ session < r.sessions.length) : KeepsTime r (r.modifyGroup key f) :=
  { refl r with
    stocked := by
      intro h other g' hg session hm
      rcases Dict.eq_of_get?_modify hg with ⟨rfl, g, there, rfl⟩ | ⟨_, hg⟩
      · exact (hf g there session hm).elim (h other g there session) id
      · exact h other g' hg session hm }

theorem sameFree (r : Runner) {key : String} {f : Group → Group}
    (hf : ∀ g, (f g).pool.free = g.pool.free) : KeepsTime r (r.modifyGroup key f) :=
  modifyGroup r fun g _ _ hm => .inl (hf g ▸ hm)

theorem modifyBoard (r : Runner) (key : String) (executor : Nat) (f : Board → Board) :
    KeepsTime r (r.modifyBoard key executor f) := sameFree r fun _ => rfl

theorem modifySession (r : Runner) (id : Nat) {f : Session → Session}
    (hf : ∀ s, (f s).executor = s.executor) : KeepsTime r (r.modifySession id f) := by
  refine samePlaces rfl rfl (List.ext_getElem? fun i => ?_) rfl rfl rfl
  simp only [Runner.modifySession, List.getElem?_map, List.getElem?_modify]
  split
  · simp [Function.comp_def, hf]
  · simp

theorem modifyRequest (r : Runner) (id : Nat) {f : Request → Request}
    (hf : ∀ q, r.request? id = some q → (f q).watch = q.watch) :
    KeepsTime r (r.modifyRequest id f) :=
  { refl r with
    requests := by
      intro other
      simp only [request?, Runner.modifyRequest, List.getElem?_modify]
      split
      · rename_i he
        cases hq : r.requests[other]? with
        | none => rfl
        | some q => exact congrArg some (hf q (he ▸ hq))
      · simp }

end KeepsTime

variable {r r' : Runner}

theorem Routine.keepsTime {moves : Prop} (h : Routine moves r r') : KeepsTime r r' := by
  have other : ∀ {t : Task}, (∀ id, t ≠ .expire id) → t.isExpire = false := by
    intro t ht
    cases t with
    | expire id => exact absurd rfl (ht id)
    | _ => rfl
  induction h with
  | notes hl _ hg hs hq hr hc => exact .elsewhere hl hq hs hr hc hg
  | push r loop ht => exact .push r loop (other ht)
  | arm r loop delay ht => exact .onLoops r (.arm _ _ _ (other ht))
  | modifyGroup r key hf => exact .sameFree r fun g => by rw [(hf g).1]
  | modifySession r id hf => exact .modifySession r id fun s => (hf s).1
  | modifyInstance => exact .elsewhere rfl rfl rfl rfl rfl rfl
  | trans _ _ ih later => exact ih.trans later

section Phases

theorem keepsTime_enterGroup (r : Runner) (key name : String) :
    KeepsTime r (r.enterGroup key name) := by
  have entered : KeepsTime r (r.modifyGroup key fun g => { g with current := some name }) :=
    .sameFree r fun _ => rfl
  exact entered.trans (.foldl (fun _ _ => .push _ _ rfl) _ _)

theorem keepsTime_begin {name : String} (h : r.begin name = .ok r') : KeepsTime r r' := by
  obtain ⟨i, s, r₁, _, _, entered, rfl⟩ := begin_cases h
  refine KeepsTime.trans ?_ (routine_move ..).keepsTime
  rcases entered with ⟨key, _, rfl⟩ | rfl
  · exact keepsTime_enterGroup ..
  · exact .refl _

theorem free_acquire (pool : Pool Nat) (make : Nat → Nat) :
    (pool.acquire make).2.free ⊆ pool.free := by
  cases hg : (pool.acquire make).1 with
  | none =>
    rw [Pool.acquire_none hg]
    exact List.Subset.refl _
  | some a =>
    rcases Pool.acquire_some hg with ⟨hf, _⟩ | ⟨_, he, _⟩
    · rw [hf]
      exact List.subset_cons_self ..
    · rw [he]
      exact List.nil_subset _

theorem keepsTime_newSession (r : Runner) {s : Session}
    (hs : 0 < r.loops.size → s.executor < r.loops.size) :
    KeepsTime r { r with sessions := r.sessions ++ [s] } :=
  { KeepsTime.refl r with
    sessions := by
      rw [List.map_append]
      exact List.prefix_append ..
    seated := by
      intro h
      refine ⟨h.1, fun e he => ?_⟩
      rw [List.map_append] at he
      rcases List.mem_append.mp he with he | he
      · exact h.2 e he
      · rw [List.mem_singleton.mp he]
        exact hs h.1
    stocked := by
      intro h key g hg session hm
      rw [List.length_append]
      exact Nat.lt_add_right _ (h key g hg session hm) }

theorem keepsTime_acquire {key : String} {got : Option Nat} (h : r.acquire key = (got, r')) :
    KeepsTime r r' := by
  have taken : ∀ g, r.groups.get? key = some g → KeepsTime r (r.modifyGroup key fun h =>
      { h with pool := (g.pool.acquire fun _ => r.sessions.length).2 }) := by
    refine fun g hg => .modifyGroup r fun g' hg' session hm => .inl ?_
    cases hg.symm.trans hg'
    exact free_acquire g.pool _ hm
  cases acquires h with
  | nowhere => exact .refl r
  | never group => exact (taken _ group).trans (routine_depleted ..).keepsTime
  | anew group =>
    exact (taken _ group).trans (keepsTime_newSession _ fun pos => Nat.mod_lt _ pos)
  | again group => exact taken _ group

theorem acquire_lt {key : String} {session : Nat} (hs : r.Stocked)
    (h : r.acquire key = (some session, r')) : session < r'.sessions.length := by
  cases acquires h with
  | anew => simp
  | again group got old =>
    rcases Pool.acquire_some got with ⟨hf, _⟩ | ⟨_, _, new, _⟩
    · exact hs key _ group session (hf ▸ List.mem_cons_self)
    · exact absurd new old

theorem keepsTime_giveBack (r : Runner) (key : String) {session : Nat}
    (h : session < r.sessions.length) : KeepsTime r (r.giveBack key session) := by
  refine .modifyGroup r fun g _ other hm => ?_
  rcases List.mem_cons.mp hm with rfl | hm
  · exact .inr h
  · exact .inl hm

end Phases

section Views

theorem keepsTime_poolStats (r : Runner) : KeepsTime r r.poolStats.2 :=
  { KeepsTime.refl r with
    stocked := by
      intro h key g' hg
      simp only [poolStats, Dict.get?_map] at hg
      obtain ⟨g, there, rfl⟩ := Option.map_eq_some_iff.mp hg
      split <;> exact h key g there }

theorem keepsTime_phasePoolStats {name : String} {stats : List (String × Nat × Nat)}
    (h : r.phasePoolStats name = .ok (stats, r')) : KeepsTime r r' := by
  obtain ⟨i, _, h⟩ := bind_eq_ok.mp h
  split at h <;> cases h
  · exact .refl _
  · exact .sameFree r fun _ => rfl

end Views

section Requests

theorem keepsTime_startRequest (r : Runner) (id : Nat) (sequence : Sequence) (b : BucketRef) :
    KeepsTime r (r.startRequest id sequence b) := by
  have started : KeepsTime r (r.modifyRequest id (·.start r.now r.instant sequence b)) :=
    .modifyRequest r id fun _ _ => rfl
  refine (started.trans (.modifyBoard ..)).trans (.modifySession _ _ fun s => ?_)
  unfold Session.track
  split <;> rfl

theorem keepsTime_beginRequest {id : Nat} {sequence : Sequence} {metric : String}
    (h : r.beginRequest id sequence metric = .ok r') : KeepsTime r r' := by
  obtain ⟨⟨b, r₁⟩, hb, hr⟩ := bind_eq_ok.mp h
  cases hr
  exact (routine_bucketFor hb).keepsTime.trans (keepsTime_startRequest ..)

end Requests

end Runner
end LoadGen
