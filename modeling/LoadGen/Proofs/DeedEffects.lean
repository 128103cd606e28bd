import LoadGen.Proofs.Changes
import LoadGen.Proofs.Standings

namespace LoadGen.Runner

/-- What a deed, other than the begin of a phase, comes down to. -/
inductive Effect (r : Runner) (here : Option Nat) (d : Deed) : Runner → Prop
  | aside {r' : Runner} : Aside nobody r r' → Effect r here d r'
  | move {r₁ : Runner} {phase : String} {i : Instance} {s : Standing} :
      Aside nobody r r₁ → r₁.instances.get? phase = some i → i.standing.Onward r₁.now s →
        Effect r here d (r₁.move here phase s)
  | enroll {r₁ : Runner} {phase key : String} {i : Instance} {session : Nat} :
      d = .enroll phase → r.instances.get? phase = some i → i.phase.key = some key →
        i.standing.status = .running → r.acquire key = (some session, r₁) →
        Effect r here d (r₁.employ session phase)
  | complete {id : Nat} {run : Run} :
      r.runs.find? (·.id == id) = some run → Effect r here d (r.unwind here run)

/-- What comes of a deed that is done. -/
inductive Does (here : Option Nat) (r : Runner) : Deed → Runner → Prop
  | begin {phase : String} {r' : Runner} : r.begin phase = .ok r' → Does here r (.begin phase) r'
  | finish {phase : String} {i : Instance} {s? : Option Standing} :
      r.instances.get? phase = some i → i.standing.Ends r.now s? →
        Does here r (.finish phase) (r.moveIf here phase s?)
  | tryTerminate {phase : String} {i : Instance} {s? : Option Standing} :
      r.instances.get? phase = some i → i.standing.Ends r.now s? →
        Does here r (.tryTerminate phase) (r.moveIf here phase s?)
  | terminate {phase : String} {i : Instance} {s? : Option Standing} :
      r.instances.get? phase = some i → i.standing.Ends r.now s? →
        Does here r (.terminate phase) (r.moveIf here phase s?)
  | fail (phase : String) (f : Failure) : Does here r (.fail phase f) (r.failPhase here phase f)
  | enroll (phase : String) : Does here r (.enroll phase) (r.startSession phase).2
  | complete {run : Run} : r.Finds run → Does here r (.complete run.id) (r.unwind here run)

theorem instance?_eq_ok {r : Runner} {name : String} {i : Instance} :
    r.instance? name = .ok i ↔ r.instances.get? name = some i := by
  unfold instance?
  split
  · rename_i j hj
    simp [hj]
  · rename_i hn
    simp [hn]

theorem does {r r' : Runner} {here : Option Nat} {d : Deed} (h : r.carryOut here d = .ok r') :
    Does here r d r' := by
  cases d with
  | begin => exact .begin h
  | finish =>
    obtain ⟨i, hi, h⟩ := bind_eq_ok.mp h
    obtain ⟨s?, hs, h⟩ := bind_eq_ok.mp h
    cases h
    exact .finish (instance?_eq_ok.mp hi) (.finish hs)
  | tryTerminate =>
    obtain ⟨i, hi, h⟩ := bind_eq_ok.mp h
    cases h
    exact .tryTerminate (instance?_eq_ok.mp hi) .tryTerminate
  | terminate =>
    obtain ⟨i, hi, h⟩ := bind_eq_ok.mp h
    cases h
    exact .terminate (instance?_eq_ok.mp hi) .terminate
  | fail phase f =>
    obtain ⟨_, _, h⟩ := bind_eq_ok.mp h
    cases h
    exact .fail phase f
  | enroll phase =>
    obtain ⟨_, _, h⟩ := bind_eq_ok.mp h
    cases h
    exact .enroll phase
  | complete id =>
    simp only [carryOut] at h
    split at h
    · rename_i run found
      cases h
      obtain rfl := found_id found
      exact .complete found
    · cases h

theorem groupOf?_eq_some {r : Runner} {p : Phase} {key : String} {g : Group} :
    r.groupOf? p = some (key, g) ↔ p.key = some key ∧ r.groups.get? key = some g := by
  simp only [groupOf?, Option.bind_eq_some_iff, Option.map_eq_some_iff, Prod.mk.injEq]
  constructor
  · intro held
    obtain ⟨k, hk, g', hg, rfl, rfl⟩ := held
    exact ⟨hk, hg⟩
  · intro held
    obtain ⟨hk, hg⟩ := held
    exact ⟨key, hk, g, hg, rfl, rfl⟩

theorem effect_moveIf {r r₁ : Runner} {phase : String} {i : Instance} {s? : Option Standing}
    {d : Deed} (here : Option Nat) (ha : Aside nobody r r₁) (hi : r₁.instances.get? phase = some i)
    (hs : ∀ s, s? = some s → i.standing.Onward r₁.now s) :
    Effect r here d (r₁.moveIf here phase s?) := by
  cases s? with
  | none => exact .aside ha
  | some s => exact .move ha hi (hs s rfl)

theorem aside_acquire {r r₁ : Runner} {key : String} (h : r.acquire key = (none, r₁)) :
    Aside nobody r r₁ := by
  cases acquires h with
  | nowhere => exact .refl _
  | @never g group got =>
    have left : Aside nobody r (r.modifyGroup key fun h =>
        { h with pool := (g.pool.acquire fun _ => r.sessions.length).2 }) := by
      refine ⟨.modifyGroup r fun h hh => ?_, .modifyGroup r fun _ _ => rfl, .elsewhere rfl, rfl⟩
      cases group.symm.trans hh
      simp only [Group.stock, Pool.acquire_none got]
    have logged : ∀ q : Runner, Aside nobody q q.logDepletion := by
      intro q
      unfold logDepletion
      split
      · exact .refl q
      · exact (Aside.log q rfl).trans
          (.elsewhere rfl rfl rfl rfl rfl rfl rfl rfl rfl rfl rfl rfl)
    refine left.trans ((logged _).trans ?_)
    unfold depleted
    dsimp only
    split
    · exact .modifyInstance _ fun _ => rfl
    · exact .refl _

theorem effect_enroll {r r' : Runner} {phase : String} {a : Answer} (here : Option Nat)
    (h : Answers r phase a r') : Effect r here (.enroll phase) r' := by
  cases h with
  | refused => exact .aside (.refl r)
  | short _ _ _ ha => exact .aside (aside_acquire ha)
  | granted hi hg hr ha => exact .enroll rfl hi (groupOf?_eq_some.mp hg).1 hr ha

theorem effect_of_deed {r r' : Runner} {here : Option Nat} {d : Deed}
    (hd : ∀ phase, d ≠ .begin phase) (h : r.carryOut here d = .ok r') : Effect r here d r' := by
  cases does h with
  | @begin phase => exact absurd rfl (hd phase)
  | finish hi ends | tryTerminate hi ends | terminate hi ends =>
    exact effect_moveIf here (.refl r) hi fun _ => ends.onward
  | @fail phase f =>
    have noted : Aside nobody r (r.modifyInstance phase fun i =>
        { i with standing := i.standing.blame f }) := .modifyInstance r fun _ => rfl
    unfold failPhase
    dsimp only
    split
    · exact .aside noted
    · rename_i j hj
      exact effect_moveIf here noted hj fun _ => Standing.terminate_onward
  | enroll phase => exact effect_enroll here (answers r phase)
  | complete found => exact .complete found

end LoadGen.Runner
