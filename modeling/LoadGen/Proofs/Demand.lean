import LoadGen.Proofs.Alarms
import LoadGen.Proofs.Lifecycle
import Mathlib.Algebra.Order.BigOperators.Group.List
import Mathlib.Algebra.Order.Ring.Nat

namespace LoadGen

namespace Model

/-- The sessions that a phase asks for when it starts. A paced phase asks for its sessions later. -/
def users : Model → Nat
  | atOnce users => users
  | always users => users
  | noop => 0
  | paced .. => 0

def isPaced : Model → Bool
  | paced .. => true
  | _ => false

theorem users_le (m : Model) : m.users ≤ m.maxSessions := by
  cases m <;> simp [users, maxSessions]

end Model

namespace Runner

/-- What happens to a runner whose phases are brought into play by starts alone. `asks` gives what is
left of the sessions that a start asks for, one by one; other things may happen in between. -/
inductive Driven (r₀ : Runner) : List Happening → (String → Nat) → Runner → Prop
  | refl : Driven r₀ [] (fun _ => 0) r₀
  | begin {es : List Happening} {asks : String → Nat} {r r' : Runner} {phase : String}
      {i : Instance} : Driven r₀ es asks r → r.instances.get? phase = some i →
        r.begin phase = .ok r' →
        Driven r₀ (es ++ [.deed none (.begin phase)])
          (fun name => if name = phase then i.phase.model.users else asks name) r'
  | grant {es : List Happening} {asks : String → Nat} {r r' : Runner} {phase : String} {n : Nat} :
      Driven r₀ es asks r → asks phase = n + 1 → r.carryOut none (.enroll phase) = .ok r' →
        Driven r₀ (es ++ [.deed none (.enroll phase)])
          (fun name => if name = phase then n else asks name) r'
  | other {es : List Happening} {asks : String → Nat} {r r' : Runner} {e : Happening} :
      Driven r₀ es asks r →
        (∀ here phase, e ≠ .deed here (.begin phase) ∧ e ≠ .deed here (.enroll phase)) →
        r.Allowed e → r.after? e = some r' → Driven r₀ (es ++ [e]) asks r'

theorem Driven.course {r₀ r : Runner} {es : List Happening} {asks : String → Nat}
    (h : Driven r₀ es asks r) : Course r₀ es r := by
  induction h with
  | refl => exact .refl
  | begin _ _ hb ih => exact ih.next trivial (toOption_eq_some.mpr hb)
  | grant _ _ he ih => exact ih.next trivial (toOption_eq_some.mpr he)
  | other _ _ ha he ih => exact ih.next ha he

section Start
variable {r₀ r r' : Runner} {es : List Happening} {asks : String → Nat} {name : String}

theorem Driven.startSessions (h : Driven r₀ es asks r) (name : String) (n : Nat)
    (hn : n ≤ asks name) :
    ∃ es' asks', Driven r₀ (es ++ es') asks' (startSessions name n r) := by
  induction n generalizing r es asks with
  | zero => exact ⟨[], asks, by rwa [List.append_nil]⟩
  | succ n ih =>
    cases hi : r.instances.get? name with
    | none =>
      rw [startSessions_succ]
      simp only [startSession, hi]
      exact ⟨[], asks, by simpa using h⟩
    | some i =>
      have admitted : r.carryOut none (.enroll name) = .ok (r.startSession name).2 := by
        simp only [carryOut, instance?, hi]
        rfl
      obtain ⟨k, hk⟩ : ∃ k, asks name = k + 1 := ⟨asks name - 1, by omega⟩
      have next := h.grant hk admitted
      rw [startSessions_succ]
      split <;> rename_i q hq <;> rw [hq] at next
      · obtain ⟨es', asks', rest⟩ := ih next (by simp; omega)
        exact ⟨_, asks', by simpa using rest⟩
      · exact ⟨_, _, next⟩

theorem Driven.start (h : Driven r₀ es asks r) (hs : r.start name = .ok r') :
    ∃ es' asks', Driven r₀ (es ++ .deed none (.begin name) :: es') asks' r' := by
  obtain ⟨i, hi, hs⟩ := bind_eq_ok.mp hs
  obtain ⟨r₁, hb, hs⟩ := bind_eq_ok.mp hs
  have begun := h.begin (instance?_eq_ok.mp hi) hb
  have whole : ∀ es' asks' q, Driven r₀ (es ++ [.deed none (.begin name)] ++ es') asks' q →
      ∃ es' asks', Driven r₀ (es ++ .deed none (.begin name) :: es') asks' q :=
    fun es' asks' q h => ⟨es', asks', by simpa using h⟩
  unfold launch at hs
  split at hs
  · cases hs
    exact whole [] _ _ (by simpa using begun)
  · rename_i users hm
    obtain ⟨es', asks', admitted⟩ :=
      begun.startSessions name users (by simp [hm, Model.users])
    have finished := admitted.other (e := .deed none (.finish name))
      (fun _ _ => ⟨nofun, nofun⟩) trivial (toOption_eq_some.mpr hs)
    exact whole _ _ _ (by simpa using finished)
  · rename_i users hm
    cases hs
    obtain ⟨es', asks', admitted⟩ :=
      begun.startSessions name users (by simp [hm, Model.users])
    exact whole es' asks' _ admitted
  · cases hs
    exact whole _ _ _ (begun.other (e := .pace name) (fun _ _ => ⟨nofun, nofun⟩) trivial rfl)

theorem Driven.later (h : Driven r₀ es asks r) {l m : EventLoop Task} {time : Duration}
    (hl : r.loops.loops = [l]) (hm : l.advance time = m) :
    Driven r₀ (es ++ [.advance 0 time]) asks { r with loops := ⟨[m]⟩ } := by
  refine h.other (e := .advance 0 time) (fun _ _ => ⟨nofun, nofun⟩) trivial ?_
  simp [after?, LoopGroup.advance, LoopGroup.modify, hl, hm]

end Start

/-- Phases and pools are as they were declared. -/
structure Declared (phases : List Phase) (r : Runner) : Prop where
  listed : ∀ name i, r.instances.get? name = some i → phases.find? (·.name == name) = some i.phase
  pools : ∀ key g, r.groups.get? key = some g →
    g.pool.max = poolSize phases key ∧ g.pool.created ≤ g.pool.max

namespace Declared
variable {phases : List Phase} {r r' : Runner}

theorem named (d : r.Declared phases) {name : String} {i : Instance}
    (hi : r.instances.get? name = some i) : i.phase ∈ phases ∧ i.phase.name = name := by
  have hf := d.listed name i hi
  exact ⟨List.mem_of_find?_eq_some hf, by simpa using List.find?_some hf⟩

theorem phase_eq (d : r.Declared phases) (d' : r'.Declared phases) {name : String}
    {i j : Instance} (hi : r.instances.get? name = some i) (hj : r'.instances.get? name = some j) :
    j.phase = i.phase :=
  Option.some.inj ((d'.listed name j hj).symm.trans (d.listed name i hi))

theorem same (d : r.Declared phases) (h : SameHolders r r') : r'.Declared phases where
  listed := by
    intro name j hj
    obtain ⟨i, hi, he⟩ := h.instance_of hj
    rw [Instance.core_phase he]
    exact d.listed name i hi
  pools := by
    intro key g' hg'
    obtain ⟨g, hg, _, hc, hm⟩ := h.group_of hg'
    rw [hc, hm]
    exact d.pools key g hg

/-- A phase stands elsewhere, and a pool has lent a session or has got one back. -/
theorem update (d : r.Declared phases) (phase : String) {f : Instance → Instance}
    (hi : r'.instances = (r.modifyInstance phase f).instances) (hf : ∀ i, (f i).phase = i.phase)
    (hg : ∀ key g', r'.groups.get? key = some g' → ∃ g, r.groups.get? key = some g ∧
      (g.pool.created ≤ g.pool.max → g'.pool.max = g.pool.max ∧ g'.pool.created ≤ g.pool.max)) :
    r'.Declared phases where
  listed := by
    intro name j hj
    rw [hi] at hj
    rcases Dict.eq_of_get?_modify hj with ⟨rfl, i, hi, rfl⟩ | ⟨_, hj⟩
    · rw [hf]
      exact d.listed name i hi
    · exact d.listed name j hj
  pools := by
    intro key g' hg'
    obtain ⟨g, hg, hb⟩ := hg key g' hg'
    obtain ⟨hm, hc⟩ := d.pools key g hg
    obtain ⟨hm', hc'⟩ := hb hc
    rw [hm', hm]
    exact ⟨rfl, by rw [← hm]; exact hc'⟩

theorem acquired {key : String} {session : Nat} (h : r.acquire key = (some session, r')) :
    ∀ k g', r'.groups.get? k = some g' → ∃ g, r.groups.get? k = some g ∧
      (g.pool.created ≤ g.pool.max → g'.pool.max = g.pool.max ∧ g'.pool.created ≤ g.pool.max) := by
  intro k g' hg'
  have lent : ∀ (g₀ : Group) (make : Nat → Nat), r.groups.get? key = some g₀ →
      (r.modifyGroup key fun h => { h with pool := (g₀.pool.acquire make).2 }).groups.get? k =
        some g' → ∃ g, r.groups.get? k = some g ∧
          (g.pool.created ≤ g.pool.max →
            g'.pool.max = g.pool.max ∧ g'.pool.created ≤ g.pool.max) := by
    intro g₀ make hg₀ hg
    rcases Dict.eq_of_get?_modify hg with ⟨rfl, g, before, rfl⟩ | ⟨_, hg⟩
    · cases hg₀.symm.trans before
      exact ⟨g₀, hg₀, Pool.acquire_bound⟩
    · exact ⟨g', hg, fun hc => ⟨rfl, hc⟩⟩
  cases acquires h with
  | anew group | again group => exact lent _ _ group hg'

theorem effect (d : r.Declared phases) (o : r.Owned) {here : Option Nat} {deed : Deed}
    (h : Effect r here deed r') : r'.Declared phases := by
  cases h with
  | aside h => exact d.same h.holders
  | @move r₁ phase i s h _ _ =>
    have stood : (r₁.modifyInstance phase fun i => { i with standing := s }).Declared phases :=
      (d.same h.holders).update phase rfl (fun _ => rfl) fun key g hg => ⟨g, hg, fun hc => ⟨rfl, hc⟩⟩
    exact stood.same (holders_move here phase s r₁)
  | @enroll r₁ phase key i session _ hi _ _ h =>
    have lent := lent_of_acquire o h
    have hired : (r₁.hire session phase).Declared phases :=
      d.update phase (f := fun i => { i with standing := i.standing.join })
        (by rw [hire, Runner.modifyInstance, Runner.modifyInstance, ← lent.instances]; rfl)
        (fun _ => rfl) (@acquired r r₁ key session h)
    exact hired.same (holders_employ lent o)
  | @complete id run h =>
    obtain ⟨i, key, _, _, same⟩ := o.beside_unwind here (List.mem_of_find?_eq_some h)
    have stopped := d.same (@aside_stopSession nobody r run.session).holders
    generalize r.stopSession run.session = q at same stopped
    have retired : (q.retire run key (i.standing.leave r.now)).Declared phases := by
      refine stopped.update run.phase (f := fun j => { j with standing := i.standing.leave r.now })
        rfl (fun _ => rfl) fun k g hg => ?_
      rw [retire_groups] at hg
      split at hg
      · obtain ⟨g₀, hg₀, rfl⟩ := Option.map_eq_some_iff.mp hg
        exact ⟨g₀, hg₀, fun hc => ⟨rfl, hc⟩⟩
      · exact ⟨g, hg, fun hc => ⟨rfl, hc⟩⟩
    exact retired.same same.holders

theorem shifts {m : Remit} (d : r.Declared phases) (o : r.Owned) (h : Shifts m r r') :
    r'.Declared phases := by
  induction h with
  | refl => exact d
  | tail hs h ih =>
    cases h with
    | aside h => exact ih.same h.holders
    | ensure => exact ih.same (.modifyBoard _ ..)
    | record => exact ih.same (.modifyBoard _ ..)
    | clock => exact ih.same (.elsewhere rfl rfl rfl rfl rfl rfl)
    | deed here deed _ hd h => exact ih.effect (o.shifts hs) (effect_of_deed hd h)

theorem change (d : r.Declared phases) (o : r.Owned) {e : Happening} (h : Change r e r') :
    r'.Declared phases := by
  cases h with
  | @begin _ _ phase h =>
    obtain ⟨_, s, r₁, _, _, hr, rfl⟩ := begin_cases h
    have entered : r₁.Declared phases := by
      rcases hr with ⟨key, _, rfl⟩ | rfl
      · exact d.same (holders_enterGroup ..)
      · exact d
    have stood : (r₁.modifyInstance phase fun i => { i with standing := s }).Declared phases :=
      entered.update phase rfl (fun _ => rfl) fun key g hg => ⟨g, hg, fun hc => ⟨rfl, hc⟩⟩
    exact stood.same (holders_move none phase s r₁)
  | survey recent => exact d.same (holders_beginSurvey r recent)
  | pruning => exact d.same (holders_beginPruning r)
  | @order loop t loops hn ht =>
    have took := LoopGroup.took_of_next? hn
    exact d.same ((SameHolders.onLoops r took.size took.running).trans (holders_perform loop _ ht))
  | work _ _ h => exact d.shifts o h

end Declared

theorem Fresh.isDeclared {r : Runner} (h : r.Fresh) : r.Declared r.phases where
  listed := h.declared
  pools := by
    intro key g hg
    rw [h.groups key g hg]
    exact ⟨rfl, Nat.zero_le _⟩

theorem Course.declared {r₀ r : Runner} {es : List Happening} (h₀ : r₀.Initial)
    (h : Course r₀ es r) : r.Declared r₀.phases := by
  induction h with
  | refl => exact (fresh_of_initial h₀).isDeclared
  | next hc ha he ih => exact ih.change (hc.owned h₀) (change_of_after ha he)

section Runs
variable {r r' : Runner} {name : String}

/-- A deed gives a phase one session more at most, and only if it admits one. -/
theorem Effect.runsOf_le (o : r.Owned) {here : Option Nat} {d : Deed} (h : Effect r here d r')
    (name : String) : r'.runsOf name ≤ r.runsOf name ∨
      (d = .enroll name ∧ r'.runsOf name = r.runsOf name + 1) := by
  cases h with
  | aside h => exact .inl (Nat.le_of_eq (h.holders.runsOf_eq name))
  | @move r₁ phase i s h _ _ =>
    left
    rw [(holders_move here phase s r₁).runsOf_eq, ← h.holders.runsOf_eq]
    exact Nat.le_refl _
  | @enroll r₁ phase key i session hd _ _ _ h =>
    have lent := lent_of_acquire o h
    rw [(holders_employ lent o).runsOf_eq, runsOf, hire_runs lent, List.countP_append, hd]
    by_cases he : phase = name
    · subst he
      exact .inr ⟨rfl, by simp [runsOf]⟩
    · exact .inl (by simp [runsOf, he])
  | @complete id run h =>
    have hm := List.mem_of_find?_eq_some h
    obtain ⟨i, key, _, _, same⟩ := o.beside_unwind here hm
    have stopped := (@aside_stopSession nobody r run.session).holders
    have there : run ∈ (r.stopSession run.session).runs := by
      rw [stopSession_runs]
      exact hm
    have counts :=
      @retire_runsOf _ run key (o.same stopped) there (i.standing.leave r.now) name
    left
    rw [same.holders.runsOf_eq, ← stopped.runsOf_eq, counts]
    exact Nat.le_add_right ..

theorem Shifts.runsOf_le {m : Remit} (o : r.Owned) (h : Shifts m r r')
    (hm : ∀ d, m.deeds d → d ≠ .enroll name) : r'.runsOf name ≤ r.runsOf name := by
  induction h with
  | refl => exact Nat.le_refl _
  | tail hs h ih =>
    refine Nat.le_trans ?_ ih
    cases h with
    | aside h => exact Nat.le_of_eq (h.holders.runsOf_eq name)
    | ensure => exact Nat.le_refl _
    | record => exact Nat.le_refl _
    | clock => exact Nat.le_refl _
    | deed here d hd hb h =>
      refine ((effect_of_deed hb h).runsOf_le (o.shifts hs) name).resolve_right fun held => ?_
      exact hm d hd held.1

theorem remit_enrolls_paced {phases : List Phase} (d : r.Declared phases) {i : Instance}
    (hi : r.instances.get? name = some i) (hp : i.phase.model.isPaced = false) {e : Happening}
    (he : ∀ here, e ≠ .deed here (.enroll name)) : ∀ deed, (r.remit e).deeds deed →
      deed ≠ .enroll name := by
  rintro deed h rfl
  cases e with
  | deed here deed =>
    cases h
    exact he here rfl
  | turn loop =>
    rcases r.remit_turn loop with nothing | ⟨t, _, _, may⟩
    · rw [nothing] at h
      cases h
    · rw [may] at h
      cases t with
      | resume id =>
        obtain ⟨_, _, _, h | ⟨_, h⟩⟩ := h
        · cases h
        · cases h
      | pace other =>
        obtain ⟨j, schedule, most, hj, hm, h⟩ := h
        cases h
        have named := (d.named hj).2
        rw [named] at hi
        cases hj.symm.trans hi
        simp [hm, Model.isPaced] at hp
      | _ => cases h
  | command id c => cases c <;> cases h
  | _ => cases h

/-- What happens besides starts gives no phase more sessions, unless it is paced. -/
theorem Change.runsOf_le {phases : List Phase} (d : r.Declared phases) (o : r.Owned)
    {e : Happening} (h : Change r e r') {i : Instance} (hi : r.instances.get? name = some i)
    (hp : i.phase.model.isPaced = false) (he : ∀ here, e ≠ .deed here (.enroll name)) :
    r'.runsOf name ≤ r.runsOf name := by
  have same : SameHolders r r' → r'.runsOf name ≤ r.runsOf name := fun h =>
    Nat.le_of_eq (h.runsOf_eq name)
  cases h with
  | @begin _ _ phase h =>
    obtain ⟨_, s, r₁, _, _, hr, rfl⟩ := begin_cases h
    rw [(holders_move none phase s r₁).runsOf_eq]
    rcases hr with ⟨key, _, rfl⟩ | rfl
    · exact Nat.le_of_eq ((holders_enterGroup ..).runsOf_eq name)
    · exact Nat.le_refl _
  | survey recent => exact same (holders_beginSurvey r recent)
  | pruning => exact same (holders_beginPruning r)
  | @order loop t loops hn ht =>
    have took := LoopGroup.took_of_next? hn
    exact same ((SameHolders.onLoops r took.size took.running).trans (holders_perform loop _ ht))
  | work _ _ h => exact h.runsOf_le o (remit_enrolls_paced d hi hp he)

end Runs

/-- The sessions that a phase has and those that its start will still ask for are not more than it
declares, unless it is paced. -/
structure Supplied (r : Runner) (asks : String → Nat) : Prop where
  idle : ∀ name i, r.instances.get? name = some i → i.standing.status = .notStarted → asks name = 0
  within : ∀ name i, r.instances.get? name = some i → i.phase.model.isPaced = false →
    r.runsOf name + asks name ≤ i.phase.model.users

theorem Supplied.change {phases : List Phase} {r r' : Runner} {asks asks' : String → Nat}
    (w : r.Supplied asks) (o : r.Owned) (d : r.Declared phases) {e : Happening}
    (h : Change r e r')
    (idle : ∀ name j, r'.instances.get? name = some j → j.standing.status = .notStarted →
      asks name = 0 → asks' name = 0)
    (within : ∀ name i, r.instances.get? name = some i → i.phase.model.isPaced = false →
      r.runsOf name + asks name ≤ i.phase.model.users →
        r'.runsOf name + asks' name ≤ i.phase.model.users) : r'.Supplied asks' := by
  obtain ⟨names, stands⟩ := h.stands o
  have d' := d.change o h
  have there : ∀ name j, r'.instances.get? name = some j → ∃ i, r.instances.get? name = some i :=
    fun name j hj => Option.isSome_iff_exists.mp
      (Dict.get?_isSome_of_mem_keys (names ▸ Dict.mem_keys_of_get? hj))
  constructor
  · intro name j hj hn
    obtain ⟨i, hi⟩ := there name j hj
    obtain ⟨l, hl, rank, _⟩ := stands name i hi
    cases hj.symm.trans hl
    apply idle name j hj hn
    apply w.idle name i hi
    rw [hn] at rank
    cases hs : i.standing.status with
    | notStarted => rfl
    | _ => simp [hs, Status.rank] at rank
  · intro name j hj hp
    obtain ⟨i, hi⟩ := there name j hj
    rw [d.phase_eq d' hi hj] at hp ⊢
    exact within name i hi hp (w.within name i hi hp)

section Start
variable {phases : List Phase} {r r' : Runner} {asks : String → Nat} {phase : String}

theorem Supplied.begin (w : r.Supplied asks) (o : r.Owned) (d : r.Declared phases) {i₀ : Instance}
    (hi₀ : r.instances.get? phase = some i₀) (hb : r.begin phase = .ok r') :
    r'.Supplied fun name => if name = phase then i₀.phase.model.users else asks name := by
  have change : Change r (.deed none (.begin phase)) r' := .begin hb
  obtain ⟨_, stands⟩ := begin_stands o hb
  obtain ⟨j₀, hj₀, begun⟩ := stands phase i₀ hi₀
  rw [if_pos rfl] at begun
  apply w.change o d change
  · intro name j hj hn hz
    by_cases he : name = phase
    · subst he
      cases hj.symm.trans hj₀
      rw [begun.2.1] at hn
      cases hn
    · rw [if_neg he, hz]
  · intro name i hi hp hw
    have less := change.runsOf_le d o hi hp fun _ h => by cases h
    by_cases he : name = phase
    · subst he
      cases hi.symm.trans hi₀
      have idle := (o.lawful name i₀ hi₀).idle (.inl begun.1)
      rw [o.counted name i₀ hi₀] at idle
      rw [if_pos rfl]
      omega
    · rw [if_neg he]
      omega

theorem Supplied.grant (w : r.Supplied asks) (o : r.Owned) (d : r.Declared phases) {n : Nat}
    (ha : asks phase = n + 1) (he : r.carryOut none (.enroll phase) = .ok r') :
    r'.Supplied fun name => if name = phase then n else asks name := by
  have admitted : Effect r none (.enroll phase) r' := effect_of_deed (fun _ h => by cases h) he
  apply w.change o d (change_of_after (e := .deed none (.enroll phase)) trivial
    (toOption_eq_some.mpr he))
  · intro name j _ _ hz
    by_cases hn : name = phase
    · subst hn
      omega
    · rw [if_neg hn, hz]
  · intro name i _ _ hw
    have more := admitted.runsOf_le o name
    by_cases hn : name = phase
    · subst hn
      rw [if_pos rfl]
      omega
    · rw [if_neg hn]
      have same := more.resolve_right fun held => hn (Deed.enroll.inj held.1).symm
      omega

end Start

theorem Driven.supplied {r₀ r : Runner} {es : List Happening} {asks : String → Nat}
    (h₀ : r₀.Initial) (h : Driven r₀ es asks r) : r.Supplied asks := by
  induction h with
  | refl =>
    have fresh := fresh_of_initial h₀
    exact ⟨fun _ _ _ _ => rfl, fun _ _ _ _ => by simp [runsOf, fresh.runs]⟩
  | begin hd hi₀ hb ih => exact ih.begin (hd.course.owned h₀) (hd.course.declared h₀) hi₀ hb
  | grant hd ha he ih => exact ih.grant (hd.course.owned h₀) (hd.course.declared h₀) ha he
  | @other es asks r r' e hd hn ha he ih =>
    have o := hd.course.owned h₀
    have d := hd.course.declared h₀
    have change := change_of_after ha he
    apply ih.change o d change
    · exact fun _ _ _ _ hz => hz
    · intro name i hi hp hw
      have less := change.runsOf_le d o hi hp fun here => (hn here name).2
      omega

theorem exists_of_poolSize {phases : List Phase} {key : String} (h : 0 < poolSize phases key) :
    ∃ p ∈ phases, p.key = some key ∧ p.model.maxSessions = poolSize phases key := by
  rw [poolSize, List.foldl_max] at h ⊢
  generalize hl : (phases.filter (·.key == some key)).map (·.model.maxSessions) = l at h ⊢
  cases hm : l.max? with
  | none =>
    rw [hm] at h
    cases h
  | some m =>
    have mem := List.max?_mem hm
    rw [← hl] at mem
    obtain ⟨p, hp, he⟩ := List.mem_map.mp mem
    obtain ⟨hp, hk⟩ := List.mem_filter.mp hp
    exact ⟨p, hp, by simpa using hk, by simp [he]⟩

/-- Phases that share sessions have no more of them than the pool may make. -/
theorem active_le_poolSize {phases : List Phase} {r : Runner} (o : r.Owned)
    (d : r.Declared phases) {name key : String} {i : Instance}
    (hi : r.instances.get? name = some i) (hk : i.phase.key = some key) :
    i.standing.active ≤ poolSize phases key := by
  have hkey : r.keyOf name = some key := by rw [keyOf, hi]; exact hk
  obtain ⟨g, hg⟩ := Option.isSome_iff_exists.mp (o.grouped name key hkey)
  obtain ⟨hm, hc⟩ := d.pools key g hg
  have used := (o.conserved hg).used
  have mem : i.standing.active ∈ (r.phasesOf key).map (·.2.standing.active) :=
    List.mem_map.mpr ⟨(name, i), List.mem_filter.mpr ⟨Dict.mem_entries_of_get? hi, by simpa using hk⟩,
      rfl⟩
  calc i.standing.active
      ≤ ((r.phasesOf key).map (·.2.standing.active)).sum := List.le_sum_of_mem mem
    _ = g.pool.used := used.symm
    _ ≤ g.pool.created := Nat.sub_le ..
    _ ≤ g.pool.max := hc
    _ = poolSize phases key := hm

theorem active_of_unkeyed {r : Runner} (o : r.Owned) {name : String} {i : Instance}
    (hi : r.instances.get? name = some i) (hk : i.phase.key = none) : i.standing.active = 0 := by
  rw [o.counted name i hi, runsOf, List.countP_eq_zero]
  intro run hm he
  obtain ⟨s, _, _, hb⟩ := o.bound run hm
  have hn : run.phase = name := by simpa using he
  rw [hn, keyOf, hi, Option.bind_some, hk] at hb
  cases hb

/-- A phase has no more sessions than it declares. Only a paced phase may have more, if another phase
with its key declares more; then it has no more than that one declares. -/
def Provided (phases : List Phase) (i : Instance) : Prop :=
  i.standing.active ≤ i.phase.model.maxSessions ∨
    (i.phase.model.isPaced = true ∧ ∃ p ∈ phases, p.key = i.phase.key ∧
      i.phase.model.maxSessions < p.model.maxSessions ∧ i.standing.active ≤ p.model.maxSessions)

theorem active_within_declared {r₀ r : Runner} {es : List Happening} {asks : String → Nat}
    (h₀ : r₀.Initial) (h : Driven r₀ es asks r) {name : String} {i : Instance}
    (hi : r.instances.get? name = some i) : Provided r₀.phases i := by
  have o := h.course.owned h₀
  cases hp : i.phase.model.isPaced with
  | false =>
    left
    have within := (h.supplied h₀).within name i hi hp
    have declares := i.phase.model.users_le
    rw [o.counted name i hi]
    omega
  | true =>
    by_cases hle : i.standing.active ≤ i.phase.model.maxSessions
    · exact .inl hle
    · refine .inr ⟨hp, ?_⟩
      cases hk : i.phase.key with
      | none =>
        rw [active_of_unkeyed o hi hk] at hle
        omega
      | some key =>
        have bound := active_le_poolSize o (h.course.declared h₀) hi hk
        have some_sessions : 0 < poolSize r₀.phases key := by omega
        obtain ⟨p, hm, hkey, he⟩ := exists_of_poolSize some_sessions
        exact ⟨p, hm, hkey, by omega, by omega⟩

/-- A phase that gets one session at every tick, and one that declares more of them. Each session
waits at a gate. -/
def sharedPhases : List Phase :=
  [{ gatePhase with name := "trickle", model := .constant 1 1, tick := .ofSeconds 1 },
   { gatePhase with name := "crowd", model := .always 2 }]

def sharedRunner : Runner := (ready 1 sharedPhases).toOption.get rfl

theorem sharedRunner_initial : sharedRunner.Initial :=
  @initial_of_ready 1 sharedPhases sharedRunner rfl

set_option maxRecDepth 10000 in
/-- The first tick gives the phase a session, and the tick after it another one. -/
theorem sharedRunner_driven : ∃ r es asks i, Driven sharedRunner es asks r ∧
    r.instances.get? "trickle" = some i ∧ i.phase.model.maxSessions = 1 ∧ i.standing.active = 2 := by
  obtain ⟨es, asks, h⟩ := Driven.refl.start (rfl : sharedRunner.start "trickle" = .ok _)
  have h := h.other (e := .turn 0) (fun _ _ => ⟨nofun, nofun⟩) (fun _ _ h => by cases h) rfl
  have h := h.other (e := .turn 0) (fun _ _ => ⟨nofun, nofun⟩) (fun _ _ h => by cases h) rfl
  have passed : Duration.nanos (.ofSeconds 1) < 0 + Duration.nanos (.ofMillis 1500) := by decide
  have h := h.later rfl (EventLoop.advance_of_timers_eq rfl rfl passed)
  have h := h.other (e := .turn 0) (fun _ _ => ⟨nofun, nofun⟩) (fun _ _ h => by cases h) rfl
  have h := h.other (e := .turn 0) (fun _ _ => ⟨nofun, nofun⟩) (fun _ _ h => by cases h) rfl
  exact ⟨_, _, _, _, h, rfl, rfl, rfl⟩

/-- The phase declares one session, and has two. -/
theorem trickle_beyond_declared : ∃ r es asks i, Driven sharedRunner es asks r ∧
    r.instances.get? "trickle" = some i ∧ i.phase.model.maxSessions < i.standing.active := by
  obtain ⟨r, es, asks, i, h, hi, hm, ha⟩ := sharedRunner_driven
  exact ⟨r, es, asks, i, h, hi, by omega⟩

/-- It has no more than the other phase declares. -/
theorem trickle_within_crowd : ∃ r es asks i, Driven sharedRunner es asks r ∧
    r.instances.get? "trickle" = some i ∧ i.standing.active = 2 ∧
      Provided sharedRunner.phases i := by
  obtain ⟨r, es, asks, i, h, hi, _, ha⟩ := sharedRunner_driven
  exact ⟨r, es, asks, i, h, hi, ha, active_within_declared sharedRunner_initial h hi⟩

end Runner
end LoadGen
