import LoadGen.Proofs.Admission
import LoadGen.Proofs.Initial
import LoadGen.Proofs.Release

namespace LoadGen.Runner

namespace Owned
variable {r r' : Runner}

theorem effect (o : r.Owned) {here : Option Nat} {d : Deed} (h : Effect r here d r') :
    r'.Owned := by
  cases h with
  | aside h => exact o.same h.holders
  | @move r₁ phase i s h hi hs =>
    have o₁ := o.same h.holders
    exact o₁.move here hi hs.active (hs.lawful (o₁.lawful phase i hi))
  | enroll _ hi hk hs h => exact o.employ (lent_of_acquire o h) hi hk hs
  | complete h => exact o.unwind here (List.mem_of_find?_eq_some h)

theorem shift {m : Remit} (o : r.Owned) (h : Shift m r r') : r'.Owned := by
  cases h with
  | aside h => exact o.same h.holders
  | ensure => exact o.same (.modifyBoard r ..)
  | record => exact o.same (.modifyBoard r ..)
  | clock => exact o.same (.elsewhere rfl rfl rfl rfl rfl rfl)
  | deed here d _ hd h => exact o.effect (effect_of_deed hd h)

theorem shifts {m : Remit} (o : r.Owned) (h : Shifts m r r') : r'.Owned := by
  induction h with
  | refl => exact o
  | tail _ h ih => exact ih.shift h

end Owned

section Orders

theorem holders_enterGroup (r : Runner) (key name : String) :
    SameHolders r (r.enterGroup key name) := by
  have entered : SameHolders r (r.modifyGroup key fun g => { g with current := some name }) :=
    .modifyGroup r fun _ _ => rfl
  exact entered.trans (.foldl (fun r i => .push r i _) _ _)

theorem beside_perform (loop : Nat) (r : Runner) {t : Task} (ht : t.isOrder = true) :
    Beside nobody r (r.perform loop t) := by
  cases t with
  | stamp group phase time => exact .modifyBoard r ..
  | «seal» fence =>
    simp only [perform, Telling.perform, sealed]
    split
    · exact .refl r
    · rename_i f _
      have ended : Beside nobody r { r.endBuckets loop f with
          fences := r.fences.modify fence fun f' => { f' with pending := f.pending - 1 } } :=
        (Beside.modifyBoard r ..).trans (.elsewhere rfl rfl rfl rfl rfl rfl rfl)
      split
      · exact ended.trans (.push _ 0 rfl rfl)
      · exact ended
  | announce fence =>
    simp only [perform, Telling.perform, announce]
    split
    · exact .refl r
    · split
      · exact beside_deliver ..
      · exact .elsewhere rfl rfl rfl rfl rfl rfl rfl
  | resume run => cases ht
  | pace phase => cases ht
  | read survey slot group =>
    simp only [perform, Telling.perform, read]
    split
    · split
      · exact .elsewhere rfl rfl rfl rfl rfl rfl rfl
      · exact (Beside.modifyBoard r ..).trans (.elsewhere rfl rfl rfl rfl rfl rfl rfl)
    · exact .refl r
  | prune group phase => exact .modifyBoard r ..
  | expire request => cases ht

theorem holders_perform (loop : Nat) (r : Runner) {t : Task} (ht : t.isOrder = true) :
    SameHolders r (r.perform loop t) := (beside_perform loop r ht).holders

theorem beside_beginSurvey (r : Runner) (recent : Option Nat) :
    Beside nobody r (r.beginSurvey recent).2 := by
  have noted : ∀ surveys, Beside nobody r { r with surveys := surveys } := fun _ =>
    .elsewhere rfl rfl rfl rfl rfl rfl rfl
  exact (noted _).trans (.foldl (fun r (p : (String × Nat) × Nat) =>
    .push r p.1.2 (t := .read _ p.2 p.1.1) rfl rfl) _ _)

theorem holders_beginSurvey (r : Runner) (recent : Option Nat) :
    SameHolders r (r.beginSurvey recent).2 := (beside_beginSurvey r recent).holders

theorem beside_beginPruning (r : Runner) : Beside nobody r r.beginPruning.2 := by
  have emptied : Beside nobody r { r with pruneQueue := [] } :=
    .elsewhere rfl rfl rfl rfl rfl rfl rfl
  exact emptied.trans (.foldl (fun r (p : String × String × Nat) =>
    .push r p.2.2 (t := .prune p.2.1 p.1) rfl rfl) _ _)

theorem holders_beginPruning (r : Runner) : SameHolders r r.beginPruning.2 :=
  (beside_beginPruning r).holders

end Orders

theorem begin_cases {r r' : Runner} {name : String} (h : r.begin name = .ok r') :
    ∃ i s r₁, r.instances.get? name = some i ∧ i.standing.start name r.now = .ok s ∧
      ((∃ key, i.phase.key = some key ∧ r₁ = r.enterGroup key name) ∨ r₁ = r) ∧
        r' = r₁.move none name s := by
  obtain ⟨i, hi, h⟩ := bind_eq_ok.mp h
  obtain ⟨s, hs, h⟩ := bind_eq_ok.mp h
  refine ⟨i, s, _, instance?_eq_ok.mp hi, hs, ?_, (Except.ok.inj h).symm⟩
  split
  · rename_i key g hg
    exact .inl ⟨key, (groupOf?_eq_some.mp hg).1, rfl⟩
  · exact .inr rfl

namespace Owned
variable {r r' : Runner}

theorem begin (o : r.Owned) {name : String} (h : r.begin name = .ok r') : r'.Owned := by
  obtain ⟨i, s, r₁, hi, hs, hr, rfl⟩ := begin_cases h
  obtain ⟨hl, ha, _⟩ := Standing.start_lawful (o.lawful name i hi) hs
  rcases hr with ⟨key, _, rfl⟩ | rfl
  · have entered := holders_enterGroup r key name
    obtain ⟨j, hj, he⟩ := entered.instance_to hi
    exact (o.same entered).move none hj (ha.trans (Instance.core_active he).symm) hl
  · exact o.move none hi ha hl

theorem change (o : r.Owned) {e : Happening} (h : Change r e r') : r'.Owned := by
  cases h with
  | begin h => exact o.begin h
  | survey recent => exact o.same (holders_beginSurvey r recent)
  | pruning => exact o.same (holders_beginPruning r)
  | @order loop t loops hn ht =>
    have took := LoopGroup.took_of_next? hn
    exact o.same ((SameHolders.onLoops r took.size took.running).trans (holders_perform loop _ ht))
  | work _ _ h => exact o.shifts h

end Owned

theorem Fresh.owned {r : Runner} (h : r.Fresh) : r.Owned where
  size := h.size
  running := by
    intro l hl
    rw [h.loops l hl]
  names := h.names
  lawful := by
    intro name i hi
    rw [h.instances name i hi]
    exact Standing.initial_lawful
  counted := by
    intro name i hi
    rw [h.instances name i hi, runsOf, h.runs]
    rfl
  grouped := by
    intro name key hk
    obtain ⟨i, hi, hk⟩ := Option.bind_eq_some_iff.mp hk
    exact h.grouped name i key hi hk
  ids := by simp [h.runs]
  numbered := by simp [h.runs]
  bound := by simp [h.runs]
  shared := by
    intro key g hg
    rw [h.groups key g hg]
    simp [newGroup, crew, members, h.runs, h.sessions]
  calm := by
    intro key g hg id hid
    rw [h.groups key g hg] at hid
    cases hid
  seated := by simp [h.sessions]

theorem Course.owned {r₀ r : Runner} {es : List Happening} (h₀ : r₀.Initial)
    (h : Course r₀ es r) : r.Owned := by
  induction h with
  | refl => exact (fresh_of_initial h₀).owned
  | next _ ha he ih => exact ih.change (change_of_after ha he)

/-- The phases that share the sessions of a key. -/
def phasesOf (r : Runner) (key : String) : List (String × Instance) :=
  r.instances.entries.filter fun (_, i) => i.phase.key = some key

theorem sum_runsOf (r : Runner) {names : List String} (hn : names.Nodup) :
    (names.map r.runsOf).sum = r.runs.countP fun run => run.phase ∈ names := by
  induction names with
  | nil => simp
  | cons name rest ih =>
    rw [List.nodup_cons] at hn
    rw [List.map_cons, List.sum_cons, ih hn.2, runsOf]
    have apart : ∀ run : Run, run.phase = name → run.phase ∉ rest := fun run he => he ▸ hn.1
    induction r.runs with
    | nil => rfl
    | cons run runs ihr =>
      simp only [List.countP_cons, List.mem_cons, decide_eq_true_eq] at ihr ⊢
      rw [← ihr]
      by_cases he : run.phase = name
      · simp only [he, hn.1, true_or, if_true, if_false]
        omega
      · by_cases hr : run.phase ∈ rest
        · simp only [he, hr, or_true, if_true, if_false]
          omega
        · simp [he, hr]

theorem length_crew {r : Runner} (o : r.Owned) (key : String) :
    (r.crew key).length = ((r.phasesOf key).map (·.2.standing.active)).sum := by
  have entry : ∀ p ∈ r.phasesOf key, r.instances.get? p.1 = some p.2 ∧ p.2.phase.key = some key := by
    intro p hp
    obtain ⟨hm, hk⟩ := List.mem_filter.mp hp
    exact ⟨Dict.get?_of_mem_entries o.names hm, by simpa using hk⟩
  have counts : (r.phasesOf key).map (·.2.standing.active) =
      ((r.phasesOf key).map (·.1)).map r.runsOf := by
    rw [List.map_map]
    exact List.map_congr_left fun p hp => o.counted _ _ (entry p hp).1
  have once : ((r.phasesOf key).map (·.1)).Nodup :=
    o.names.sublist (List.Sublist.map _ List.filter_sublist)
  rw [counts, sum_runsOf r once, crew, List.length_map, ← List.countP_eq_length_filter]
  apply List.countP_congr
  intro run hm
  simp only [decide_eq_true_eq]
  constructor
  · intro hk
    obtain ⟨i, hi, hk⟩ := Option.bind_eq_some_iff.mp hk
    refine List.mem_map.mpr ⟨(run.phase, i), List.mem_filter.mpr ⟨?_, by simpa using hk⟩, rfl⟩
    exact Dict.mem_entries_of_get? hi
  · intro hm
    obtain ⟨p, hp, he⟩ := List.mem_map.mp hm
    obtain ⟨hi, hk⟩ := entry p hp
    rw [← he, keyOf, hi]
    exact hk

/-- Where the sessions of a group are. -/
structure Conserved (r : Runner) (key : String) (g : Group) : Prop where
  /-- Each session is free or at work, and in no other place. -/
  partition : (g.pool.free ++ r.crew key).Perm (r.members key)
  once : (g.pool.free ++ r.crew key).Nodup
  created : (r.members key).length = g.pool.created
  used : g.pool.used = ((r.phasesOf key).map (·.2.standing.active)).sum
  bound : ∀ run ∈ r.runs, r.keyOf run.phase = some key →
    ∃ s, r.sessions[run.session]? = some s ∧ s.group = key ∧ s.phase = some run.phase
  calm : ∀ id ∈ g.pool.free, ∃ s, r.sessions[id]? = some s ∧ s.group = key ∧ s.Calm
  settled : (∀ p ∈ r.phasesOf key, p.2.standing.status = .terminated) → g.pool.used = 0

theorem Owned.conserved {r : Runner} (o : r.Owned) {key : String} {g : Group}
    (hg : r.groups.get? key = some g) : r.Conserved key g := by
  obtain ⟨hp, hc⟩ := o.shared key g hg
  have used : g.pool.used = ((r.phasesOf key).map (·.2.standing.active)).sum := by
    have hl := hp.length_eq
    rw [List.length_append] at hl
    rw [← length_crew o, Pool.used, hc, ← hl, Nat.add_sub_cancel_left]
  refine ⟨hp, hp.nodup_iff.mpr (r.members_nodup key), hc.symm, used, ?_, ?_, ?_⟩
  · intro run hm hk
    obtain ⟨s, hs, hph, hk'⟩ := o.bound run hm
    exact ⟨s, hs, Option.some.inj (hk'.symm.trans hk), hph⟩
  · intro id hid
    obtain ⟨s, hs, hk⟩ := mem_members.mp (hp.subset (List.mem_append_left _ hid))
    exact ⟨s, hs, hk, o.calm key g hg id hid s hs⟩
  · intro ht
    rw [used]
    apply List.sum_eq_zero_iff_forall_eq_nat.mpr
    intro n hn
    obtain ⟨p, hp, rfl⟩ := List.mem_map.mp hn
    have hi := Dict.get?_of_mem_entries o.names (List.mem_filter.mp hp).1
    exact (o.lawful _ _ hi).idle (.inr (ht p hp))

/-- Whatever happens to a runner, in whatever order, all sessions of a group are accounted for. -/
theorem sessions_conserved {r₀ r : Runner} {es : List Happening} (h₀ : r₀.Initial)
    (h : Course r₀ es r) {key : String} {g : Group} (hg : r.groups.get? key = some g) :
    r.Conserved key g := (h.owned h₀).conserved hg

/-- A session at work, and a pool that has nothing else. -/
theorem gate_session_conserved : ∃ r g,
    Course gateRunner [.deed none (.begin "login"), .deed none (.enroll "login")] r ∧
      r.groups.get? "users" = some g ∧ g.pool.used = 1 ∧ r.Conserved "users" g := by
  have begun := Course.one (r := gateRunner) (e := .deed none (.begin "login")) trivial rfl
  have h := Course.next (e := .deed none (.enroll "login")) begun trivial rfl
  exact ⟨_, _, h, rfl, rfl, sessions_conserved gateRunner_initial h rfl⟩

end LoadGen.Runner
