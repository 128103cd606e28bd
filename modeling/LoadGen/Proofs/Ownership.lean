import LoadGen.Proofs.DeedEffects
import Mathlib.Algebra.GroupWithZero.Nat
import Mathlib.Data.List.Nodup
import Mathlib.Data.List.Perm.Basic
import Mathlib.Data.List.Perm.Subperm

namespace LoadGen.Runner

/-- The key that a phase shares its sessions under. -/
def keyOf (r : Runner) (phase : String) : Option String :=
  (r.instances.get? phase).bind (·.phase.key)

/-- The sessions at work for the phases of a group. -/
def crew (r : Runner) (key : String) : List Nat :=
  (r.runs.filter fun run => r.keyOf run.phase = some key).map (·.session)

def members (r : Runner) (key : String) : List Nat :=
  (List.range r.sessions.length).filter fun id => (r.sessions[id]?).map (·.group) = some key

def runsOf (r : Runner) (phase : String) : Nat := r.runs.countP (·.phase = phase)

/-- Every session is in exactly one place, and the phases know how many sessions they have. -/
structure Owned (r : Runner) : Prop where
  size : 0 < r.loops.size
  running : r.loops.Running
  names : r.instances.keys.Nodup
  lawful : ∀ name i, r.instances.get? name = some i → i.standing.Lawful
  counted : ∀ name i, r.instances.get? name = some i → i.standing.active = r.runsOf name
  grouped : ∀ name key, r.keyOf name = some key → (r.groups.get? key).isSome
  ids : (r.runs.map (·.id)).Nodup
  numbered : ∀ run ∈ r.runs, run.id < r.runCount
  bound : ∀ run ∈ r.runs, ∃ s, r.sessions[run.session]? = some s ∧ s.phase = some run.phase ∧
    r.keyOf run.phase = some s.group
  shared : ∀ key g, r.groups.get? key = some g →
    (g.pool.free ++ r.crew key).Perm (r.members key) ∧ g.pool.created = (r.members key).length
  calm : ∀ key g, r.groups.get? key = some g → ∀ id ∈ g.pool.free, ∀ s,
    r.sessions[id]? = some s → s.Calm
  seated : ∀ s ∈ r.sessions, s.executor < r.loops.size

theorem crew_core (r : Runner) (key : String) :
    r.crew key = ((r.runs.map Run.core).filter fun c => r.keyOf c.phase = some key).map
      (·.session) := by
  rw [List.filter_map, List.map_map]
  rfl

theorem runsOf_core (r : Runner) (phase : String) :
    r.runsOf phase = (r.runs.map Run.core).countP (·.phase = phase) := by
  rw [List.countP_map]
  rfl

theorem mem_members {r : Runner} {key : String} {id : Nat} :
    id ∈ r.members key ↔ ∃ s, r.sessions[id]? = some s ∧ s.group = key := by
  simp only [members, List.mem_filter, List.mem_range, decide_eq_true_eq, Option.map_eq_some_iff]
  constructor
  · exact fun h => h.2
  · intro held
    obtain ⟨s, hs, hg⟩ := held
    exact ⟨(List.getElem?_eq_some_iff.mp hs).1, s, hs, hg⟩

theorem members_nodup (r : Runner) (key : String) : (r.members key).Nodup :=
  List.nodup_range.filter _

theorem members_congr {r r' : Runner} {key : String}
    (hl : r'.sessions.length = r.sessions.length)
    (hg : ∀ id : Nat, (r'.sessions[id]?).map (·.group) = (r.sessions[id]?).map (·.group)) :
    r'.members key = r.members key := by
  simp only [members, hl, hg]

theorem core_lawful {i j : Instance} (h : j.core = i.core) (hi : i.standing.Lawful) :
    j.standing.Lawful := by
  rw [← Standing.lawful_notes none false] at hi ⊢
  rwa [Instance.core_standing h]

namespace SameHolders
variable {r r' : Runner}

theorem instance_of (h : SameHolders r r') {name : String} {j : Instance}
    (hj : r'.instances.get? name = some j) :
    ∃ i, r.instances.get? name = some i ∧ j.core = i.core := by
  have hc := h.instances name
  rw [hj] at hc
  obtain ⟨i, hi, he⟩ := Option.map_eq_some_iff.mp hc.symm
  exact ⟨i, hi, he.symm⟩

theorem instance_to (h : SameHolders r r') {name : String} {i : Instance}
    (hi : r.instances.get? name = some i) :
    ∃ j, r'.instances.get? name = some j ∧ j.core = i.core := by
  have hc := h.instances name
  rw [hi] at hc
  exact Option.map_eq_some_iff.mp hc

theorem keyOf_eq (h : SameHolders r r') (name : String) : r'.keyOf name = r.keyOf name := by
  have hc := h.instances name
  unfold keyOf
  cases hj : r'.instances.get? name with
  | none =>
    rw [hj] at hc
    rw [Option.map_eq_none_iff.mp hc.symm]
  | some j =>
    obtain ⟨i, hi, he⟩ := h.instance_of hj
    rw [hi]
    simp only [Option.bind_some, Instance.core_phase he]

theorem crew_eq (h : SameHolders r r') (key : String) : r'.crew key = r.crew key := by
  simp only [crew_core, h.runs, h.keyOf_eq]

theorem runsOf_eq (h : SameHolders r r') (name : String) : r'.runsOf name = r.runsOf name := by
  rw [runsOf_core, runsOf_core, h.runs]

theorem members_eq (h : SameHolders r r') (key : String) : r'.members key = r.members key := by
  apply members_congr h.population
  intro id
  cases hs : r'.sessions[id]? with
  | none =>
    have hn := List.getElem?_eq_none_iff.mp hs
    rw [h.population] at hn
    rw [List.getElem?_eq_none_iff.mpr hn]
  | some s' =>
    obtain ⟨s, hs, hp, _⟩ := h.sessions id s' hs
    rw [hs]
    exact congrArg some (congrArg Prod.fst hp)

theorem group_of (h : SameHolders r r') {key : String} {g' : Group}
    (hg : r'.groups.get? key = some g') :
    ∃ g, r.groups.get? key = some g ∧ g'.pool.free = g.pool.free ∧
      g'.pool.created = g.pool.created ∧ g'.pool.max = g.pool.max := by
  have hc := h.groups key
  rw [hg] at hc
  obtain ⟨g, hg, he⟩ := Option.map_eq_some_iff.mp hc.symm
  simp only [Group.stock, Prod.mk.injEq] at he
  exact ⟨g, hg, he.1.symm, he.2.1.symm, he.2.2.symm⟩

theorem run_of (h : SameHolders r r') {run : Run} (hm : run ∈ r'.runs) :
    ∃ run₀ ∈ r.runs, run₀.core = run.core := by
  have hc : run.core ∈ r.runs.map Run.core := h.runs ▸ List.mem_map_of_mem hm
  exact List.mem_map.mp hc

end SameHolders

namespace Owned
variable {r r' : Runner}

theorem rests (o : r.Owned) {key : String} {g : Group} (hg : r.groups.get? key = some g)
    {id : Nat} (hf : id ∈ g.pool.free) : ¬ r.AtWork id := by
  intro held
  obtain ⟨run, hm, rfl⟩ := held
  obtain ⟨hp, _⟩ := o.shared key g hg
  have hn := (hp.nodup_iff).mpr (r.members_nodup key)
  have hin : run.session ∈ r.members key := hp.subset (List.mem_append_left _ hf)
  obtain ⟨s, hs, hk⟩ := mem_members.mp hin
  obtain ⟨s', hs', _, hb⟩ := o.bound run hm
  cases hs.symm.trans hs'
  have hc : run.session ∈ r.crew key :=
    List.mem_map_of_mem (List.mem_filter.mpr ⟨hm, by simp [hb, hk]⟩)
  exact (List.nodup_append.mp hn).2.2 _ hf _ hc rfl

theorem run_of_session (o : r.Owned) {a b : Run} (ha : a ∈ r.runs) (hb : b ∈ r.runs)
    (h : a.session = b.session) : a = b := by
  obtain ⟨s, hs, hp, hk⟩ := o.bound a ha
  obtain ⟨t, ht, hq, hl⟩ := o.bound b hb
  rw [← h, hs] at ht
  cases ht
  obtain ⟨g, hg⟩ := Option.isSome_iff_exists.mp (o.grouped a.phase s.group hk)
  have whole := (o.shared s.group g hg).1.nodup_iff.mpr (members_nodup r s.group)
  have crew : (r.crew s.group).Nodup := (List.nodup_append.mp whole).2.1
  exact List.inj_on_of_nodup_map crew (List.mem_filter.mpr ⟨ha, by simp [hk]⟩)
    (List.mem_filter.mpr ⟨hb, by simp [hl]⟩) h

theorem same (o : r.Owned) (h : SameHolders r r') : r'.Owned where
  size := by rw [h.size]; exact o.size
  running := h.running o.running
  names := by rw [h.names]; exact o.names
  lawful := by
    intro name j hj
    obtain ⟨i, hi, he⟩ := h.instance_of hj
    exact core_lawful he (o.lawful name i hi)
  counted := by
    intro name j hj
    obtain ⟨i, hi, he⟩ := h.instance_of hj
    rw [Instance.core_active he, h.runsOf_eq]
    exact o.counted name i hi
  grouped := by
    intro name key hk
    rw [h.keyOf_eq] at hk
    have hs := o.grouped name key hk
    have hc := h.groups key
    cases hg : r'.groups.get? key with
    | some g => rfl
    | none =>
      rw [hg] at hc
      rw [Option.map_eq_none_iff.mp hc.symm] at hs
      exact hs
  ids := by
    have hc : ∀ q : Runner, q.runs.map (·.id) = (q.runs.map Run.core).map (·.id) := fun q => by
      rw [List.map_map]
      rfl
    rw [hc, h.runs, ← hc]
    exact o.ids
  numbered := by
    intro run hm
    obtain ⟨run₀, hm₀, he⟩ := h.run_of hm
    rw [← (Run.core_eq he).1, h.runCount]
    exact o.numbered run₀ hm₀
  bound := by
    intro run hm
    obtain ⟨run₀, hm₀, he⟩ := h.run_of hm
    obtain ⟨_, hs, hp⟩ := Run.core_eq he
    obtain ⟨s, hb, hph, hk⟩ := o.bound run₀ hm₀
    rw [hs] at hb
    rw [hp] at hph hk
    have hlt : run.session < r'.sessions.length := by
      rw [h.population]
      exact (List.getElem?_eq_some_iff.mp hb).1
    have hs' := List.getElem?_eq_getElem hlt
    obtain ⟨t, ht, hpl, _⟩ := h.sessions _ _ hs'
    cases hb.symm.trans ht
    simp only [Session.place, Prod.mk.injEq] at hpl
    refine ⟨_, hs', hpl.2.2.trans hph, ?_⟩
    rw [h.keyOf_eq, hk, hpl.1]
  shared := by
    intro key g' hg'
    obtain ⟨g, hg, hf, hc, _⟩ := h.group_of hg'
    rw [hf, hc, h.crew_eq, h.members_eq]
    exact o.shared key g hg
  calm := by
    intro key g' hg' id hid s' hs'
    obtain ⟨g, hg, hf, _⟩ := h.group_of hg'
    rw [hf] at hid
    obtain ⟨s, hs, _, hc⟩ := h.sessions id s' hs'
    rcases hc (o.calm key g hg id hid s hs) with hc | hw
    · exact hc
    · exact absurd hw (o.rests hg hid)
  seated := by
    intro s' hs'
    obtain ⟨id, hs'⟩ := List.mem_iff_getElem?.mp hs'
    obtain ⟨s, hs, hp, _⟩ := h.sessions id s' hs'
    simp only [Session.place, Prod.mk.injEq] at hp
    rw [hp.2.1, h.size]
    exact o.seated s (List.mem_of_getElem? hs)

end Owned

theorem keyOf_modifyInstance (r : Runner) (phase : String) {f : Instance → Instance}
    (h : ∀ i, (f i).phase = i.phase) (name : String) :
    (r.modifyInstance phase f).keyOf name = r.keyOf name := by
  simp only [keyOf, Runner.modifyInstance, Dict.get?_modify]
  split
  · cases r.instances.get? name with
    | none => rfl
    | some i => simp [h]
  · rfl

theorem crew_congr {r r' : Runner} (hr : r'.runs = r.runs)
    (hk : ∀ name, r'.keyOf name = r.keyOf name) (key : String) : r'.crew key = r.crew key := by
  simp only [crew, hr, hk]

namespace Owned

theorem stand {r : Runner} (o : r.Owned) {phase : String} {i : Instance} {s : Standing}
    (hi : r.instances.get? phase = some i) (ha : s.active = i.standing.active) (hl : s.Lawful) :
    (r.modifyInstance phase fun i => { i with standing := s }).Owned := by
  have keys := keyOf_modifyInstance r phase (f := fun i => { i with standing := s }) fun _ => rfl
  have crews : ∀ key, (r.modifyInstance phase fun i => { i with standing := s }).crew key =
      r.crew key := crew_congr rfl keys
  have there : ∀ name j, (r.modifyInstance phase fun i =>
      { i with standing := s }).instances.get? name = some j →
      (name = phase ∧ j.standing = s) ∨ r.instances.get? name = some j := by
    intro name j hj
    by_cases he : name = phase
    · subst he
      simp only [Runner.modifyInstance, Dict.get?_modify_self, hi, Option.map_some,
        Option.some.injEq] at hj
      exact .inl ⟨rfl, by rw [← hj]⟩
    · exact .inr (by simpa only [Runner.modifyInstance, Dict.get?_modify_of_ne he] using hj)
  exact { o with
    names := by
      rw [Runner.modifyInstance, Dict.keys_modify]
      exact o.names
    lawful := by
      intro name j hj
      rcases there name j hj with ⟨_, he⟩ | hj
      · rw [he]
        exact hl
      · exact o.lawful name j hj
    counted := by
      intro name j hj
      rcases there name j hj with ⟨rfl, he⟩ | hj
      · rw [he, ha]
        exact o.counted name i hi
      · exact o.counted name j hj
    grouped := by
      intro name key hk
      rw [keys] at hk
      exact o.grouped name key hk
    bound := by
      intro run hm
      rw [keys]
      exact o.bound run hm
    shared := by
      intro key g hg
      rw [crews]
      exact o.shared key g hg }

theorem move {r : Runner} (o : r.Owned) (here : Option Nat) {phase : String} {i : Instance}
    {s : Standing} (hi : r.instances.get? phase = some i) (ha : s.active = i.standing.active)
    (hl : s.Lawful) : (r.move here phase s).Owned :=
  (o.stand hi ha hl).same (holders_move here phase s r)

end Owned

end LoadGen.Runner
