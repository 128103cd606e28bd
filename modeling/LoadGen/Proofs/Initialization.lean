import LoadGen.Proofs.ReachableRunners
import Mathlib.Data.List.Induction

namespace LoadGen

theorem Dict.isEmpty_iff {α : Type} {d : Dict α} :
    d.isEmpty = true ↔ ∀ key, ¬ d.contains key := by
  obtain ⟨_ | ⟨⟨key, a⟩, rest⟩⟩ := d
  · exact ⟨fun _ _ => nofun, fun _ => rfl⟩
  · refine ⟨nofun, fun h => absurd ?_ (h key)⟩
    simp [contains, get?, find]

namespace Runner

variable {r r₁ made : Runner} {held : List Nat} {tries : List (Except Failure Unit)}

section Instances
variable {phases : List Phase} {instances d : Dict Instance}

theorem contains_insert (d : Dict Instance) (p : Phase) (name : String) :
    (d.insert p.name { phase := p }).contains name ↔ d.contains name ∨ name = p.name := by
  by_cases he : name = p.name
  · simp [Dict.contains, he]
  · simp [Dict.contains, Dict.get?_insert_of_ne he, he]

theorem free_of_cons {p q : Phase} {rest : List Phase}
    (names : ((p :: rest).map (·.name)).Nodup) (hq : q ∈ rest)
    (free : ¬ instances.contains q.name) :
    ¬ (instances.insert p.name { phase := p }).contains q.name := by
  rw [contains_insert]
  rintro (h | h)
  · exact free h
  · have there : p.name ∈ rest.map (·.name) := by
      rw [← h]
      exact List.mem_map_of_mem hq
    exact (List.nodup_cons.mp names).1 there

theorem made_makeInstances (phases : List Phase) (instances : Dict Instance) (r : Runner) :
    Made r (makeInstances phases instances r).2 := by
  induction phases generalizing instances r with
  | nil => exact .refl r
  | cons p rest ih =>
    rw [makeInstances]
    split
    · exact made_ensureGroup r p
    · exact (made_ensureGroup r p).trans (ih ..)

theorem makeInstances_ok (names : (phases.map (·.name)).Nodup)
    (free : ∀ p ∈ phases, ¬ instances.contains p.name) :
    ∃ d, (makeInstances phases instances r).1 = .ok d ∧
      ∀ name, d.contains name ↔ instances.contains name ∨ name ∈ phases.map (·.name) := by
  induction phases generalizing instances r with
  | nil => exact ⟨instances, rfl, by simp⟩
  | cons p rest ih =>
    obtain ⟨d, hd, hn⟩ := ih (r := r.ensureGroup p) (List.nodup_cons.mp names).2 fun q hq =>
      free_of_cons names hq (free q (List.mem_cons_of_mem _ hq))
    refine ⟨d, ?_, fun name => ?_⟩
    · rw [makeInstances, if_neg (free p List.mem_cons_self)]
      exact hd
    · rw [hn, contains_insert, List.map_cons, List.mem_cons, or_assoc]

theorem makeInstances_error {before after : List Phase} {p : Phase}
    (names : (before.map (·.name)).Nodup) (free : ∀ q ∈ before, ¬ instances.contains q.name)
    (again : instances.contains p.name ∨ p.name ∈ before.map (·.name)) :
    (makeInstances (before ++ p :: after) instances r).1 =
      .error (.config ("duplicate phase " ++ p.name)) := by
  induction before generalizing instances r with
  | nil => rw [List.nil_append, makeInstances, if_pos (again.resolve_right List.not_mem_nil)]
  | cons q rest ih =>
    rw [List.cons_append, makeInstances, if_neg (free q List.mem_cons_self)]
    refine ih (List.nodup_cons.mp names).2 (fun q' hq' =>
      free_of_cons names hq' (free q' (List.mem_cons_of_mem _ hq'))) ?_
    rw [contains_insert, or_assoc, ← List.mem_cons, ← List.map_cons]
    exact again

theorem exists_repeat (h : ¬ (phases.map (·.name)).Nodup) : ∃ before p after,
    phases = before ++ p :: after ∧ (before.map (·.name)).Nodup ∧
      p.name ∈ before.map (·.name) := by
  induction phases using List.reverseRecOn with
  | nil => exact absurd List.nodup_nil h
  | append_singleton phases p ih =>
    by_cases hn : (phases.map (·.name)).Nodup
    · refine ⟨phases, p, [], rfl, hn, ?_⟩
      by_contra hp
      refine h ?_
      rw [List.map_append, List.map_singleton]
      exact List.nodup_append.mpr ⟨hn, List.nodup_singleton _, fun a ha b hb he =>
        hp (List.mem_singleton.mp hb ▸ he ▸ ha)⟩
    · obtain ⟨before, q, after, rfl, names, there⟩ := ih hn
      exact ⟨before, q, after ++ [p], by simp, names, there⟩

end Instances

section Init

/-- A runner as it is when it has just been created. -/
def Created (r : Runner) : Prop :=
  ∃ name agent now processors settings phases plans listening made,
    create name agent now processors settings phases plans = .ok made ∧
      r = { made with listening := listening }

/-- What became of a created runner, with anything in between. Its phases may have been brought into
play any number of times; the answers are listed, the last one first. -/
inductive Handled (made : Runner) : List (Except Failure Unit) → Scene → Prop
  | made : Handled made [] (made, [])
  | init {tries : List (Except Failure Unit)} {r : Runner} {held : List Nat} :
      Handled made tries (r, held) → Handled made (r.init.1 :: tries) (r.init.2, held)
  | next {tries : List (Except Failure Unit)} {x y : Scene} :
      Handled made tries x → Proceeds x y → Handled made tries y

theorem init_of_inPlay (h : r.instances.isEmpty = false) :
    r.init = (.error (.config "runner is already initialized"), r) := by
  rw [init, h]
  rfl

theorem init_ok (h : r.instances.isEmpty = true) (names : (r.phases.map (·.name)).Nodup) :
    ∃ instances, makeInstances r.phases .empty r =
        (.ok instances, (makeInstances r.phases .empty r).2) ∧
      r.init = (.ok (), { (makeInstances r.phases .empty r).2 with
        instances := instances }.startWatchdog) ∧
      (instances.isEmpty = true ↔ r.phases = []) := by
  have nothing : ∀ p ∈ r.phases, ¬ (Dict.empty : Dict Instance).contains p.name := fun _ _ => nofun
  obtain ⟨instances, hm, there⟩ := makeInstances_ok (r := r) names nothing
  have made : makeInstances r.phases .empty r =
      (.ok instances, (makeInstances r.phases .empty r).2) := Prod.ext hm rfl
  refine ⟨instances, made, ?_, ?_⟩
  · rw [init, h, made]
    rfl
  · rw [Dict.isEmpty_iff]
    constructor
    · intro none
      refine List.eq_nil_iff_forall_not_mem.mpr fun p hp => none p.name ?_
      exact (there p.name).mpr (.inr (List.mem_map_of_mem hp))
    · intro none name
      rw [there, none]
      exact not_or.mpr ⟨nofun, nofun⟩

theorem init_duplicate (h : r.instances.isEmpty = true)
    (names : ¬ (r.phases.map (·.name)).Nodup) :
    ∃ before p after, r.phases = before ++ p :: after ∧ (before.map (·.name)).Nodup ∧
      p.name ∈ before.map (·.name) ∧
      r.init = (.error (.config ("duplicate phase " ++ p.name)),
        (makeInstances r.phases .empty r).2) := by
  obtain ⟨before, p, after, he, distinct, again⟩ := exists_repeat names
  have refused : (makeInstances (before ++ p :: after) .empty r).1 =
      .error (.config ("duplicate phase " ++ p.name)) :=
    makeInstances_error distinct (fun _ _ => nofun) (.inr again)
  rw [← he] at refused
  have made : makeInstances r.phases .empty r = (.error (.config ("duplicate phase " ++ p.name)),
      (makeInstances r.phases .empty r).2) := Prod.ext refused rfl
  refine ⟨before, p, after, he, distinct, again, ?_⟩
  rw [init, h, made]
  rfl

theorem made_init_error {f : Failure} (h : r.init.1 = .error f) : Made r r.init.2 := by
  cases hi : r.instances.isEmpty with
  | false =>
    rw [init_of_inPlay hi]
    exact .refl r
  | true =>
    by_cases names : (r.phases.map (·.name)).Nodup
    · obtain ⟨_, _, ok, _⟩ := init_ok hi names
      rw [ok] at h
      cases h
    · obtain ⟨_, _, _, _, _, _, refused⟩ := init_duplicate hi names
      rw [refused]
      exact made_makeInstances ..

/-- No phase is in play, so nothing can belong to one. Phases may come into play then. -/
theorem keyed_inPlay (k : Keyed r.keyOf r) (h : r.instances.isEmpty = true) (m : Made r r₁)
    {instances : Dict Instance}
    (there : ∀ name i, instances.get? name = some i → i.phase.name = name ∧
      ∀ key, i.phase.key = some key → (r₁.groups.get? key).isSome) :
    Keyed { r₁ with instances := instances }.keyOf { r₁ with instances := instances } := by
  have nowhere : ∀ name key, r.keyOf name ≠ some key := by
    intro name key hk
    obtain ⟨i, hi, _⟩ := Option.bind_eq_some_iff.mp hk
    have out := Dict.isEmpty_iff.mp h name
    rw [Dict.contains, hi] at out
    exact out rfl
  obtain ⟨groups, rfl⟩ := m.rest
  exact {
    declared := fun _ => rfl
    names := fun name i hi => (there name i hi).1
    distinct := m.keys k.distinct
    grouped := by
      intro name key hk
      obtain ⟨i, hi, hk⟩ := Option.bind_eq_some_iff.mp hk
      obtain ⟨g, hg⟩ := Option.isSome_iff_exists.mp ((there name i hi).2 key hk)
      exact Dict.mem_keys_of_get? hg
    ids := k.ids
    numbered := k.numbered
    staffed := by
      intro run hrun
      obtain ⟨key, hk, _⟩ := k.staffed run hrun
      exact absurd hk (nowhere _ _)
    bound := fun id s phase hs hp => absurd (k.bound id s phase hs hp) (nowhere _ _)
    inFlight := k.inFlight
    owned := k.owned
    buckets := fun id q b hq hb => absurd (k.buckets id q b hq hb).1 (nowhere _ _)
    free := by
      intro key g hg id hid
      rcases m.made key g hg with hg | rfl
      · exact k.free key g hg id hid
      · cases hid
    current := by
      intro key g phase hg hc
      rcases m.made key g hg with hg | rfl
      · exact absurd (k.current key g phase hg hc) (nowhere _ _)
      · cases hc
    boards := by
      intro key g hg b hb phase hp
      rcases m.made key g hg with hg | rfl
      · exact absurd (k.boards key g hg b hb phase hp) (nowhere _ _)
      · obtain ⟨_, _, rfl⟩ := List.mem_map.mp hb
        cases hp
    fences := fun f hf => absurd (k.fences f hf) (nowhere _ _)
    tasks := by
      intro t ht
      cases t with
      | stamp group phase time => exact absurd (k.tasks _ ht) (nowhere _ _)
      | _ => trivial }

/-- Runners that differ in nothing that belongs to a phase belong to their phases alike. -/
theorem Keyed.own {home : String → Option String} (k : Keyed home r) : Keyed r.keyOf r := by
  have same : home = r.keyOf := funext fun name => (k.declared name).symm
  exact same ▸ k

theorem Created.idle (h : Created made) : Idle made := by
  obtain ⟨_, _, _, _, _, _, _, _, r, hc, rfl⟩ := h
  exact { idle_of_create hc with }

theorem Created.keyed (h : Created made) : Keyed made.keyOf made := by
  have idle := h.idle
  obtain ⟨threads, _, loops⟩ := idle.loops
  have nowhere : ∀ name : String, made.instances.get? name = none := fun name => by
    rw [idle.instances, Dict.get?_empty]
  have noGroup : ∀ key : String, made.groups.get? key = none := fun key => by
    rw [idle.groups, Dict.get?_empty]
  have nobody : ∀ id : Nat, made.session? id = none := fun id => by
    rw [session?, idle.sessions]
    rfl
  exact {
    declared := fun _ => rfl
    names := fun name i hi => by simp [nowhere] at hi
    distinct := by
      rw [idle.groups]
      exact List.nodup_nil
    grouped := fun name key hk => by simp [keyOf, nowhere] at hk
    ids := by simp [idle.runs]
    numbered := by simp [idle.runs]
    staffed := by simp [idle.runs]
    bound := fun id s _ hs => by simp [nobody] at hs
    inFlight := fun id s hs => by simp [nobody] at hs
    owned := by simp [owners, idle.requests]
    buckets := fun id q _ hq => by simp [request?, idle.requests] at hq
    free := fun key g hg => by simp [noGroup] at hg
    current := fun key g _ hg => by simp [noGroup] at hg
    boards := fun key g hg => by simp [noGroup] at hg
    fences := by simp [idle.fences]
    tasks := by
      rintro t ⟨loop, ht⟩
      simp only [loops, LoopGroup.posted, LoopGroup.timed, List.getElem?_replicate] at ht
      split at ht <;> rcases ht with ht | ht <;> cases ht }

theorem keyed_startWatchdog (k : Keyed r.keyOf r) :
    Keyed r.startWatchdog.keyOf r.startWatchdog := by
  have noted : Writes r.keyOf .nothing [] r r.startWatchdog :=
    writes_notes rfl rfl rfl rfl rfl rfl rfl rfl rfl rfl rfl
  exact (noted.keyed k).own

/-- Where a created runner stands after some calls of `init`: the phases are in play if there are
any and a call succeeded. -/
structure Prepared (made : Runner) (tries : List (Except Failure Unit)) (r : Runner) : Prop where
  phases : r.phases = made.phases
  keyed : Keyed r.keyOf r
  inPlay : r.instances.isEmpty = false ↔ .ok () ∈ tries ∧ made.phases ≠ []
  distinct : .ok () ∈ tries → (made.phases.map (·.name)).Nodup

theorem Created.prepared (h : Created made) : Prepared made [] made where
  phases := rfl
  keyed := h.keyed
  inPlay := by simp [h.idle.instances, Dict.isEmpty, Dict.empty]
  distinct := nofun

theorem Prepared.proceeds {x y : Scene} (h : Prepared made tries x.1) (step : Proceeds x y) :
    Prepared made tries y.1 := by
  have touched := step.touches h.keyed
  have names := touched.abides.names
  refine ⟨touched.abides.phases.trans h.phases, (h.keyed.touches touched).own, ?_, h.distinct⟩
  have same : y.1.instances.isEmpty = x.1.instances.isEmpty := by
    have view : ∀ d : Dict Instance, d.isEmpty = d.keys.isEmpty := fun d => by
      rw [Dict.isEmpty, Dict.keys, List.isEmpty_map]
    rw [view, view, names]
  rw [same]
  exact h.inPlay

theorem Prepared.init (h : Prepared made tries r) :
    Prepared made (r.init.1 :: tries) r.init.2 := by
  cases hi : r.instances.isEmpty with
  | false =>
    rw [init_of_inPlay hi]
    refine ⟨h.phases, h.keyed, ?_, fun ok => h.distinct (by simpa using ok)⟩
    rw [h.inPlay]
    simp
  | true =>
    have built := made_makeInstances r.phases .empty r
    obtain ⟨groups, he⟩ := built.rest
    by_cases names : (r.phases.map (·.name)).Nodup
    · obtain ⟨instances, hm, ok, empty⟩ := init_ok hi names
      have there := (makeInstances_made hm List.nodup_nil).2.2
      rw [ok]
      refine ⟨?_, keyed_startWatchdog (keyed_inPlay h.keyed hi built ?_), ?_,
        fun _ => h.phases ▸ names⟩
      · exact (congrArg Runner.phases he).trans h.phases
      · intro name i hget
        rcases there name i hget with hget | ⟨_, _, found, grouped⟩
        · cases hget
        · exact ⟨by simpa using List.find?_some found, grouped⟩
      · change instances.isEmpty = false ↔ _
        rw [← Bool.not_eq_true, empty, h.phases]
        simp
    · obtain ⟨_, _, _, _, _, _, refused⟩ := init_duplicate hi names
      have still : (makeInstances r.phases .empty r).2.instances = r.instances := by rw [he]
      rw [refused]
      refine ⟨(congrArg Runner.phases he).trans h.phases, ?_, ?_,
        fun ok => h.distinct (by simpa using ok)⟩
      · have nothing : ∀ name i, r.instances.get? name = some i → i.phase.name = name ∧
            ∀ key, i.phase.key = some key →
              ((makeInstances r.phases .empty r).2.groups.get? key).isSome := by
          intro name i hget
          have out := Dict.isEmpty_iff.mp hi name
          rw [Dict.contains, hget] at out
          exact absurd rfl out
        have kept := keyed_inPlay h.keyed hi built nothing
        rw [← still] at kept
        exact kept
      · rw [still, h.inPlay]
        simp

theorem Handled.prepared {x : Scene} (h₀ : Created made) (h : Handled made tries x) :
    Prepared made tries x.1 := by
  induction h with
  | made => exact h₀.prepared
  | init _ ih => exact ih.init
  | next _ step ih => exact ih.proceeds step

/-- A call of `init` succeeds if the phases have distinct names and none is in play, which is so
until a call has succeeded for a runner that has phases. From then on every call is refused and
makes no difference. Any other failure names the first phase whose name was there before; it leaves
the runner as it was, but for the groups that were made. -/
theorem initialized_once (h₀ : Created made) (h : Handled made tries (r, held)) :
    (r.init.1 = .ok () ↔ (made.phases.map (·.name)).Nodup ∧
        ¬ (.ok () ∈ tries ∧ made.phases ≠ [])) ∧
      (.ok () ∈ tries ∧ made.phases ≠ [] →
        r.init = (.error (.config "runner is already initialized"), r)) ∧
      (¬ (made.phases.map (·.name)).Nodup → ∃ before p after,
        made.phases = before ++ p :: after ∧ (before.map (·.name)).Nodup ∧
          p.name ∈ before.map (·.name) ∧
          r.init.1 = .error (.config ("duplicate phase " ++ p.name))) ∧
      ∀ f, r.init.1 = .error f → Made r r.init.2 := by
  have prepared := h.prepared h₀
  have inPlay := prepared.inPlay
  have refused : .ok () ∈ tries ∧ made.phases ≠ [] →
      r.init = (.error (.config "runner is already initialized"), r) :=
    fun again => init_of_inPlay (inPlay.mpr again)
  rw [← prepared.phases] at inPlay refused ⊢
  have duplicate : ¬ (r.phases.map (·.name)).Nodup → ∃ before p after,
      r.phases = before ++ p :: after ∧ (before.map (·.name)).Nodup ∧
        p.name ∈ before.map (·.name) ∧
        r.init.1 = .error (.config ("duplicate phase " ++ p.name)) := by
    intro names
    have idle : r.instances.isEmpty = true := by
      rw [← Bool.not_eq_false, inPlay]
      exact fun again => names (prepared.phases ▸ prepared.distinct again.1)
    obtain ⟨before, p, after, he, distinct, there, init⟩ := init_duplicate idle names
    exact ⟨before, p, after, he, distinct, there, congrArg Prod.fst init⟩
  refine ⟨⟨fun ok => ⟨?_, fun again => ?_⟩, fun ⟨names, first⟩ => ?_⟩, refused, duplicate,
    fun f => made_init_error⟩
  · by_contra names
    obtain ⟨_, _, _, _, _, _, error⟩ := duplicate names
    rw [error] at ok
    cases ok
  · rw [refused again] at ok
    cases ok
  · have idle : r.instances.isEmpty = true := by
      rw [← Bool.not_eq_false, inPlay]
      exact first
    obtain ⟨_, _, init, _⟩ := init_ok idle names
    rw [init]

/-- A runner that has just been created for some phases, with one loop. -/
def createdFor (phases : List Phase) : Runner :=
  (create "bench" 0 0 1 {} phases []).toOption.get rfl

theorem createdFor_created (phases : List Phase) : Created (createdFor phases) :=
  ⟨"bench", 0, 0, 1, {}, phases, [], true, createdFor phases, rfl, rfl⟩

/-- The only phase of a runner comes into play, and does so once. -/
theorem gate_initialized_once : ∃ r, (createdFor [gatePhase]).init = (.ok (), r) ∧
    r.init = (.error (.config "runner is already initialized"), r) := by
  have created := createdFor_created [gatePhase]
  have first := (initialized_once created .made).1.mpr ⟨by decide, by simp⟩
  have once : Handled (createdFor [gatePhase]) [.ok ()] ((createdFor [gatePhase]).init.2, []) :=
    first ▸ .init .made
  have again := (initialized_once created once).2.1
    ⟨List.mem_singleton_self _, List.cons_ne_nil _ _⟩
  exact ⟨_, Prod.ext first rfl, again⟩

/-- Without phases every call succeeds and starts a watchdog, and a call that is refused leaves the
groups that were made before. -/
theorem initialized_twice :
    ((createdFor []).init.1 = .ok () ∧ (createdFor []).init.2.init.1 = .ok () ∧
      (createdFor []).init.2.init.2.watchdogStarts = 2) ∧
    (createdFor [gatePhase, gatePhase]).init.1 = .error (.config "duplicate phase login") ∧
      (createdFor [gatePhase, gatePhase]).groups.keys = [] ∧
      (createdFor [gatePhase, gatePhase]).init.2.groups.keys = ["users"] :=
  ⟨⟨rfl, rfl, rfl⟩, rfl, rfl, rfl⟩

end Init

end Runner
end LoadGen
