import LoadGen.Proofs.Initial
import LoadGen.Proofs.PoolChanges
import Mathlib.Data.List.TakeWhile
import Mathlib.Order.Bounds.Basic

namespace LoadGen

/-- A set of uses that lies within another has the same ends if and only if no use of the other is
beyond those that it has. -/
theorem ends_of_subset {s t : Set Nat} {low high : Nat} (hs : s ⊆ t) (least : IsLeast t low)
    (greatest : IsGreatest t high) : (IsLeast s low ∧ IsGreatest s high) ↔
      ∀ n ∈ t, ∃ a ∈ s, ∃ b ∈ s, a ≤ n ∧ n ≤ b := by
  constructor
  · intro ends n hn
    exact ⟨low, ends.1.1, high, ends.2.1, least.2 hn, greatest.2 hn⟩
  · intro within
    obtain ⟨a, ha, _, _, below, _⟩ := within low least.1
    obtain ⟨_, _, b, hb, _, above⟩ := within high greatest.1
    have first : a = low := Nat.le_antisymm below (least.2 (hs ha))
    have last : b = high := Nat.le_antisymm (greatest.2 (hs hb)) above
    exact ⟨⟨first ▸ ha, fun n hn => least.2 (hs hn)⟩, last ▸ hb, fun n hn => greatest.2 (hs hn)⟩

/-- A stroke moves each mark to the new use, if that is beyond it. What is asked for cannot lower
the use, and what comes back cannot raise it. -/
theorem Stake.Next.marks {s s' : Stake} (h : s.Next s') (low : s.pool.minUsed ≤ s.pool.used)
    (high : s.pool.used ≤ s.pool.maxUsed) :
    s'.pool.minUsed = min s'.pool.used s.pool.minUsed ∧
      s'.pool.maxUsed = max s'.pool.used s.pool.maxUsed := by
  cases h with
  | rests | enters | leaves => exact ⟨(Nat.min_eq_right low).symm, (Nat.max_eq_right high).symm⟩
  | asked make =>
    cases asked : s.pool.acquire make with
    | mk got p =>
      cases Pool.acquired asked with
      | again free =>
        simp only [Pool.used, free, List.length_cons] at low ⊢
        exact ⟨(Nat.min_eq_right (by omega)).symm, Nat.max_comm ..⟩
      | anew free =>
        simp only [Pool.used, free, List.length_nil] at low ⊢
        exact ⟨(Nat.min_eq_right (by omega)).symm, Nat.max_comm ..⟩
      | never => exact ⟨(Nat.min_eq_right low).symm, (Nat.max_eq_right high).symm⟩
  | back session =>
    simp only [Pool.release, Pool.used, List.length_cons] at high ⊢
    exact ⟨Nat.min_comm .., (Nat.max_eq_right (by omega)).symm⟩

namespace Runner

/-- A runner at one moment, and the groups whose marks were set then. -/
structure Sample where
  runner : Runner
  marks : String → Bool := fun _ => false

/-- How many sessions of a group were in use. -/
def Sample.used (s : Sample) (key : String) : Option Nat :=
  (s.runner.stake? key).map (·.pool.used)

/-- The way from one runner to another, stroke by stroke. The last sample comes first. -/
inductive Way (r : Runner) : List Sample → Runner → Prop
  | refl : Way r [] r
  | tail {way : List Sample} {q r' : Runner} : Way r way q → Stroke q r' →
      Way r ({ runner := r' } :: way) r'

/-- A new runner and what became of it, with a sample of every moment, the last one first. Between
two strokes nothing happens to a pool. -/
inductive Sampled (r₀ : Runner) : Scene → List Sample → Prop
  | opens : Sampled r₀ (r₀, []) [{ runner := r₀ }]
  | works {x y : Scene} {past way : List Sample} : Sampled r₀ x past → Proceeds x y →
      Way x.1 way y.1 → Sampled r₀ y (way ++ past)
  | looks {r r' : Runner} {held : List Nat} {past : List Sample} {e : Happening} :
      Sampled r₀ (r, held) past → e.isLook = true → r.after? e = some r' →
        Sampled r₀ (r', held) (⟨r', r.looked e⟩ :: past)

/-- The samples since the marks of a group were last set, with the one at which they were. -/
def sinceMarked (key : String) : List Sample → List Sample
  | [] => []
  | s :: past => if s.marks key then [s] else s :: sinceMarked key past

/-- The samples since a phase became the one that its group started last. -/
def sinceBegun (key phase : String) (samples : List Sample) : List Sample :=
  samples.takeWhile fun s => s.runner.current? key == some phase

/-- What was in use at some sample or other. -/
def usesOf (key : String) (samples : List Sample) : Set Nat :=
  { n | some n ∈ samples.map (·.used key) }

/-- The lowest and the highest use at some samples. -/
structure Extremes (key : String) (samples : List Sample) (low high : Nat) : Prop where
  least : IsLeast (usesOf key samples) low
  greatest : IsGreatest (usesOf key samples) high

/-- A phase is reported with the ends of the use of its group's pool since the marks were set. They
are the ends since the phase began, too, if and only if what was in use before that, and after the
marks were set, was within what was in use since. -/
structure UseReported (r : Runner) (samples : List Sample) (phase : String) (low high : Nat)
    (key : String) : Prop where
  home : r.keyOf phase = some key
  current : r.current? key = some phase
  ends : Extremes key (sinceMarked key samples) low high
  own : Extremes key (sinceBegun key phase (sinceMarked key samples)) low high ↔
    ∀ n ∈ usesOf key (sinceMarked key samples),
      ∃ a ∈ usesOf key (sinceBegun key phase (sinceMarked key samples)),
        ∃ b ∈ usesOf key (sinceBegun key phase (sinceMarked key samples)), a ≤ n ∧ n ≤ b
  settled : (∀ s ∈ sinceMarked key samples, s.runner.current? key = some phase) →
    Extremes key (sinceBegun key phase (sinceMarked key samples)) low high

variable {r r₀ r' : Runner} {held : List Nat} {samples past : List Sample} {key phase : String}
  {low high : Nat}

section Marks

/-- The marks of a group are the ends of its use since they were set, this moment included. -/
structure Gauged (key : String) (samples : List Sample) (s : Stake) : Prop where
  here : s.pool.used ∈ usesOf key (sinceMarked key samples)
  ends : Extremes key (sinceMarked key samples) s.pool.minUsed s.pool.maxUsed

theorem usesOf_cons {a : Sample} {s : Stake} (h : a.runner.stake? key = some s)
    (past : List Sample) : usesOf key (a :: past) = insert s.pool.used (usesOf key past) := by
  ext n
  simp [usesOf, Sample.used, h]

theorem usesOf_mono {l l' : List Sample} (h : l ⊆ l') : usesOf key l ⊆ usesOf key l' := by
  intro n hn
  exact List.map_subset _ h hn

theorem gauged_marked {a : Sample} {s : Stake} (h : a.runner.stake? key = some s)
    (since : sinceMarked key samples = [a]) (least : s.pool.minUsed = s.pool.used)
    (greatest : s.pool.maxUsed = s.pool.used) : Gauged key samples s := by
  have one : usesOf key (sinceMarked key samples) = {s.pool.used} := by
    rw [since, usesOf_cons h]
    simp [usesOf]
  exact ⟨by rw [one]; rfl, by rw [one, least]; exact isLeast_singleton,
    by rw [one, greatest]; exact isGreatest_singleton⟩

theorem Gauged.stroke {a : Sample} {s s' : Stake} (h : Gauged key past s) (next : s.Next s')
    (there : a.runner.stake? key = some s') (unmarked : a.marks key = false) :
    Gauged key (a :: past) s' := by
  obtain ⟨least, greatest⟩ := next.marks (h.ends.least.2 h.here) (h.ends.greatest.2 h.here)
  have uses : usesOf key (sinceMarked key (a :: past)) =
      insert s'.pool.used (usesOf key (sinceMarked key past)) := by
    rw [sinceMarked, if_neg (by simp [unmarked]), usesOf_cons there]
  refine ⟨by rw [uses]; exact Set.mem_insert .., ?_, ?_⟩
  · rw [uses, least]
    exact h.ends.least.insert _
  · rw [uses, greatest]
    exact h.ends.greatest.insert _

theorem Way.gauged {way : List Sample} (h : Way r way r')
    (h₀ : ∀ s, r.stake? key = some s → Gauged key past s) {s : Stake}
    (hs : r'.stake? key = some s) : Gauged key (way ++ past) s := by
  induction h generalizing s with
  | refl => exact h₀ s hs
  | tail _ k ih =>
    obtain ⟨t, ht, next⟩ := k.next key s hs
    exact (ih ht).stroke next hs rfl

theorem Sampled.gauged {x : Scene} (h₀ : r₀.Fresh) (h : Sampled r₀ x samples) {s : Stake}
    (hs : x.1.stake? key = some s) : Gauged key samples s := by
  induction h generalizing s with
  | opens =>
    obtain ⟨g, hg, rfl⟩ := Option.map_eq_some_iff.mp hs
    have new := h₀.groups key g hg
    exact gauged_marked hs rfl (by rw [new]; rfl) (by rw [new]; rfl)
  | works _ _ way ih => exact way.gauged (fun _ => ih) hs
  | @looks q q' held past e _ look after ih =>
    have seen := stake?_look look after key
    rw [show q'.stake? key = some s from hs] at seen
    obtain ⟨t, ht, he⟩ := Option.map_eq_some_iff.mp seen.symm
    cases marked : q.looked e key with
    | true =>
      rw [if_pos marked] at he
      exact gauged_marked hs (if_pos marked) (he ▸ rfl) (he ▸ rfl)
    | false =>
      rw [if_neg (by simp [marked])] at he
      exact (ih ht).stroke (he ▸ .rests) hs marked

end Marks

section Runs
variable {x y : Scene}

theorem Strokes.way (h : Strokes r r') : ∃ way, Way r way r' := by
  induction h with
  | refl => exact ⟨[], .refl⟩
  | tail _ stroke ih =>
    obtain ⟨way, h⟩ := ih
    exact ⟨_, h.tail stroke⟩

theorem Sampled.reaches (h : Sampled r₀ x samples) : Reaches (r₀, []) x := by
  induction h with
  | opens => exact .refl
  | works _ step _ ih => exact ih.tail step
  | @looks _ _ _ _ e _ look after ih =>
    have sensible : ∀ q : Runner, q.Sensible e := fun _ => by cases e <;> trivial
    exact ih.tail (.happens (sensible _) after)

theorem Sampled.goes_on (h : Sampled r₀ x samples) (step : Proceeds x y) :
    ∃ more, Sampled r₀ y (more ++ samples) := by
  have by_strokes : Strokes x.1 y.1 → ∃ more, Sampled r₀ y (more ++ samples) := by
    intro strokes
    obtain ⟨way, there⟩ := strokes.way
    exact ⟨way, h.works step there⟩
  cases step with
  | @happens r r' held e _ after =>
    cases look : e.isLook with
    | true => exact ⟨[⟨r', r.looked e⟩], h.looks look after⟩
    | false => exact by_strokes (strokes_after look after)
  | orders name o => exact by_strokes (strokes_order _ name o)
  | takes got => exact by_strokes (strokes_acquire got)
  | misses got => exact by_strokes (strokes_acquire got)
  | returns => exact by_strokes (.single (stroke_giveBack ..))
  | stops session => exact by_strokes (onRequests_stopSession _ session).toSameStakes.strokes
  | shutdown => exact by_strokes (strokes_shutdown _)

theorem sinceBegun_subset (key phase : String) (samples : List Sample) :
    sinceBegun key phase samples ⊆ samples := (List.takeWhile_sublist _).subset

/-- Every use that is reported is that of the group whose current phase is named, and its marks are
right. It is the use of that phase, since it became the current one, unless more or less was in use
before that since the last look. -/
theorem pool_use_reported (h₀ : r₀.Initial) (h : Sampled r₀ (r, held) samples) :
    (∀ phase low high, (phase, low, high) ∈ r.poolStats.1 →
      ∃ key, UseReported r samples phase low high key) ∧
    ∀ y, Proceeds (r, held) y → ∃ more, Sampled r₀ y (more ++ samples) := by
  refine ⟨fun phase low high reported => ?_, fun y => h.goes_on⟩
  have k := h.reaches.keyed h₀
  obtain ⟨_, hm, found⟩ := List.mem_filterMap.mp reported
  obtain ⟨⟨key, g⟩, there, rfl⟩ := List.mem_map.mp hm
  obtain ⟨name, current, marks⟩ := Option.bind_eq_some_iff.mp found
  have hg : r.groups.get? key = some g := Dict.get?_of_mem_entries k.distinct there
  have named : (name, g.pool.minUsed, g.pool.maxUsed) = (phase, low, high) := by
    unfold poolMarks at marks
    split at marks
    · exact Option.some.inj marks
    · cases marks
  cases named
  have gauged := h.gauged (fresh_of_initial h₀) (s := g.stake) (by rw [stake?, hg]; rfl)
  have own := ends_of_subset
    (usesOf_mono (sinceBegun_subset key phase (sinceMarked key samples)))
    gauged.ends.least gauged.ends.greatest
  exact ⟨key, {
    home := (k.declared phase).trans (k.current key g phase hg current)
    current := by rw [current?, hg]; exact current
    ends := gauged.ends
    own := ⟨fun ends => own.mp ⟨ends.least, ends.greatest⟩, fun within =>
      ⟨(own.mpr within).1, (own.mpr within).2⟩⟩
    settled := by
      intro all
      have whole : sinceBegun key phase (sinceMarked key samples) = sinceMarked key samples :=
        List.takeWhile_eq_self_iff.mpr fun s hs => by simpa using all s hs
      rw [whole]
      exact gauged.ends }⟩

/-- Two phases that share a pool, one of two sessions and one of a single session. -/
def relayPhases : List Phase :=
  [{ gatePhase with
      name := "rush"
      model := .atOnce 2
      script := { name := "rush", actions := [] } },
    { gatePhase with name := "calm" }]

def relayRunner : Runner := (ready 1 relayPhases).toOption.get rfl

theorem relayRunner_initial : relayRunner.Initial :=
  @initial_of_ready 1 relayPhases relayRunner rfl

theorem Sampled.stroke {e : Happening} (h : Sampled r₀ (r, held) samples) (key : String)
    (f : Group → Group) (next : ∀ g, r.groups.get? key = some g → g.stake.Next (f g).stake)
    (sensible : r.Sensible e) (after : r.after? e = some r')
    (groups : r'.groups = r.groups.modify key f) :
    Sampled r₀ (r', held) ({ runner := r' } :: samples) := by
  have step : Stroke r r' := ⟨fun other s' hs => by
    rw [stake?, groups] at hs
    exact (stroke_modifyGroup next).next other s' hs⟩
  exact h.works (.happens sensible after) (Way.refl.tail step)

/-- A phase has two sessions, and both are back when the other one begins, which has one. -/
theorem relayRunner_relayed : ∃ r samples, Sampled relayRunner (r, []) samples ∧
    r.poolStats.1 = [("calm", 0, 2)] ∧ r.keyOf "calm" = some "users" ∧
    (sinceMarked "users" samples).map (·.used "users") =
      [some 1, some 0, some 0, some 1, some 2, some 1, some 0, some 0] ∧
    (sinceBegun "users" "calm" samples).map (·.used "users") = [some 1, some 0] := by
  have enters : ∀ (phase : String) (g : Group),
      g.stake.Next ({ g with current := some phase } : Group).stake := fun phase _ => .enters phase
  have asked : ∀ (n : Nat) (g : Group),
      g.stake.Next ({ g with pool := (g.pool.acquire fun _ => n).2 } : Group).stake := fun _ _ =>
    .asked _
  have back : ∀ (session : Nat) (g : Group),
      g.stake.Next ({ g with pool := g.pool.release session } : Group).stake := fun session _ =>
    .back session
  have h := (@Sampled.opens relayRunner).stroke (e := .deed none (.begin "rush")) "users" _
    (fun g _ => enters "rush" g) trivial rfl rfl
  have h := h.stroke (e := .deed none (.enroll "rush")) "users" _
    (fun g _ => asked 0 g) trivial rfl rfl
  have h := h.stroke (e := .deed none (.enroll "rush")) "users" _
    (fun g _ => asked 1 g) trivial rfl rfl
  have h := h.stroke (e := .deed none (.complete 0)) "users" _
    (fun g _ => back 0 g) trivial rfl rfl
  have h := h.stroke (e := .deed none (.complete 1)) "users" _
    (fun g _ => back 1 g) trivial rfl rfl
  have h := h.stroke (e := .deed none (.begin "calm")) "users" _ (fun g _ => enters "calm" g)
    trivial rfl rfl
  have h := h.stroke (e := .deed none (.enroll "calm")) "users" _
    (fun g _ => asked 2 g) trivial rfl rfl
  exact ⟨_, _, h, rfl, rfl, rfl, rfl⟩

/-- The phase is reported with two sessions in use, which is right since the last look. -/
theorem relay_use_reported : ∃ r samples, Sampled relayRunner (r, []) samples ∧
    ("calm", 0, 2) ∈ r.poolStats.1 ∧ ∃ key, UseReported r samples "calm" 0 2 key := by
  obtain ⟨r, samples, h, stats, _⟩ := relayRunner_relayed
  have reported : ("calm", 0, 2) ∈ r.poolStats.1 := by rw [stats]; exact List.mem_singleton_self _
  exact ⟨r, samples, h, reported, (pool_use_reported relayRunner_initial h).1 _ _ _ reported⟩

/-- Since it began, two sessions were never in use. -/
theorem rush_reported_for_calm : ∃ r samples, Sampled relayRunner (r, []) samples ∧
    ("calm", 0, 2) ∈ r.poolStats.1 ∧ r.keyOf "calm" = some "users" ∧
    2 ∉ usesOf "users" (sinceBegun "users" "calm" samples) := by
  obtain ⟨r, samples, h, stats, home, _, since⟩ := relayRunner_relayed
  refine ⟨r, samples, h, by rw [stats]; exact List.mem_singleton_self _, home, ?_⟩
  simp [usesOf, since]

end Runs

end Runner
end LoadGen
