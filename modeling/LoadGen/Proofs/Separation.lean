import LoadGen.Proofs.Confinement
import LoadGen.Proofs.ReachableRunners

namespace LoadGen.Runner

/-- Each group is about its own phases, and whatever is done for a phase stays in its group. -/
structure Separate (home : String → Option String) (r : Runner) : Prop where
  /-- The boards of a group have buckets for phases of its key, and for no others. -/
  boards : ∀ key g b phase, r.groups.get? key = some g → b ∈ g.boards → phase ∈ b.phaseNames →
    ∃ p ∈ r.phases, p.name = phase ∧ p.key = some key
  orders : ∀ name o, Confined (.own home name) r (r.order name o).2
  happenings : ∀ e r', r.Sensible e → r.after? e = some r' → Confined (r.region home e) r r'
  lends : ∀ key, Confined (.group home key) r (r.acquire key).2
  returns : ∀ key session, Confined (.group home key) r (r.giveBack key session)

theorem Fresh.declares {r : Runner} (h : r.Fresh) {name key : String}
    (hk : r.keyOf name = some key) : ∃ p ∈ r.phases, p.name = name ∧ p.key = some key := by
  obtain ⟨i, hi, hk⟩ := Option.bind_eq_some_iff.mp hk
  have found := h.declared name i hi
  exact ⟨i.phase, List.mem_of_find?_eq_some found, by simpa using List.find?_some found, hk⟩

/-- Whether or not the pool of a key has a session, nothing happens but to its group. -/
theorem touches_lend {home : String → Option String} {r : Runner} {key : String}
    (k : Keyed home r) : ∃ held, Touches home (.group home key) (r, []) ((r.acquire key).2, held) := by
  cases h : (r.acquire key).1 with
  | none => exact ⟨_, writes_miss k rfl (fun _ ho => ho) (Prod.ext h rfl)⟩
  | some session => exact ⟨_, touches_acquire k rfl (Prod.ext h rfl)⟩

theorem Keyed.separate {r₀ r : Runner} (k : Keyed r₀.keyOf r) (h₀ : r₀.Fresh)
    (phases : r.phases = r₀.phases) : Separate r₀.keyOf r where
  boards := fun key g b phase hg hb hp => phases ▸ h₀.declares (k.boards key g hg b hb phase hp)
  orders := fun name o =>
    have writes : Writes r₀.keyOf (.own r₀.keyOf name) [] r (r.order name o).2 :=
      writes_order k name o
    writes.confined k
  happenings := fun e r' hs h =>
    have writes : Writes r₀.keyOf (r.region r₀.keyOf e) [] r r' := writes_after k hs h
    writes.confined k
  lends := fun key =>
    have ⟨_, touches⟩ : ∃ held, Touches r₀.keyOf (.group r₀.keyOf key) (r, [])
        ((r.acquire key).2, held) := touches_lend k
    touches.confined k
  returns := fun key _ => .modifyGroup r (show (Region.group r₀.keyOf key).keys key from rfl) _

/-- However a runner has come to be as it is, its groups do not get in each other's way. -/
theorem groups_separate {r₀ r : Runner} {held : List Nat} (h₀ : r₀.Initial)
    (h : Reaches (r₀, []) (r, held)) : Separate r₀.keyOf r := by
  have k := keyed_of_initial h₀
  have abides := (h.touches (x := (r₀, [])) k).abides
  exact (h.keyed h₀).separate (fresh_of_initial h₀) abides.phases

/-- Two phases that share nothing, of three sessions and of one. -/
def twinPhases : List Phase :=
  [{ gatePhase with name := "reads", key := some "store", model := .always 3 },
    { gatePhase with name := "writes", key := some "log" }]

def twinRunner : Runner := (ready 2 twinPhases).toOption.get rfl

theorem twinRunner_initial : twinRunner.Initial :=
  @initial_of_ready 2 twinPhases twinRunner rfl

/-- One phase has begun, and its first loop measures it. -/
theorem twins_separate : ∃ r g b, Reaches (twinRunner, []) (r, []) ∧
    r.groups.get? "store" = some g ∧ g.boards[0]? = some b ∧ b.phaseNames = ["reads"] ∧
    r.status? "reads" = some .running ∧ Separate twinRunner.keyOf r := by
  have begun : Reaches (twinRunner, []) ((twinRunner.order "reads" .start).2, []) :=
    .single (.orders "reads" .start)
  have h := begun.tail (.happens (e := .turn 0) trivial rfl)
  exact ⟨_, _, _, h, rfl, rfl, rfl, rfl, groups_separate twinRunner_initial h⟩

end LoadGen.Runner
