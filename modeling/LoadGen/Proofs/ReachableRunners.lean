import LoadGen.Proofs.HappeningRegions
import LoadGen.Runner.Shutdown

namespace LoadGen.Runner

variable {home : String → Option String} {R : Region} {held : List Nat} {r r₀ r₁ r' : Runner}
  {x y : Scene}

/-- One step, with the sessions that somebody has by hand before and after it. -/
inductive Proceeds : Scene → Scene → Prop
  | happens {r r' : Runner} {held : List Nat} {e : Happening} : r.Sensible e →
      r.after? e = some r' → Proceeds (r, held) (r', held)
  | orders {r : Runner} {held : List Nat} (name : String) (o : Order) :
      Proceeds (r, held) ((r.order name o).2, held)
  | takes {r r' : Runner} {held : List Nat} {key : String} {session : Nat} :
      r.acquire key = (some session, r') → Proceeds (r, held) (r', session :: held)
  /-- Nothing is left in the pool. -/
  | misses {r r' : Runner} {held : List Nat} {key : String} :
      r.acquire key = (none, r') → Proceeds (r, held) (r', held)
  | returns {r : Runner} {held : List Nat} {key : String} {session : Nat} : session ∈ held →
      session ∈ r.members key → Proceeds (r, held) (r.giveBack key session, held.erase session)
  | stops {r : Runner} {held : List Nat} (session : Nat) : session < r.sessions.length →
      Proceeds (r, held) (r.stopSession session, held)
  | shutdown {r : Runner} {held : List Nat} : Proceeds (r, held) (r.shutdown, held)

/-- Any number of steps, one after the other. -/
abbrev Reaches : Scene → Scene → Prop := Relation.ReflTransGen Proceeds

section Shutdown

theorem Touch.anywhere (h : Touch home R x y) : Touch home .everything x y := by
  have within : ∀ {q : Runner} {session : Nat}, q.Inside R session → q.Inside .everything session :=
    fun hs => hs.imp fun _ hm => ⟨trivial, hm.2⟩
  cases h with
  | apart h => exact .apart { h with pacers := fun _ hn => absurd trivial hn }
  | phase name _ h => exact .phase name trivial h
  | group key _ h => exact .group key trivial h
  | groups _ h => exact .groups (fun _ => trivial) h
  | session id hs h => exact .session id (within hs) h
  | request id h => exact .request id fun q hq => ⟨within (h q hq).1, (h q hq).2⟩
  | wish hs hn => exact .wish (within hs) hn
  | points h => exact .points fun run hm => ⟨(h run hm).1, .inr trivial⟩
  | take _ h => exact .take trivial h
  | give _ hm there => exact .give trivial hm there
  | hire _ hk hm running => exact .hire (.everything home _) hk hm running
  | lose _ hk hm running => exact .lose (.everything home _) hk hm running
  | part hm _ h => exact .part hm trivial h
  | drop => exact .drop fun _ => trivial

theorem Touches.anywhere (h : Touches home R x y) : Touches home .everything x y := by
  induction h with
  | refl => exact .refl
  | tail _ h ih => exact ih.tail h.anywhere

theorem writes_loopwise (r : Runner) {loops : LoopGroup Task} (size : loops.size = r.loops.size)
    (h : ∀ (i : Nat) l', loops.loops[i]? = some l' → ∃ l, r.loops.loops[i]? = some l ∧
      (∀ t ∈ l'.posted, t ∈ l.posted) ∧ ∀ t ∈ l'.timed, t ∈ l.timed) :
    Writes home R held r { r with loops := loops } := by
  refine writes_fewer r size (fun i t ht => ?_) fun i t ht => ⟨i, ?_⟩ <;>
    simp only [LoopGroup.posted, LoopGroup.timed] at ht ⊢
  all_goals
    cases hl : loops.loops[i]? with
    | none =>
      rw [hl] at ht
      cases ht
    | some l' =>
      rw [hl] at ht
      obtain ⟨l, hl, posted, timed⟩ := h i l' hl
      rw [hl]
      first
        | exact posted t ht
        | exact timed t ht

theorem writes_runFor (n : Nat) (k : Keyed home r) : Writes home .everything held r (runFor n r) := by
  induction n generalizing r with
  | zero => exact .refl
  | succ n ih =>
    simp only [runFor]
    split
    · exact .refl
    · split
      · exact .refl
      · rename_i r' hs
        have once : Writes home .everything held r r' := (writes_turn k hs).anywhere
        exact once.trans (ih (once.keyed k))

theorem closed_empty (l : EventLoop Task) : l.close.posted = [] ∧ l.close.timed = [] := ⟨rfl, rfl⟩

theorem writes_closeIdle (r : Runner) : Writes home R held r r.closeIdle := by
  refine writes_loopwise r (List.length_mapIdx ..) fun i l' hl' => ?_
  rw [LoopGroup.closeWhere, List.getElem?_mapIdx] at hl'
  obtain ⟨l, hl, rfl⟩ := Option.map_eq_some_iff.mp hl'
  refine ⟨l, hl, ?_⟩
  split
  · rw [(closed_empty l).1, (closed_empty l).2]
    exact ⟨nofun, nofun⟩
  · exact ⟨fun _ => id, fun _ => id⟩

theorem writes_advanceTogether (time : Duration) (k : Keyed home r) :
    Writes home .everything held r (r.advanceTogether time) := by
  have later : Writes home .everything held r { r with loops := r.loops.advanceAll time } := by
    refine writes_loopwise r (List.length_map ..) fun i l' hl' => ?_
    rw [LoopGroup.advanceAll, List.getElem?_map] at hl'
    obtain ⟨l, hl, rfl⟩ := Option.map_eq_some_iff.mp hl'
    exact ⟨l, hl, fun t ht => l.posted_advance time ▸ ht, fun t => EventLoop.timed_advance⟩
  exact later.trans (writes_runFor _ (later.keyed k))

theorem writes_runOut (left : Nat) (k : Keyed home r) :
    Writes home .everything held r (runOut left r) := by
  induction left using Nat.strongRecOn generalizing r with
  | ind left ih =>
    have idle : Writes home .everything held r r.closeIdle := writes_closeIdle r
    rw [runOut]
    split
    · exact idle
    · rename_i n _
      split
      · have later := idle.trans (writes_advanceTogether (.ofMillis (n + 1)) (idle.keyed k))
        exact later.trans (ih (left - (n + 1)) (by omega) (later.keyed k))
      · exact idle

theorem writes_shutdown (k : Keyed home r) : Writes home .everything held r r.shutdown := by
  unfold Runner.shutdown
  split
  · exact .refl
  · have stopped : ∀ clients, Writes home .everything held r { r with
        stopped := true, watchdog := none, clients := clients } := fun _ =>
      writes_notes rfl rfl rfl rfl rfl rfl rfl rfl rfl rfl rfl
    have halted := stopped (r.clients.map fun c => { c with shutdowns := c.shutdowns + 1 })
    have ran := halted.trans (writes_runOut r.settings.shutdownTimeout (halted.keyed k))
    refine ran.trans ?_
    dsimp only
    generalize runOut _ _ = q
    have closed : Writes home .everything held q { q with loops := q.loops.close } := by
      refine writes_loopwise q (List.length_map ..) fun i l' hl' => ?_
      rw [LoopGroup.close, List.getElem?_map] at hl'
      obtain ⟨l, hl, rfl⟩ := Option.map_eq_some_iff.mp hl'
      rw [(closed_empty l).1, (closed_empty l).2]
      exact ⟨l, hl, nofun, nofun⟩
    have dropped : Writes home .everything held { q with loops := q.loops.close }
        { q with loops := q.loops.close, runs := [], pacers := .empty } :=
      .single (.drop fun _ => trivial)
    have left : Writes home .everything held
        { q with loops := q.loops.close, runs := [], pacers := .empty }
        { q with
          loops := q.loops.close
          runs := []
          pacers := .empty
          groups := q.groups.map fun g => { g with current := none } } :=
      .single (.groups (fun _ => trivial) fun _ g _ => { Group.Kept.refl _ g with current := nofun })
    exact (closed.trans dropped).trans left

end Shutdown

section Steps

theorem Proceeds.touches (k : Keyed home x.1) (h : Proceeds x y) :
    Touches home .everything x y := by
  cases h with
  | happens hs h => exact (writes_after k hs h).anywhere
  | orders name o => exact (writes_order k name o).anywhere
  | takes h => exact touches_acquire k trivial h
  | misses h => exact writes_miss k trivial (fun _ _ => trivial) h
  | returns hm there => exact .single (.give trivial hm there)
  | @stops r held session hs =>
    have inside : r.Inside (r.ofSession home session) session := inside_ofSession hs
    exact (writes_stopSession k inside).anywhere
  | shutdown => exact writes_shutdown k

theorem Reaches.touches (k : Keyed home x.1) (h : Reaches x y) :
    Touches home .everything x y := by
  induction h with
  | refl => exact .refl
  | tail _ step ih => exact ih.trans (step.touches (k.touches ih))

/-- The keys of the phases say where everything belongs, whatever has happened. -/
theorem Reaches.keyed (h : Reaches (r₀, []) (r, held)) (h₀ : r₀.Initial) :
    Keyed r₀.keyOf r :=
  have k := keyed_of_initial h₀
  k.touches (h.touches (x := (r₀, [])) k)

end Steps

end LoadGen.Runner
