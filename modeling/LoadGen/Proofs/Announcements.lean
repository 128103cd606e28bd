import LoadGen.Proofs.Fences

namespace LoadGen.Runner

section Announce

theorem Fenced.fence_unique {r : Runner} (o : r.Fenced) {m n : Nat} {f g : Fence}
    (hf : r.fences[m]? = some f) (hg : r.fences[n]? = some g) (hp : f.phase = g.phase) : m = n := by
  have hlt : m < (r.fences.map (·.phase)).length := by
    rw [List.length_map]
    exact (List.getElem?_eq_some_iff.mp hf).1
  exact (List.getElem?_inj hlt o.once).mp (by simp [hf, hg, hp])

/-- The announcement has had its turn, and waits for the loops. -/
def park (r : Runner) (fence : Nat) : Runner :=
  { r with fences := r.fences.modify fence fun f => { f with parked := true } }

variable {r r₁ : Runner} {loop fence : Nat} (o : r.Fenced) (h : Taken r r₁ loop (.announce fence))
include o h

theorem announce_single : ∃ f, r.fences[fence]? = some f ∧ r.outstanding fence = 1 ∧
    r₁.queued (.announce fence) = 0 ∧ f.waits = 0 := by
  have hm : .announce fence ∈ r.orders loop := by
    rw [h.first]
    exact List.mem_cons_self
  have hlt := o.known loop fence (.inr hm)
  have hf := List.getElem?_eq_getElem hlt
  have hs := o.single fence hlt
  have hq := h.queued (.announce fence)
  rw [if_pos rfl] at hq
  rw [outstanding, hq, hf, Option.map_some, Option.getD_some] at hs
  refine ⟨_, hf, ?_, by omega, by omega⟩
  rw [outstanding, hq, hf, Option.map_some, Option.getD_some]
  omega

omit o in
theorem announce_others {m : Nat} (hne : m ≠ fence) :
    r₁.outstanding m = r.outstanding m := by
  have hq := h.queued (.announce m)
  rw [if_neg (by simpa using hne), Nat.add_zero] at hq
  rw [outstanding, outstanding, hq, h.fences]

theorem Fenced.announce_now {f : Fence} (hf : r.fences[fence]? = some f) (hp : f.pending = 0) :
    (r₁.deliver f.phase (Fence.outcome f)).Fenced := by
  obtain ⟨_, _, hone, hgone, _⟩ := announce_single o h
  have own : r₁.outstanding fence = 0 := by
    rw [outstanding, hgone, h.fences, hf]
    simp [Fence.waits, hp]
  have advances : Advances r r₁ := { h.story with
    prunes := fun _ _ _ hm => h.mem hm
    prompt := h.prompt
    known := by
      intro other m hm
      rw [h.fences]
      exact o.known other m (hm.imp h.mem h.mem)
    pending := by
      intro m g hg
      rw [h.fences] at hg
      have hq := h.queued (.seal m)
      rw [if_neg (by simp), Nat.add_zero] at hq
      rw [← hq]
      exact o.pending m g hg
    outstanding := by
      intro m
      by_cases he : m = fence
      · simp [he, own]
      · exact Nat.le_of_eq (announce_others h he)
    settled := by
      intro m g hg h0
      rw [h.fences] at hg
      by_cases he : m = fence
      · subst he
        cases hf.symm.trans hg
        exact hp
      · rw [announce_others h he] at h0
        exact o.settled m g hg h0 }
  have released : r₁.Released f.phase := ⟨fence, f, by rw [h.fences]; exact hf, rfl, own⟩
  refine (o.advance advances).deliver (Fence.outcome f) (.inr ⟨released, fun hs => ?_⟩)
  obtain ⟨hk, _, _⟩ := o.raised fence f hf
  obtain ⟨m, g, hg, hph, h0⟩ := o.seen f.phase f.group hk (advances.unseen hs)
  rw [o.fence_unique hg hf hph, hone] at h0
  cases h0

omit o h in
theorem park_lookup {f : Fence} (hf : r.fences[fence]? = some f) (m : Nat) :
    (r.park fence).fences[m]? = if m = fence then some { f with parked := true } else r.fences[m]? :=
  getElem?_modify_of_eq hf (fun f => { f with parked := true }) m

omit o h in
theorem park_story (r : Runner) (fence : Nat) : SameStory r (r.park fence) where
  keys := fun _ => rfl
  statuses := fun _ => rfl
  causes := map_modify_eq (g := fun f => { f with parked := true }) (fun _ => rfl) r.fences fence
  pruneQueue := rfl
  ended := rfl

theorem park_outstanding {f : Fence} (hf : r.fences[fence]? = some f) (hp : f.pending ≠ 0) (m : Nat) :
    (r₁.park fence).outstanding m = r.outstanding m := by
  have hlook := park_lookup (r := r₁) (by rw [h.fences]; exact hf) m
  have queued : (r₁.park fence).queued (.announce m) = r₁.queued (.announce m) := rfl
  rw [outstanding, hlook, queued]
  by_cases he : m = fence
  · subst he
    obtain ⟨_, _, hone, hgone, _⟩ := announce_single o h
    simp [hone, hgone, Fence.waits, hp]
  · rw [if_neg he, ← announce_others h he, outstanding]

/-- A loop has still to end the measurement, so the announcement waits for it. -/
theorem Fenced.announce_later {f : Fence} (hf : r.fences[fence]? = some f) (hp : f.pending ≠ 0) :
    (r₁.park fence).Fenced := by
  have hlook := park_lookup (r := r₁) (by rw [h.fences]; exact hf)
  have story := h.story.trans (park_story r₁ fence)
  exact o.advance { story with
    prunes := fun _ _ _ hm => h.mem hm
    prompt := h.prompt
    known := by
      intro other m hm
      rw [story.length]
      exact o.known other m (hm.imp h.mem h.mem)
    pending := by
      intro m g hg
      have hq : r.queued (.seal m) = (r₁.park fence).queued (.seal m) + _ := h.queued (.seal m)
      rw [if_neg (by simp), Nat.add_zero] at hq
      rw [← hq]
      rw [hlook] at hg
      split at hg
      · rename_i he
        subst he
        cases hg
        exact o.pending m f hf
      · rw [h.fences] at hg
        exact o.pending m g hg
    outstanding := fun m => Nat.le_of_eq (park_outstanding o h hf hp m)
    settled := by
      intro m g hg h0
      rw [park_outstanding o h hf hp] at h0
      rw [hlook] at hg
      split at hg
      · rename_i he
        obtain ⟨_, _, hone, _⟩ := announce_single o h
        rw [he, hone] at h0
        cases h0
      · rw [h.fences] at hg
        exact o.settled m g hg h0 }

theorem Fenced.announce : (r₁.announce fence).Fenced := by
  obtain ⟨f, hf, _⟩ := announce_single o h
  have hf₁ : r₁.fences[fence]? = some f := by
    rw [h.fences]
    exact hf
  simp only [Runner.announce, hf₁]
  split
  · rename_i hp
    exact o.announce_now h hf hp
  · rename_i hp
    exact o.announce_later h hf hp

end Announce

section Prune

theorem Fenced.push_prune {r : Runner} (o : r.Fenced) (loop : Nat) (key : String) {phase : String}
    (h : ∀ k, r.keyOf phase = some k → r.Released phase ∧ phase ∉ r.pruneQueue) :
    (r.push loop (.prune key phase)).Fenced := by
  have seals : ∀ m, (r.push loop (.prune key phase)).queued (.seal m) = r.queued (.seal m) :=
    fun m => queued_push_of_ne r loop rfl nofun
  have whole : ∀ m, (r.push loop (.prune key phase)).outstanding m = r.outstanding m :=
    fun m => outstanding_push r loop rfl m nofun
  have released : ∀ p : String, r.Released p → (r.push loop (.prune key phase)).Released p := by
    intro p held
    obtain ⟨m, f, hf, hp, h0⟩ := held
    exact ⟨m, f, hf, hp, by rw [whole]; exact h0⟩
  exact { o with
    prompt := prompt_push o.prompt loop _
    known := by
      intro other m hm
      rcases hm with hm | hm
      · rcases orders_mem_push hm with hm | hm
        · exact o.known other m (.inl hm)
        · simp at hm
      · rcases orders_mem_push hm with hm | hm
        · exact o.known other m (.inr hm)
        · simp at hm
    pending := by
      intro m f hf
      rw [seals]
      exact o.pending m f hf
    single := by
      intro m hm
      rw [whole]
      exact o.single m hm
    settled := by
      intro m f hf h0
      rw [whole] at h0
      exact o.settled m f hf h0
    seen := by
      intro p k hk hs
      rcases hs with hs | ⟨other, k', hs⟩ | hs
      · exact released p (o.seen p k hk (.inl hs))
      · rcases orders_mem_push hs with hs | hs
        · exact released p (o.seen p k hk (.inr (.inl ⟨other, k', hs⟩)))
        · cases hs
          exact released phase (h k hk).1
      · exact released p (o.seen p k hk (.inr (.inr hs)))
    waiting := by
      intro p k hk hm
      obtain ⟨hc, hn⟩ := o.waiting p k hk hm
      refine ⟨hc, fun other k' hin => ?_⟩
      rcases orders_mem_push hin with hin | hin
      · exact hn other k' hin
      · cases hin
        exact (h k hk).2 hm }

theorem Fenced.empty {r : Runner} (o : r.Fenced) :
    ({ r with pruneQueue := [] } : Runner).Fenced :=
  { o with
    seen := by
      intro name key hk hs
      rcases hs with hs | hs
      · simp at hs
      · exact o.seen name key hk (.inr hs)
    waiting := fun _ _ _ hm => by cases hm }

theorem Fenced.beginPruning {r : Runner} (o : r.Fenced) : r.beginPruning.2.Fenced := by
  have emptied := o.empty
  have fold : ∀ (places : List (String × String × Nat)) (q : Runner), q.Fenced →
      q.pruneQueue = [] → (∀ p ∈ places, ∀ k, q.keyOf p.1 = some k → q.Released p.1) →
      (places.foldl (fun r p => r.push p.2.2 (.prune p.2.1 p.1)) q).Fenced := by
    intro places
    induction places with
    | nil => exact fun _ hq _ _ => hq
    | cons p rest ih =>
      intro q hq he hp
      refine ih _ (hq.push_prune p.2.2 p.2.1 fun k hk => ⟨hp p List.mem_cons_self k hk, ?_⟩) he
        fun p' hp' k hk => ?_
      · rw [he]
        exact List.not_mem_nil
      · obtain ⟨m, f, hf, hph, h0⟩ := hp p' (List.mem_cons_of_mem _ hp') k hk
        exact ⟨m, f, hf, hph,
          (outstanding_push q p.2.2 (t := .prune p.2.1 p.1) rfl m nofun).trans h0⟩
  apply fold _ _ emptied rfl
  intro p hp k hk
  obtain ⟨phase, hph, hp⟩ := List.mem_flatMap.mp hp
  obtain ⟨key, _, hp⟩ := List.mem_flatMap.mp hp
  obtain ⟨e, _, rfl⟩ := List.mem_map.mp hp
  exact o.seen phase k hk (.inl hph)

end Prune

end LoadGen.Runner
