import LoadGen.Proofs.Fences
import Mathlib.Data.List.Nodup

namespace LoadGen.Runner

/-- The buckets that a loop keeps for a group. -/
def board? (r : Runner) (key : String) (loop : Nat) : Option Board :=
  (r.groups.get? key).bind fun g => g.boards[loop]?

/-- How many of the first loops are told to end a measurement. -/
def others (here : Option Nat) (count : Nat) : Nat :=
  (List.range count).countP fun loop => here ≠ some loop

/-- A fence is raised, as far as the first loops are concerned. -/
structure Raised (r : Runner) (here : Option Nat) (f : Fence) (count : Nat) (r' : Runner) : Prop where
  rest : ∃ loops groups, r' = { r with
    loops := loops
    groups := groups
    fences := r.fences ++ [{ f with pending := others here count }] }
  size : r'.loops.size = r.loops.size
  running : r'.loops.Running
  prompt : r.Prompt → r'.Prompt
  groups : r'.groups.keys = r.groups.keys
  orders : ∀ loop, r'.orders loop = r.orders loop ++
    if loop < count ∧ here ≠ some loop then [.seal r.fences.length] else []
  queued : ∀ t, r'.queued t =
    r.queued t + if t = .seal r.fences.length then others here count else 0
  boards : ∀ key loop, r'.board? key loop =
    if key = f.group ∧ loop < count ∧ here = some loop then
      (r.board? key loop).map (·.applyToPhase f.phase (·.finish f.time))
    else r.board? key loop

theorem board?_modifyBoard (r : Runner) (key : String) (loop : Nat) (f : Board → Board)
    (key' : String) (loop' : Nat) : (r.modifyBoard key loop f).board? key' loop' =
      if key' = key ∧ loop' = loop then (r.board? key' loop').map f else r.board? key' loop' := by
  simp only [board?, modifyBoard, Runner.modifyGroup, Dict.get?_modify]
  by_cases hk : key' = key
  · subst hk
    cases r.groups.get? key' with
    | none => simp
    | some g =>
      by_cases hl : loop' = loop
      · subst hl
        simp
      · simp [hl, Ne.symm hl]
  · simp [hk]

theorem board?_modifyBoard_cases {r : Runner} {key key' : String} {loop loop' : Nat}
    {f : Board → Board} {b' : Board} (h : (r.modifyBoard key loop f).board? key' loop' = some b') :
    (key' = key ∧ loop' = loop ∧ ∃ b, r.board? key loop = some b ∧ b' = f b) ∨
      r.board? key' loop' = some b' := by
  rw [board?_modifyBoard] at h
  split at h
  · rename_i he
    obtain ⟨rfl, rfl⟩ := he
    obtain ⟨b, hb, rfl⟩ := Option.map_eq_some_iff.mp h
    exact .inl ⟨rfl, rfl, b, hb, rfl⟩
  · exact .inr h

theorem others_succ (here : Option Nat) (count : Nat) :
    others here (count + 1) = others here count + if here = some count then 0 else 1 := by
  rw [others, List.range_succ, List.countP_append, others, List.countP_singleton]
  by_cases he : here = some count <;> simp [he]

theorem modify_concat {α : Type} (l : List α) (a : α) (g : α → α) :
    (l ++ [a]).modify l.length g = l ++ [g a] := by
  induction l with
  | nil => rfl
  | cons b l ih => exact congrArg (b :: ·) ih

section Next
variable {r q : Runner} {here : Option Nat} {f : Fence} {count : Nat} (h : Raised r here f count q)
include h

theorem Raised.end_here (he : here = some count) :
    Raised r here f (count + 1) (q.endBuckets count f) := by
  obtain ⟨loops, groups, hq⟩ := h.rest
  have less : ∀ loop, (loop < count + 1 ∧ here ≠ some loop) ↔ (loop < count ∧ here ≠ some loop) := by
    intro loop
    subst he
    simp only [ne_eq, Option.some.injEq]
    omega
  have same : others here (count + 1) = others here count := by simp [others_succ, he]
  exact {
    rest := ⟨loops, _, by rw [hq, same]; rfl⟩
    size := h.size
    running := h.running
    prompt := h.prompt
    groups := (Dict.keys_modify ..).trans h.groups
    orders := by
      intro loop
      simp only [less]
      exact h.orders loop
    queued := by
      intro t
      rw [same]
      exact h.queued t
    boards := by
      intro key loop
      rw [endBuckets, board?_modifyBoard, h.boards]
      by_cases hl : loop = count
      · subst hl
        simp [he]
      · have hn : here ≠ some loop := by simpa [he] using Ne.symm hl
        simp [hl, hn] }

theorem Raised.tell (hc : count < r.loops.size) (he : here ≠ some count) :
    Raised r here f (count + 1) { q.push count (.seal r.fences.length) with
      fences := q.fences.modify r.fences.length fun f => { f with pending := f.pending + 1 } } := by
  have inside : count < q.loops.size := by rw [h.size]; exact hc
  have more : others here (count + 1) = others here count + 1 := by simp [others_succ, he]
  have less : ∀ {loop}, loop ≠ count → (loop < count + 1 ↔ loop < count) := by
    intro loop hl
    omega
  exact {
    rest := by
      obtain ⟨loops, groups, hq⟩ := h.rest
      refine ⟨loops.push count (.seal r.fences.length), groups, ?_⟩
      rw [hq, more]
      simp only [push, modify_concat]
    size := (LoopGroup.size_push ..).trans h.size
    running := LoopGroup.running_push h.running count _
    prompt := fun hp => prompt_push (h.prompt hp) count _
    groups := h.groups
    orders := by
      intro loop
      apply (orders_push h.running inside rfl loop).trans
      rw [h.orders, List.append_assoc]
      congr 1
      by_cases hl : loop = count
      · subst hl
        simp [he]
      · simp [Ne.symm hl, less hl]
    queued := by
      intro t
      apply (queued_push h.running inside (t := .seal r.fences.length) rfl t).trans
      rw [h.queued, more]
      split <;> omega
    boards := by
      intro key loop
      apply (h.boards key loop).trans
      by_cases hl : loop = count
      · subst hl
        simp [he]
      · simp [less hl] }

theorem Raised.next (hc : count < r.loops.size) :
    Raised r here f (count + 1) (sealOn here r.fences.length f q count) := by
  unfold sealOn
  split
  · rename_i he
    exact h.end_here he
  · rename_i he
    have inside : count < q.loops.size := by rw [h.size]; exact hc
    rw [if_pos (LoopGroup.isOpen_of_running h.running inside)]
    exact h.tell hc he

end Next

theorem raised_seals {r : Runner} {f : Fence} (hr : r.loops.Running) (hp : f.pending = 0)
    (here : Option Nat) {count : Nat} (hc : count ≤ r.loops.size) :
    Raised r here f count ((List.range count).foldl (sealOn here r.fences.length f)
      { r with fences := r.fences ++ [f] }) := by
  induction count with
  | zero =>
    have whole : { f with pending := others here 0 } = f := by
      cases f
      cases hp
      rfl
    exact ⟨⟨r.loops, r.groups, by rw [whole]; rfl⟩, rfl, hr, id, rfl, fun loop => by simp [orders],
      fun t => by simp [queued, orders, others], fun key loop => by simp [board?]⟩
  | succ count ih =>
    rw [List.range_succ, List.foldl_append]
    exact (ih (Nat.le_of_lt hc)).next hc

theorem raiseFence_eq (here : Option Nat) (f : Fence) {r : Runner} (hr : r.loops.Running)
    (hp : f.pending = 0) : ∃ q, Raised r here f r.loops.size q ∧
      raiseFence here f r = q.push 0 (.announce r.fences.length) :=
  ⟨_, raised_seals hr hp here (Nat.le_refl _), rfl⟩

theorem getElem?_concat_cases {α : Type} {l : List α} {a b : α} {n : Nat}
    (h : (l ++ [a])[n]? = some b) : l[n]? = some b ∨ (n = l.length ∧ b = a) := by
  rcases Nat.lt_trichotomy n l.length with hn | rfl | hn
  · rw [List.getElem?_append_left hn] at h
    exact .inl h
  · rw [List.getElem?_concat_length] at h
    exact .inr ⟨rfl, (Option.some.inj h).symm⟩
  · have hl : (l ++ [a]).length ≤ n := by
      rw [List.length_append]
      exact hn
    rw [List.getElem?_eq_none hl] at h
    cases h

theorem Fenced.unqueued {r : Runner} (o : r.Fenced) :
    r.queued (.seal r.fences.length) = 0 ∧ r.queued (.announce r.fences.length) = 0 :=
  ⟨queued_eq_zero.mpr fun loop hm => Nat.lt_irrefl _ (o.known loop _ (.inl hm)),
    queued_eq_zero.mpr fun loop hm => Nat.lt_irrefl _ (o.known loop _ (.inr hm))⟩

section Announced
variable {r q : Runner} {here : Option Nat} {f : Fence} (h : Raised r here f r.loops.size q)
include h

theorem Raised.fences : q.fences = r.fences ++ [{ f with pending := others here r.loops.size }] := by
  obtain ⟨loops, groups, rfl⟩ := h.rest
  rfl

theorem Raised.mem_orders {t : Task} {loop : Nat}
    (hm : t ∈ (q.push 0 (.announce r.fences.length)).orders loop) :
    t ∈ r.orders loop ∨ t = .seal r.fences.length ∨ t = .announce r.fences.length := by
  rcases orders_mem_push hm with hm | hm
  · rw [h.orders] at hm
    rcases List.mem_append.mp hm with hm | hm
    · exact .inl hm
    · split at hm
      · exact .inr (.inl (List.mem_singleton.mp hm))
      · cases hm
  · exact .inr (.inr hm)

/-- The announcement of the new fence is to come, and nothing changes for the others. -/
theorem Raised.outstanding (o : r.Fenced) (hs : 0 < r.loops.size) (hp : f.parked = false) (m : Nat) :
    (q.push 0 (.announce r.fences.length)).outstanding m =
      if m = r.fences.length then 1 else r.outstanding m := by
  have hz : 0 < q.loops.size := by rw [h.size]; exact hs
  have hq : (q.push 0 (.announce r.fences.length)).queued (.announce m) =
      r.queued (.announce m) + if m = r.fences.length then 1 else 0 := by
    rw [queued_push h.running hz rfl, h.queued, if_neg (by simp), Nat.add_zero]
    simp
  have hf : (q.push 0 (.announce r.fences.length)).fences =
      r.fences ++ [{ f with pending := others here r.loops.size }] := h.fences
  rw [Runner.outstanding, hq, hf]
  split
  · rename_i he
    rw [he, o.unqueued.2, List.getElem?_concat_length]
    simp [Fence.waits, hp]
  · rename_i he
    rw [Nat.add_zero, Runner.outstanding]
    congr 3
    rcases Nat.lt_or_gt_of_ne he with hl | hl
    · rw [List.getElem?_append_left hl]
    · have hm : (r.fences ++ [{ f with pending := others here r.loops.size }]).length ≤ m := by
        rw [List.length_append]
        exact hl
      rw [List.getElem?_eq_none hm, List.getElem?_eq_none (Nat.le_of_lt hl)]

theorem Raised.length_push :
    (q.push 0 (.announce r.fences.length)).fences.length = r.fences.length + 1 := by
  simp [push, h.fences]

/-- The new fence has a seal under way for each other loop, and no other fence gets one. -/
theorem Raised.queued_seal (hs : 0 < r.loops.size) (m : Nat) :
    (q.push 0 (.announce r.fences.length)).queued (.seal m) =
      r.queued (.seal m) + if m = r.fences.length then others here r.loops.size else 0 := by
  have hz : 0 < q.loops.size := by rw [h.size]; exact hs
  rw [queued_push h.running hz rfl, if_neg (by simp), Nat.add_zero, h.queued]
  simp

theorem Raised.known (o : r.Fenced) {loop m : Nat}
    (hm : .seal m ∈ (q.push 0 (.announce r.fences.length)).orders loop ∨
      .announce m ∈ (q.push 0 (.announce r.fences.length)).orders loop) :
    m < r.fences.length + 1 := by
  rcases hm with hm | hm
  · rcases h.mem_orders hm with hm | hm | hm
    · exact Nat.lt_succ_of_lt (o.known loop m (.inl hm))
    · cases hm
      exact Nat.lt_succ_self _
    · cases hm
  · rcases h.mem_orders hm with hm | hm | hm
    · exact Nat.lt_succ_of_lt (o.known loop m (.inr hm))
    · cases hm
    · cases hm
      exact Nat.lt_succ_self _

theorem Raised.released (o : r.Fenced) (hs : 0 < r.loops.size) (hp : f.parked = false)
    {phase : String} (hr : r.Released phase) :
    (q.push 0 (.announce r.fences.length)).Released phase := by
  obtain ⟨m, g, hg, hph, h0⟩ := hr
  have hm := (List.getElem?_eq_some_iff.mp hg).1
  have hg' : (q.push 0 (.announce r.fences.length)).fences[m]? = some g := by
    rw [push, h.fences, List.getElem?_append_left hm, hg]
  refine ⟨m, g, hg', hph, ?_⟩
  rw [h.outstanding o hs hp, if_neg (Nat.ne_of_lt hm)]
  exact h0

end Announced

theorem Fenced.raise {r : Runner} (o : r.Fenced) (hr : r.loops.Running) (hs : 0 < r.loops.size)
    (here : Option Nat) {f : Fence} (hk : r.keyOf f.phase = some f.group)
    (ht : r.status? f.phase = some .terminated) (hn : f.notice.status = .terminated)
    (hp : f.pending = 0) (hw : f.parked = false) (hf : f.phase ∉ r.fences.map (·.phase)) :
    (raiseFence here f r).Fenced := by
  obtain ⟨q, raised, he⟩ := raiseFence_eq here f hr hp
  rw [he]
  have outstanding := raised.outstanding o hs hw
  have mem : ∀ {t : Task} {loop : Nat},
      t ∈ (q.push 0 (.announce r.fences.length)).orders loop →
      t ∈ r.orders loop ∨ t = .seal r.fences.length ∨ t = .announce r.fences.length :=
    raised.mem_orders
  have length := raised.length_push
  have seals := raised.queued_seal hs
  have released : ∀ p : String, r.Released p →
      (q.push 0 (.announce r.fences.length)).Released p := fun _ => raised.released o hs hw
  have known := @Raised.known _ _ _ _ raised o
  obtain ⟨loops, groups, rfl⟩ := raised.rest
  exact {
    prompt := prompt_push (raised.prompt o.prompt) 0 (.announce r.fences.length)
    known := by
      intro loop m hm
      rw [length]
      exact known hm
    raised := by
      intro m g hg
      rcases getElem?_concat_cases hg with hg | ⟨_, rfl⟩
      · exact o.raised m g hg
      · exact ⟨hk, ht, hn⟩
    once := by
      change ((r.fences ++ [_]).map _).Nodup
      rw [List.map_append, List.map_singleton, ← List.concat_eq_append]
      exact o.once.concat hf
    pending := by
      intro m g hg
      rw [seals]
      rcases getElem?_concat_cases hg with hg | ⟨rfl, rfl⟩
      · rw [if_neg (Nat.ne_of_lt (List.getElem?_eq_some_iff.mp hg).1)]
        exact o.pending m g hg
      · simp [o.unqueued.1]
    single := by
      intro m hm
      rw [length] at hm
      rw [outstanding]
      split
      · omega
      · exact o.single m (by omega)
    settled := by
      intro m g hg h0
      rw [outstanding] at h0
      rcases getElem?_concat_cases hg with hg | ⟨rfl, _⟩
      · rw [if_neg (Nat.ne_of_lt (List.getElem?_eq_some_iff.mp hg).1)] at h0
        exact o.settled m g hg h0
      · simp at h0
    seen := by
      intro p key hkey hseen
      apply released p
      apply o.seen p key hkey
      rcases hseen with hm | ⟨loop, k, hm⟩ | hm
      · exact .inl hm
      · rcases mem hm with hm | hm | hm
        · exact .inr (.inl ⟨loop, k, hm⟩)
        · cases hm
        · cases hm
      · exact .inr (.inr hm)
    waiting := by
      intro p key hkey hin
      obtain ⟨hc, hnone⟩ := o.waiting p key hkey hin
      refine ⟨hc, fun loop k hm => ?_⟩
      rcases mem hm with hm | hm | hm
      · exact hnone loop k hm
      · cases hm
      · cases hm
    told := o.told }

end LoadGen.Runner
