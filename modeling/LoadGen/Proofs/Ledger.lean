import LoadGen.Proofs.Ownership

namespace LoadGen

/-- Whether the announcement has had its turn and waits for the loops. -/
def Fence.waits (f : Fence) : Nat := if f.parked ∧ f.pending ≠ 0 then 1 else 0

def Fence.cause (f : Fence) : String × String × Notice × Nat := (f.phase, f.group, f.notice, f.time)

theorem fence_of_causes {l l' : List Fence} (h : l'.map Fence.cause = l.map Fence.cause)
    {fence : Nat} {f' : Fence} (hf : l'[fence]? = some f') :
    ∃ f, l[fence]? = some f ∧ f.cause = f'.cause := by
  have hc : (l'.map Fence.cause)[fence]? = some f'.cause := by simp [hf]
  rw [h, List.getElem?_map] at hc
  exact Option.map_eq_some_iff.mp hc

namespace Runner

/-- The phases that have ended, according to some notices. -/
def endings (notices : List (String × Notice)) : List String :=
  notices.filterMap fun (phase, n) => if n.status = .terminated then some phase else none

/-- The phases whose end the listener was told, in order. -/
def ended (r : Runner) : List String := endings r.notices

/-- How often a task is queued, on all loops together. -/
def queued (r : Runner) (t : Task) : Nat :=
  ((List.range r.loops.size).map fun loop => (r.orders loop).count t).sum

/-- How often the announcement of a fence is still to come. -/
def outstanding (r : Runner) (fence : Nat) : Nat :=
  r.queued (.announce fence) + ((r.fences[fence]?).map Fence.waits).getD 0

/-- The end of the phase has been announced. -/
def Released (r : Runner) (phase : String) : Prop :=
  ∃ fence f, r.fences[fence]? = some f ∧ f.phase = phase ∧ r.outstanding fence = 0

/-- The buckets of the phase may go or are about to, or its end was told. -/
def Seen (r : Runner) (phase : String) : Prop :=
  phase ∈ r.pruneQueue ∨ (∃ loop key, .prune key phase ∈ r.orders loop) ∨ phase ∈ r.ended

/-- The ends of the phases that share sessions are announced in order, each of them once. -/
structure Fenced (r : Runner) : Prop where
  prompt : r.Prompt
  known : ∀ loop fence, .seal fence ∈ r.orders loop ∨ .announce fence ∈ r.orders loop →
    fence < r.fences.length
  raised : ∀ (fence : Nat) f, r.fences[fence]? = some f → r.keyOf f.phase = some f.group ∧
    r.status? f.phase = some .terminated ∧ f.notice.status = .terminated
  once : (r.fences.map (·.phase)).Nodup
  pending : ∀ (fence : Nat) f, r.fences[fence]? = some f → f.pending = r.queued (.seal fence)
  single : ∀ fence < r.fences.length, r.outstanding fence ≤ 1
  settled : ∀ (fence : Nat) f, r.fences[fence]? = some f → r.outstanding fence = 0 → f.pending = 0
  seen : ∀ phase key, r.keyOf phase = some key → r.Seen phase → r.Released phase
  waiting : ∀ phase key, r.keyOf phase = some key → phase ∈ r.pruneQueue →
    r.pruneQueue.count phase = 1 ∧ ∀ loop k, .prune k phase ∉ r.orders loop
  told : ∀ phase key, r.keyOf phase = some key → r.ended.count phase ≤ 1

/-- Nothing changes on the way to the end of a phase. Other orders may come and go. -/
structure SameLedger (r r' : Runner) : Prop where
  size : r'.loops.size = r.loops.size
  keys : ∀ phase, r'.keyOf phase = r.keyOf phase
  statuses : ∀ phase, r'.status? phase = r.status? phase
  fences : r'.fences = r.fences
  pruneQueue : r'.pruneQueue = r.pruneQueue
  ended : r'.ended = r.ended
  seals : ∀ loop fence,
    (r'.orders loop).count (.seal fence) = (r.orders loop).count (.seal fence)
  announces : ∀ loop fence,
    (r'.orders loop).count (.announce fence) = (r.orders loop).count (.announce fence)
  prunes : ∀ loop key phase, .prune key phase ∈ r'.orders loop → .prune key phase ∈ r.orders loop
  prompt : r.Prompt → r'.Prompt

/-- The phases stand where they stood, and their ends are told as far as they were. -/
structure SameStory (r r' : Runner) : Prop where
  keys : ∀ phase, r'.keyOf phase = r.keyOf phase
  statuses : ∀ phase, r'.status? phase = r.status? phase
  causes : r'.fences.map Fence.cause = r.fences.map Fence.cause
  pruneQueue : r'.pruneQueue = r.pruneQueue
  ended : r'.ended = r.ended

/-- The loops come nearer to the end of some phases. -/
structure Advances (r r' : Runner) : Prop extends SameStory r r' where
  prunes : ∀ loop key phase, .prune key phase ∈ r'.orders loop → .prune key phase ∈ r.orders loop
  prompt : r'.Prompt
  known : ∀ loop fence, .seal fence ∈ r'.orders loop ∨ .announce fence ∈ r'.orders loop →
    fence < r'.fences.length
  pending : ∀ (fence : Nat) f, r'.fences[fence]? = some f → f.pending = r'.queued (.seal fence)
  outstanding : ∀ fence, r'.outstanding fence ≤ r.outstanding fence
  settled : ∀ (fence : Nat) f, r'.fences[fence]? = some f → r'.outstanding fence = 0 →
    f.pending = 0

section Sums

theorem sum_range_at {n i k : Nat} {f g : Nat → Nat} (hi : i < n) (hs : f i = g i + k)
    (ho : ∀ j, j ≠ i → f j = g j) :
    ((List.range n).map f).sum = ((List.range n).map g).sum + k := by
  induction n with
  | zero => cases hi
  | succ n ih =>
    rw [List.range_succ, List.map_append, List.map_append, List.sum_append, List.sum_append]
    simp only [List.map_cons, List.map_nil, List.sum_cons, List.sum_nil, Nat.add_zero]
    by_cases he : i = n
    · subst he
      have hl : (List.range i).map f = (List.range i).map g :=
        List.map_congr_left fun j hj => ho j (Nat.ne_of_lt (List.mem_range.mp hj))
      rw [hl, hs]
      omega
    · rw [ih (by omega), ho n (Ne.symm he)]
      omega

theorem queued_congr {r r' : Runner} {t : Task} (hs : r'.loops.size = r.loops.size)
    (hc : ∀ loop, (r'.orders loop).count t = (r.orders loop).count t) :
    r'.queued t = r.queued t := by
  simp only [queued, hs, hc]

theorem orders_outside {r : Runner} {loop : Nat} (h : r.loops.size ≤ loop) :
    r.orders loop = [] := by
  have hn : r.loops.loops[loop]? = none := List.getElem?_eq_none h
  simp [orders, LoopGroup.posted, hn]

theorem mem_orders_lt {r : Runner} {loop : Nat} {t : Task} (h : t ∈ r.orders loop) :
    loop < r.loops.size := by
  rcases Nat.lt_or_ge loop r.loops.size with hl | hl
  · exact hl
  · rw [orders_outside hl] at h
    cases h

theorem queued_eq_zero {r : Runner} {t : Task} :
    r.queued t = 0 ↔ ∀ loop, t ∉ r.orders loop := by
  rw [queued, List.sum_eq_zero_iff_forall_eq_nat]
  constructor
  · intro h loop hm
    have hz := h _ (List.mem_map_of_mem (List.mem_range.mpr (mem_orders_lt hm)))
    exact absurd hm (List.count_eq_zero.mp hz)
  · intro h n hn
    obtain ⟨loop, _, rfl⟩ := List.mem_map.mp hn
    exact List.count_eq_zero.mpr (h loop)

theorem orders_of_idle {r : Runner} (h : r.loops.isIdle = true) (loop : Nat) :
    r.orders loop = [] := by
  have posted : r.loops.posted loop = [] := by
    unfold LoopGroup.posted
    cases hl : r.loops.loops[loop]? with
    | none => rfl
    | some l =>
      have idle := List.all_eq_true.mp h l (List.mem_of_getElem? hl)
      simp [EventLoop.posted, List.isEmpty_iff.mp idle]
  simp [orders, posted]

theorem orders_push {r : Runner} (hr : r.loops.Running) {loop : Nat} (hl : loop < r.loops.size)
    {t : Task} (ht : t.isOrder = true) (other : Nat) :
    (r.push loop t).orders other = r.orders other ++ if loop = other then [t] else [] := by
  simp only [orders, push, LoopGroup.posted_push hr hl, List.filter_append]
  congr 1
  split
  · simp [ht]
  · rfl

theorem queued_push {r : Runner} (hr : r.loops.Running) {loop : Nat} (hl : loop < r.loops.size)
    {t : Task} (ht : t.isOrder = true) (u : Task) :
    (r.push loop t).queued u = r.queued u + if u = t then 1 else 0 := by
  have hs : (r.push loop t).loops.size = r.loops.size := LoopGroup.size_push ..
  simp only [queued, hs]
  refine sum_range_at hl ?_ fun other hne => ?_
  · rw [orders_push hr hl ht, if_pos rfl, List.count_append]
    by_cases he : u = t
    · simp [he]
    · simp [he, Ne.symm he]
  · rw [orders_push hr hl ht, if_neg hne.symm, List.append_nil]

/-- A loop has taken an order that was waiting. -/
structure Taken (r r' : Runner) (loop : Nat) (t : Task) : Prop where
  inside : loop < r.loops.size
  first : r.orders loop = t :: r'.orders loop
  others : ∀ other, other ≠ loop → r'.orders other = r.orders other
  rest : ∃ loops, r' = { r with loops := loops }
  size : r'.loops.size = r.loops.size
  running : r.loops.Running → r'.loops.Running
  prompt : r'.Prompt

theorem taken_of_next? {r : Runner} {loop : Nat} {t : Task} {loops : LoopGroup Task}
    (hp : r.Prompt) (h : r.loops.next? loop = some (t, loops)) (ht : t.isOrder = true) :
    Taken r { r with loops := loops } loop t := by
  have took := LoopGroup.took_of_next? h
  refine ⟨took.inside, ?_, fun other hne => ?_, ⟨loops, rfl⟩, took.size, took.running,
    fun other u hu => hp other u (took.timed other u hu)⟩
  · rcases took.first with hf | ⟨hm, _⟩
    · simp only [orders, hf, List.filter_cons_of_pos ht]
    · rw [hp loop t hm] at ht
      cases ht
  · simp only [orders, took.others other hne]

theorem Taken.queued {r r' : Runner} {loop : Nat} {t : Task} (h : Taken r r' loop t) (u : Task) :
    r.queued u = r'.queued u + if u = t then 1 else 0 := by
  simp only [Runner.queued, h.size]
  refine sum_range_at h.inside ?_ fun other hne => ?_
  · rw [h.first]
    by_cases he : u = t
    · simp [he]
    · simp [he, Ne.symm he]
  · rw [h.others other hne]

theorem Taken.mem {r r' : Runner} {loop : Nat} {t u : Task} (h : Taken r r' loop t)
    {other : Nat} (hm : u ∈ r'.orders other) : u ∈ r.orders other := by
  by_cases he : other = loop
  · subst he
    rw [h.first]
    exact List.mem_cons_of_mem _ hm
  · rwa [h.others other he] at hm

end Sums

namespace SameLedger
variable {r r' : Runner}

theorem queued_seal (h : SameLedger r r') (fence : Nat) :
    r'.queued (.seal fence) = r.queued (.seal fence) :=
  queued_congr h.size fun loop => h.seals loop fence

theorem outstanding (h : SameLedger r r') (fence : Nat) :
    r'.outstanding fence = r.outstanding fence := by
  rw [Runner.outstanding, Runner.outstanding, h.fences,
    queued_congr h.size fun loop => h.announces loop fence]

theorem mem_seal (h : SameLedger r r') {loop fence : Nat} :
    .seal fence ∈ r'.orders loop ↔ .seal fence ∈ r.orders loop := by
  rw [← List.count_pos_iff, h.seals, List.count_pos_iff]

theorem mem_announce (h : SameLedger r r') {loop fence : Nat} :
    .announce fence ∈ r'.orders loop ↔ .announce fence ∈ r.orders loop := by
  rw [← List.count_pos_iff, h.announces, List.count_pos_iff]

theorem advances (h : SameLedger r r') (o : r.Fenced) : Advances r r' where
  keys := h.keys
  statuses := h.statuses
  causes := by rw [h.fences]
  pruneQueue := h.pruneQueue
  ended := h.ended
  prunes := h.prunes
  prompt := h.prompt o.prompt
  known := by
    intro loop fence hm
    rw [h.mem_seal, h.mem_announce] at hm
    rw [h.fences]
    exact o.known loop fence hm
  pending := by
    intro fence f hf
    rw [h.fences] at hf
    rw [h.queued_seal]
    exact o.pending fence f hf
  outstanding := fun fence => Nat.le_of_eq (h.outstanding fence)
  settled := by
    intro fence f hf ho
    rw [h.fences] at hf
    rw [h.outstanding] at ho
    exact o.settled fence f hf ho

end SameLedger

namespace SameStory
variable {r r' : Runner}

theorem fence_of (h : SameStory r r') {fence : Nat} {f' : Fence}
    (hf : r'.fences[fence]? = some f') :
    ∃ f, r.fences[fence]? = some f ∧ f.cause = f'.cause := fence_of_causes h.causes hf

theorem fence_to (h : SameStory r r') {fence : Nat} {f : Fence}
    (hf : r.fences[fence]? = some f) :
    ∃ f', r'.fences[fence]? = some f' ∧ f'.cause = f.cause := fence_of_causes h.causes.symm hf

theorem length (h : SameStory r r') : r'.fences.length = r.fences.length := by
  simpa using congrArg List.length h.causes

theorem phases (h : SameStory r r') : r'.fences.map (·.phase) = r.fences.map (·.phase) := by
  have hm : ∀ l : List Fence, l.map (·.phase) = (l.map Fence.cause).map (·.1) := fun l => by
    rw [List.map_map]
    rfl
  rw [hm, h.causes, ← hm]

theorem trans {r'' : Runner} (h : SameStory r r') (k : SameStory r' r'') : SameStory r r'' where
  keys := fun phase => (k.keys phase).trans (h.keys phase)
  statuses := fun phase => (k.statuses phase).trans (h.statuses phase)
  causes := k.causes.trans h.causes
  pruneQueue := k.pruneQueue.trans h.pruneQueue
  ended := k.ended.trans h.ended

theorem push (h : SameStory r r') (loop : Nat) (t : Task) : SameStory r (r'.push loop t) :=
  ⟨h.keys, h.statuses, h.causes, h.pruneQueue, h.ended⟩

end SameStory

theorem Taken.story {r r' : Runner} {loop : Nat} {t : Task} (h : Taken r r' loop t) :
    SameStory r r' := by
  obtain ⟨loops, rfl⟩ := h.rest
  exact ⟨fun _ => rfl, fun _ => rfl, rfl, rfl, rfl⟩

namespace Advances
variable {r r' : Runner}

theorem released (h : Advances r r') {phase : String} (hr : r.Released phase) :
    r'.Released phase := by
  obtain ⟨fence, f, hf, hp, ho⟩ := hr
  obtain ⟨f', hf', hc⟩ := h.fence_to hf
  refine ⟨fence, f', hf', (Prod.mk.inj hc).1.trans hp, ?_⟩
  have := h.outstanding fence
  omega

theorem unseen (h : Advances r r') {phase : String} (hs : r'.Seen phase) : r.Seen phase := by
  rcases hs with hs | ⟨loop, key, hs⟩ | hs
  · exact .inl (by rwa [h.pruneQueue] at hs)
  · exact .inr (.inl ⟨loop, key, h.prunes loop key phase hs⟩)
  · exact .inr (.inr (by rwa [h.ended] at hs))

end Advances

namespace Fenced
variable {r r' : Runner}

theorem advance (o : r.Fenced) (h : Advances r r') : r'.Fenced where
  prompt := h.prompt
  known := h.known
  raised := by
    intro fence f' hf
    obtain ⟨f, hf, hc⟩ := h.fence_of hf
    simp only [Fence.cause, Prod.mk.injEq] at hc
    obtain ⟨hp, hg, hn, _⟩ := hc
    rw [h.keys, h.statuses, ← hp, ← hg, ← hn]
    exact o.raised fence f hf
  once := by
    rw [h.phases]
    exact o.once
  pending := h.pending
  single := by
    intro fence hlt
    rw [h.length] at hlt
    exact Nat.le_trans (h.outstanding fence) (o.single fence hlt)
  settled := h.settled
  seen := by
    intro phase key hk hs
    rw [h.keys] at hk
    exact h.released (o.seen phase key hk (h.unseen hs))
  waiting := by
    intro phase key hk hm
    rw [h.keys] at hk
    rw [h.pruneQueue] at hm ⊢
    obtain ⟨hc, hp⟩ := o.waiting phase key hk hm
    exact ⟨hc, fun loop k hin => hp loop k (h.prunes loop k phase hin)⟩
  told := by
    intro phase key hk
    rw [h.keys] at hk
    rw [h.ended]
    exact o.told phase key hk

theorem same (o : r.Fenced) (h : SameLedger r r') : r'.Fenced := o.advance (h.advances o)

end Fenced

end Runner
end LoadGen
