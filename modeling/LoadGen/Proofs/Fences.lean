import LoadGen.Proofs.Ledger

namespace LoadGen

/-- Orders that have no part in the end of a phase. -/
def Task.isPlain : Task → Bool
  | .stamp .. | .read .. => true
  | _ => false

namespace Runner

section Elsewhere

theorem ledger_elsewhere {r r' : Runner} (hl : r'.loops = r.loops)
    (hi : r'.instances = r.instances) (hf : r'.fences = r.fences)
    (hp : r'.pruneQueue = r.pruneQueue) (hj : r'.journal = r.journal) : SameLedger r r' := by
  have ho : ∀ loop, r'.orders loop = r.orders loop := by simp [orders, hl]
  refine ⟨by rw [hl], fun _ => by rw [keyOf, keyOf, hi], fun _ => by rw [status?, status?, hi], hf,
    hp, by rw [ended, ended, notices, notices, hj], fun _ _ => by rw [ho], fun _ _ => by rw [ho],
    fun _ _ _ hm => by rwa [ho] at hm, ?_⟩
  simp only [Prompt, hl, imp_self]

theorem SameRecord.keyOf_eq {r r' : Runner} (h : SameRecord r r') (phase : String) :
    r'.keyOf phase = r.keyOf phase := by
  have view : ∀ q : Runner, q.keyOf phase =
      ((q.instances.get? phase).map Instance.state).bind (·.1.key) := by
    intro q
    rw [keyOf]
    cases q.instances.get? phase <;> rfl
  rw [view, view, h.states]

theorem SameRecord.status?_eq {r r' : Runner} (h : SameRecord r r') (phase : String) :
    r'.status? phase = r.status? phase := by
  have view : ∀ q : Runner, q.status? phase =
      ((q.instances.get? phase).map Instance.state).map (·.2.1) := by
    intro q
    rw [status?, Option.map_map]
    rfl
  rw [view, view, h.states]

theorem SameHolders.status?_eq {r r' : Runner} (h : SameHolders r r') (phase : String) :
    r'.status? phase = r.status? phase := by
  have view : ∀ q : Runner, q.status? phase =
      ((q.instances.get? phase).map Instance.core).map (·.standing.status) := by
    intro q
    rw [status?, Option.map_map]
    rfl
  rw [view, view, h.instances]

theorem SameRecord.ledger {r r' : Runner} (h : SameRecord r r') : SameLedger r r' where
  size := h.size
  keys := h.keyOf_eq
  statuses := h.status?_eq
  fences := h.fences
  pruneQueue := h.pruneQueue
  ended := by rw [ended, ended, h.notices]
  seals := fun loop _ => by rw [h.orders]
  announces := fun loop _ => by rw [h.orders]
  prunes := fun loop _ _ hm => by rwa [h.orders] at hm
  prompt := h.prompt

theorem orders_push_or (r : Runner) (loop : Nat) {t : Task} (ht : t.isOrder = true) (other : Nat) :
    (r.push loop t).orders other = r.orders other ∨
      (r.push loop t).orders other = r.orders other ++ [t] := by
  simp only [orders, push]
  rcases LoopGroup.posted_push_or r.loops loop t other with he | he
  · exact .inl (by rw [he])
  · exact .inr (by rw [he, List.filter_append]; simp [ht])

theorem prompt_push {r : Runner} (h : r.Prompt) (loop : Nat) (t : Task) :
    (r.push loop t).Prompt := fun other u hu => h other u (LoopGroup.timed_push hu)

theorem count_push (r : Runner) (loop : Nat) {t u : Task} (ht : t.isOrder = true) (hu : u ≠ t)
    (other : Nat) : ((r.push loop t).orders other).count u = (r.orders other).count u := by
  rcases orders_push_or r loop ht other with he | he
  · rw [he]
  · rw [he, List.count_append, List.count_singleton, if_neg, Nat.add_zero]
    simpa using Ne.symm hu

theorem queued_push_of_ne (r : Runner) (loop : Nat) {t u : Task} (ht : t.isOrder = true)
    (hu : u ≠ t) : (r.push loop t).queued u = r.queued u :=
  queued_congr (LoopGroup.size_push ..) (count_push r loop ht hu)

theorem outstanding_push (r : Runner) (loop : Nat) {t : Task} (ht : t.isOrder = true) (m : Nat)
    (hm : .announce m ≠ t) : (r.push loop t).outstanding m = r.outstanding m := by
  rw [outstanding, outstanding, queued_push_of_ne r loop ht hm]
  rfl

theorem ledger_push (r : Runner) (loop : Nat) {t : Task} (ht : t.isPlain = true) :
    SameLedger r (r.push loop t) := by
  have ho : t.isOrder = true := by
    cases t with
    | stamp => rfl
    | read => rfl
    | _ => cases ht
  have counts : ∀ u : Task, u ≠ t → ∀ other,
      ((r.push loop t).orders other).count u = (r.orders other).count u :=
    fun _ hu => count_push r loop ho hu
  refine ⟨LoopGroup.size_push .., fun _ => rfl, fun _ => rfl, rfl, rfl, rfl,
    fun other fence => counts _ (by rintro rfl; cases ht) other,
    fun other fence => counts _ (by rintro rfl; cases ht) other, fun other key phase hm => ?_,
    fun hp => prompt_push hp loop t⟩
  rcases orders_push_or r loop ho other with he | he
  · rwa [he] at hm
  · rw [he] at hm
    rcases List.mem_append.mp hm with hm | hm
    · exact hm
    · rw [← List.mem_singleton.mp hm] at ht
      cases ht

theorem ledger_modifyGroup (r : Runner) (key : String) (f : Group → Group) :
    SameLedger r (r.modifyGroup key f) := ledger_elsewhere rfl rfl rfl rfl rfl

theorem SameLedger.trans {r₁ r₂ r₃ : Runner} (h : SameLedger r₁ r₂) (k : SameLedger r₂ r₃) :
    SameLedger r₁ r₃ where
  size := k.size.trans h.size
  keys := fun phase => (k.keys phase).trans (h.keys phase)
  statuses := fun phase => (k.statuses phase).trans (h.statuses phase)
  fences := k.fences.trans h.fences
  pruneQueue := k.pruneQueue.trans h.pruneQueue
  ended := k.ended.trans h.ended
  seals := fun loop fence => (k.seals loop fence).trans (h.seals loop fence)
  announces := fun loop fence => (k.announces loop fence).trans (h.announces loop fence)
  prunes := fun loop key phase hm => h.prunes loop key phase (k.prunes loop key phase hm)
  prompt := k.prompt ∘ h.prompt

theorem SameLedger.refl (r : Runner) : SameLedger r r := ledger_elsewhere rfl rfl rfl rfl rfl

theorem SameLedger.foldl {α : Type} {f : Runner → α → Runner} (h : ∀ r a, SameLedger r (f r a))
    (r : Runner) (l : List α) : SameLedger r (l.foldl f r) := by
  induction l generalizing r with
  | nil => exact .refl r
  | cons a l ih => exact (h r a).trans (ih (f r a))

/-- An order that does not end a measurement and announces nothing has been taken. -/
theorem Taken.ledger {r r' : Runner} {loop : Nat} {t : Task} (h : Taken r r' loop t)
    (ht : ∀ fence, t ≠ .seal fence ∧ t ≠ .announce fence) : SameLedger r r' := by
  have counts : ∀ u : Task, u ≠ t → ∀ other,
      (r'.orders other).count u = (r.orders other).count u := by
    intro u hu other
    by_cases he : other = loop
    · subst he
      rw [h.first, List.count_cons_of_ne hu.symm]
    · rw [h.others other he]
  obtain ⟨loops, rfl⟩ := h.rest
  exact ⟨h.size, fun _ => rfl, fun _ => rfl, rfl, rfl, rfl,
    fun other fence => counts _ (ht fence).1.symm other,
    fun other fence => counts _ (ht fence).2.symm other, fun _ _ _ hm => h.mem hm,
    fun _ => h.prompt⟩

end Elsewhere

section Deliver

theorem mem_append_ite {α : Type} {c : Prop} [Decidable c] {l : List α} {a b : α} :
    b ∈ l ++ (if c then [a] else []) ↔ b ∈ l ∨ (c ∧ b = a) := by
  split <;> simp [*]

theorem count_append_ite {α : Type} [DecidableEq α] {c : Prop} [Decidable c] {l : List α} {a b : α}
    (h : b ≠ a) : (l ++ if c then [a] else []).count b = l.count b := by
  rw [List.count_append]
  split
  · simp [Ne.symm h]
  · simp

theorem deliver_eq (r : Runner) (phase : String) (n : Notice) : r.deliver phase n =
    { r with
      journal := r.journal ++ if r.listening then [.notice phase n] else []
      pruneQueue := r.pruneQueue ++ if n.status = .terminated then [phase] else [] } := by
  unfold deliver log
  dsimp only
  split <;> split <;> simp only [List.append_nil]

theorem notices_deliver (r : Runner) (phase : String) (n : Notice) :
    (r.deliver phase n).notices = r.notices ++ if r.listening then [(phase, n)] else [] := by
  rw [deliver_eq, notices, notices]
  cases r.listening <;> simp [Entry.notice?]

theorem endings_append (l l' : List (String × Notice)) :
    endings (l ++ l') = endings l ++ endings l' := List.filterMap_append

theorem ended_deliver (r : Runner) (phase : String) (n : Notice) : (r.deliver phase n).ended =
    r.ended ++ if r.listening ∧ n.status = .terminated then [phase] else [] := by
  rw [ended, notices_deliver, ended, endings_append]
  congr 1
  cases r.listening <;> by_cases hn : n.status = .terminated <;> simp [endings, hn]

theorem ledger_deliver (r : Runner) (phase : String) {n : Notice} (hn : n.status ≠ .terminated) :
    SameLedger r (r.deliver phase n) :=
  { SameLedger.refl r with
    keys := fun _ => by rw [deliver_eq]; rfl
    statuses := fun _ => by rw [deliver_eq]; rfl
    size := by rw [deliver_eq]
    fences := by rw [deliver_eq]
    pruneQueue := by rw [deliver_eq]; simp [hn]
    ended := by rw [ended_deliver]; simp [hn]
    seals := fun _ _ => by rw [deliver_eq]; rfl
    announces := fun _ _ => by rw [deliver_eq]; rfl
    prunes := fun _ _ _ hm => by rwa [deliver_eq] at hm
    prompt := fun hp => by rw [deliver_eq]; exact hp }

/-- Whoever is seen after a notice was seen before, or the notice is about that phase. -/
theorem seen_deliver {r : Runner} {phase name : String} {n : Notice}
    (h : (r.deliver phase n).Seen name) : r.Seen name ∨ name = phase := by
  rcases h with h | ⟨loop, key, h⟩ | h
  · rw [deliver_eq] at h
    rcases mem_append_ite.mp h with h | ⟨_, h⟩
    · exact .inl (.inl h)
    · exact .inr h
  · rw [deliver_eq] at h
    exact .inl (.inr (.inl ⟨loop, key, h⟩))
  · rw [ended_deliver] at h
    rcases mem_append_ite.mp h with h | ⟨_, h⟩
    · exact .inl (.inr (.inr h))
    · exact .inr h

/-- A notice is handed over: the phase has no group, or its end is announced for the first time. -/
theorem Fenced.deliver {r : Runner} (o : r.Fenced) {phase : String} (n : Notice)
    (h : r.keyOf phase = none ∨ (r.Released phase ∧ ¬ r.Seen phase)) :
    (r.deliver phase n).Fenced := by
  have fresh : ∀ key, r.keyOf phase = some key → r.Released phase ∧ ¬ r.Seen phase := by
    intro key hk
    apply h.resolve_left
    simp [hk]
  have seen : ∀ name, (r.deliver phase n).Seen name → r.Seen name ∨ name = phase :=
    fun _ => seen_deliver
  have ended := ended_deliver r phase n
  rw [deliver_eq] at seen ended ⊢
  exact { o with
    seen := by
      intro name key hk hs
      rcases seen name hs with hs | rfl
      · exact o.seen name key hk hs
      · exact (fresh key hk).1
    waiting := by
      intro name key hk hm
      rcases mem_append_ite.mp hm with hin | ⟨ht, rfl⟩
      · have hne : name ≠ phase := by
          intro same
          subst same
          exact (fresh key hk).2 (.inl hin)
        obtain ⟨hc, hn⟩ := o.waiting name key hk hin
        exact ⟨(count_append_ite hne).trans hc, hn⟩
      · have unseen := (fresh key hk).2
        have hno : r.pruneQueue.count name = 0 := List.count_eq_zero.mpr fun hin => unseen (.inl hin)
        refine ⟨?_, fun loop k hin => unseen (.inr (.inl ⟨loop, k, hin⟩))⟩
        simp [ht, hno]
    told := by
      intro name key hk
      rw [ended]
      by_cases hp : name = phase
      · subst hp
        have hno : r.ended.count name = 0 :=
          List.count_eq_zero.mpr fun hin => (fresh key hk).2 (.inr (.inr hin))
        rw [List.count_append, hno]
        split <;> simp
      · rw [count_append_ite hp]
        exact o.told name key hk }

end Deliver

section Stand

theorem terminated_highest (s : Status) : s.rank ≤ Status.terminated.rank := by
  cases s <;> decide

theorem status?_stand {r : Runner} {phase : String} {i : Instance} {s : Standing}
    (hi : r.instances.get? phase = some i) (name : String) :
    (r.modifyInstance phase fun i => { i with standing := s }).status? name =
      if name = phase then some s.status else r.status? name := by
  simp only [status?, Runner.modifyInstance, Dict.get?_modify]
  split
  · rename_i he
    subst he
    simp [hi]
  · rfl

theorem Fenced.unfenced {r : Runner} (o : r.Fenced) {phase : String}
    (h : r.status? phase ≠ some .terminated) : phase ∉ r.fences.map (·.phase) := by
  intro hm
  obtain ⟨f, hf, rfl⟩ := List.mem_map.mp hm
  obtain ⟨fence, hf⟩ := List.mem_iff_getElem?.mp hf
  exact h (o.raised fence f hf).2.1

theorem Fenced.unfenced_of_rank {r : Runner} (o : r.Fenced) {phase : String} {i : Instance}
    {s : Standing} (hi : r.instances.get? phase = some i)
    (hr : i.standing.status.rank < s.status.rank) : phase ∉ r.fences.map (·.phase) := by
  apply o.unfenced
  intro h
  rw [status?, hi] at h
  have hs : i.standing.status = .terminated := Option.some.inj h
  rw [hs] at hr
  have := terminated_highest s.status
  omega

theorem Fenced.stand {r : Runner} (o : r.Fenced) {phase : String} {i : Instance} {s : Standing}
    (hi : r.instances.get? phase = some i) (hr : i.standing.status.rank < s.status.rank) :
    (r.modifyInstance phase fun i => { i with standing := s }).Fenced := by
  have keys := keyOf_modifyInstance r phase (f := fun i => { i with standing := s }) fun _ => rfl
  exact { o with
    raised := by
      intro fence f hf
      obtain ⟨hk, ht, hn⟩ := o.raised fence f hf
      refine ⟨by rw [keys]; exact hk, ?_, hn⟩
      rw [status?_stand hi]
      split
      · rename_i he
        exact absurd (List.mem_map.mpr ⟨f, List.mem_of_getElem? hf, he⟩) (o.unfenced_of_rank hi hr)
      · exact ht
    seen := by
      intro name key hk
      rw [keys] at hk
      exact o.seen name key hk
    waiting := by
      intro name key hk
      rw [keys] at hk
      exact o.waiting name key hk
    told := by
      intro name key hk
      rw [keys] at hk
      exact o.told name key hk }

end Stand

section Orders

theorem map_modify_eq {α β : Type} {c : α → β} {g : α → α} (h : ∀ a, c (g a) = c a) (l : List α)
    (n : Nat) : (l.modify n g).map c = l.map c := by
  apply List.ext_getElem?
  intro m
  simp only [List.getElem?_map, List.getElem?_modify]
  cases l[m]? with
  | none => split <;> rfl
  | some a =>
    split
    · exact congrArg some (h a)
    · rfl

theorem getElem?_modify_of_eq {α : Type} {l : List α} {n : Nat} {a : α} (h : l[n]? = some a)
    (g : α → α) (m : Nat) : (l.modify n g)[m]? = if m = n then some (g a) else l[m]? := by
  rw [List.getElem?_modify]
  by_cases he : m = n
  · subst he
    simp [h]
  · simp [he, Ne.symm he]

theorem orders_mem_push {r : Runner} {loop other : Nat} {t u : Task}
    (h : u ∈ (r.push loop t).orders other) : u ∈ r.orders other ∨ u = t := by
  simp only [orders, push] at h
  rcases LoopGroup.posted_push_or r.loops loop t other with he | he
  · rw [he] at h
    exact .inl h
  · rw [he, List.filter_append] at h
    rcases List.mem_append.mp h with h | h
    · exact .inl h
    · exact .inr (List.mem_singleton.mp (List.mem_filter.mp h).1)

end Orders

section Seal

/-- A loop has ended the measurement, and one less is to come. -/
def lower (r : Runner) (loop fence : Nat) (f : Fence) : Runner :=
  { r.endBuckets loop f with
    fences := r.fences.modify fence fun f' => { f' with pending := f.pending - 1 } }

/-- The announcement is queued again if it was parked and no loop is left to wait for. -/
theorem sealed_eq {r : Runner} {fence : Nat} {f : Fence} (hf : r.fences[fence]? = some f)
    (loop : Nat) : r.sealed loop fence = if f.pending - 1 = 0 ∧ f.parked then
      (r.lower loop fence f).push 0 (.announce fence) else r.lower loop fence f := by
  simp only [Runner.sealed, hf]
  rfl

theorem lower_lookup {r : Runner} {fence : Nat} {f : Fence} (hf : r.fences[fence]? = some f)
    (loop m : Nat) : (r.lower loop fence f).fences[m]? =
      if m = fence then some { f with pending := f.pending - 1 } else r.fences[m]? :=
  getElem?_modify_of_eq hf (fun f' => { f' with pending := f.pending - 1 }) m

theorem lower_story (r : Runner) (loop fence : Nat) (f : Fence) :
    SameStory r (r.lower loop fence f) where
  keys := fun _ => rfl
  statuses := fun _ => rfl
  causes :=
    map_modify_eq (g := fun f' => { f' with pending := f.pending - 1 }) (fun _ => rfl) r.fences fence
  pruneQueue := rfl
  ended := rfl

theorem Taken.fences {r r₁ : Runner} {loop : Nat} {t : Task} (h : Taken r r₁ loop t) :
    r₁.fences = r.fences := by
  obtain ⟨loops, rfl⟩ := h.rest
  rfl

variable {r r₁ : Runner} {loop fence : Nat} (o : r.Fenced) (h : Taken r r₁ loop (.seal fence))
include o h

/-- The number of loops that have still to end a measurement is what the fence says. -/
theorem seal_pending :
    ∃ f, r.fences[fence]? = some f ∧ f.pending = r₁.queued (.seal fence) + 1 := by
  have hm : .seal fence ∈ r.orders loop := by
    rw [h.first]
    exact List.mem_cons_self
  have hlt := o.known loop fence (.inl hm)
  refine ⟨_, List.getElem?_eq_getElem hlt, ?_⟩
  rw [o.pending fence _ (List.getElem?_eq_getElem hlt), h.queued, if_pos rfl]

theorem seal_unannounced {m : Nat} (h0 : r.outstanding m = 0) : m ≠ fence := by
  intro same
  subst same
  obtain ⟨f, hf, hp⟩ := seal_pending o h
  rw [o.settled m f hf h0] at hp
  cases hp

variable {f : Fence} (hf : r.fences[fence]? = some f)
include hf

theorem lower_pending (m : Nat) (f' : Fence)
    (hf' : (r₁.lower loop fence f).fences[m]? = some f') :
    f'.pending = (r₁.lower loop fence f).queued (.seal m) := by
  have hq : r.queued (.seal m) = (r₁.lower loop fence f).queued (.seal m) + _ := h.queued (.seal m)
  rw [lower_lookup (by rw [h.fences]; exact hf)] at hf'
  split at hf'
  · rename_i he
    subst he
    cases hf'
    rw [if_pos rfl, ← o.pending m f hf] at hq
    change f.pending - 1 = _
    rw [hq, Nat.add_sub_cancel]
  · rename_i he
    rw [if_neg (by simpa using he), Nat.add_zero] at hq
    rw [h.fences] at hf'
    rw [← hq]
    exact o.pending m f' hf'

omit o in
theorem lower_outstanding_of_ne {m : Nat} (hne : m ≠ fence) :
    (r₁.lower loop fence f).outstanding m = r.outstanding m := by
  have hq : r.queued (.announce m) = (r₁.lower loop fence f).queued (.announce m) + _ :=
    h.queued (.announce m)
  rw [if_neg (by simp), Nat.add_zero] at hq
  rw [outstanding, outstanding, ← hq, lower_lookup (by rw [h.fences]; exact hf), if_neg hne,
    h.fences]

theorem lower_settled {m : Nat} {f' : Fence} (h0 : r.outstanding m = 0)
    (hf' : (r₁.lower loop fence f).fences[m]? = some f') : f'.pending = 0 := by
  rw [lower_lookup (by rw [h.fences]; exact hf), if_neg (seal_unannounced o h h0), h.fences] at hf'
  exact o.settled m f' hf' h0

theorem lower_outstanding (hn : ¬ (f.pending - 1 = 0 ∧ f.parked)) (m : Nat) :
    (r₁.lower loop fence f).outstanding m = r.outstanding m := by
  by_cases he : m = fence
  · subst he
    have hq : r.queued (.announce m) = (r₁.lower loop m f).queued (.announce m) + _ :=
      h.queued (.announce m)
    rw [if_neg (by simp), Nat.add_zero] at hq
    rw [outstanding, outstanding, ← hq, lower_lookup (by rw [h.fences]; exact hf), if_pos rfl, hf]
    simp only [Option.map_some, Option.getD_some, Fence.waits]
    congr 1
    obtain ⟨_, hf', hp⟩ := seal_pending o h
    cases hf.symm.trans hf'
    by_cases hk : f.parked = true
    · have hpos : f.pending - 1 ≠ 0 := fun h0 => hn ⟨h0, hk⟩
      have hpos' : f.pending ≠ 0 := by omega
      simp only [hk, true_and, if_pos hpos, if_pos hpos']
    · simp [hk]
  · exact lower_outstanding_of_ne h hf he

theorem Fenced.lower (hn : ¬ (f.pending - 1 = 0 ∧ f.parked)) :
    (r₁.lower loop fence f).Fenced := by
  have whole := lower_outstanding o h hf hn
  have story := h.story.trans (lower_story r₁ loop fence f)
  exact o.advance { story with
    prunes := fun _ _ _ hm => h.mem hm
    prompt := h.prompt
    known := by
      intro other m hm
      rw [story.length]
      exact o.known other m (hm.imp h.mem h.mem)
    pending := lower_pending o h hf
    outstanding := fun m => Nat.le_of_eq (whole m)
    settled := by
      intro m f' hf' h0
      rw [whole] at h0
      exact lower_settled o h hf h0 hf' }

omit o hf in
theorem lower_push_queued (hr : r.loops.Running) (u : Task) :
    ((r₁.lower loop fence f).push 0 (.announce fence)).queued u =
      (r₁.lower loop fence f).queued u + if u = .announce fence then 1 else 0 := by
  have running : (r₁.lower loop fence f).loops.Running := h.running hr
  have size : (r₁.lower loop fence f).loops.size = r.loops.size := h.size
  refine queued_push running ?_ rfl u
  rw [size]
  exact Nat.zero_lt_of_lt h.inside

theorem lower_push_outstanding (hr : r.loops.Running) (hd : f.pending - 1 = 0 ∧ f.parked) (m : Nat) :
    ((r₁.lower loop fence f).push 0 (.announce fence)).outstanding m = r.outstanding m := by
  have hm := lower_push_queued h (f := f) hr (.announce m)
  by_cases he : m = fence
  · subst he
    have hl : ((r₁.lower loop m f).push 0 (.announce m)).fences[m]? =
        some { f with pending := f.pending - 1 } :=
      (lower_lookup (by rw [h.fences]; exact hf) loop m).trans (if_pos rfl)
    have hq : r.queued (.announce m) = (r₁.lower loop m f).queued (.announce m) + _ :=
      h.queued (.announce m)
    rw [if_neg (by simp), Nat.add_zero] at hq
    obtain ⟨_, hf', hp⟩ := seal_pending o h
    cases hf.symm.trans hf'
    have hpos : f.pending ≠ 0 := by omega
    rw [outstanding, outstanding, hm, if_pos rfl, ← hq, hl, hf]
    simp only [Option.map_some, Option.getD_some, Fence.waits, hd.1, hd.2]
    simp [hpos]
  · rw [if_neg (by simpa using he), Nat.add_zero] at hm
    rw [← lower_outstanding_of_ne h hf he, outstanding, outstanding, hm]
    rfl

theorem Fenced.lower_push (hr : r.loops.Running) (hd : f.pending - 1 = 0 ∧ f.parked) :
    ((r₁.lower loop fence f).push 0 (.announce fence)).Fenced := by
  have whole := lower_push_outstanding o h hf hr hd
  have story := (h.story.trans (lower_story r₁ loop fence f)).push 0 (.announce fence)
  exact o.advance { story with
    prunes := by
      intro other key phase hm
      rcases orders_mem_push hm with hm | hm
      · exact h.mem hm
      · simp at hm
    prompt := prompt_push (r := r₁.lower loop fence f) h.prompt 0 _
    known := by
      intro other m hm
      rw [story.length]
      rcases hm with hm | hm
      · rcases orders_mem_push hm with hm | hm
        · exact o.known other m (.inl (h.mem hm))
        · simp at hm
      · rcases orders_mem_push hm with hm | hm
        · exact o.known other m (.inr (h.mem hm))
        · cases hm
          exact (List.getElem?_eq_some_iff.mp hf).1
    pending := by
      intro m f' hf'
      have hm := lower_push_queued h (f := f) hr (.seal m)
      rw [if_neg (by simp), Nat.add_zero] at hm
      rw [hm]
      exact lower_pending o h hf m f' hf'
    outstanding := fun m => Nat.le_of_eq (whole m)
    settled := by
      intro m f' hf' h0
      rw [whole] at h0
      exact lower_settled o h hf h0 hf' }

omit hf in
theorem sealed_outstanding (hr : r.loops.Running) (m : Nat) :
    (r₁.sealed loop fence).outstanding m = r.outstanding m := by
  obtain ⟨f, hf, _⟩ := seal_pending o h
  rw [sealed_eq (by rw [h.fences]; exact hf)]
  split
  · rename_i hd
    exact lower_push_outstanding o h hf hr hd m
  · rename_i hn
    exact lower_outstanding o h hf hn m

omit hf in
theorem Fenced.sealed (hr : r.loops.Running) : (r₁.sealed loop fence).Fenced := by
  obtain ⟨f, hf, _⟩ := seal_pending o h
  rw [sealed_eq (by rw [h.fences]; exact hf)]
  split
  · rename_i hd
    exact o.lower_push h hf hr hd
  · rename_i hn
    exact o.lower h hf hn

end Seal

end Runner
end LoadGen
