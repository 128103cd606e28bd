import LoadGen.Proofs.Timekeeping
import LoadGen.Proofs.Tracking

namespace LoadGen.Runner

/-- The timers under which the end of a request waits on a loop. -/
def waits (r : Runner) (loop id : Nat) : List (Option Nat) := r.loops.waits loop (.expire id)

/-- The timer that a request knows of, where it lives. -/
def known (r : Runner) (loop id : Nat) : List (Option Nat) :=
  match r.request? id with
  | some q => if loop = r.executorOf q.session then (q.timer.map some).toList else []
  | none => []

/-- A timer was armed on a loop, and of all requests only these may wait for it. -/
def WaitsOnly (r : Runner) (loop t : Nat) (p : Nat → Prop) : Prop :=
  t < r.loops.armed loop ∧ ∀ id, some t ∈ r.waits loop id → p id

/-- Whoever has a timer may stop it: nobody else waits for it. -/
structure Geared (r : Runner) : Prop where
  seated : r.Seated
  stocked : r.Stocked
  running : r.loops.Running
  bound : ∀ run ∈ r.runs, run.session < r.sessions.length
  ids : (r.runs.map (·.id)).Nodup
  numbered : ∀ run ∈ r.runs, run.id < r.runCount
  pauses : ∀ run ∈ r.runs, ∀ t rest, run.point = .pause t rest →
    r.WaitsOnly (r.executorOf run.session) t fun _ => False
  dated : ∀ loop id t, some t ∈ r.waits loop id → t < r.loops.armed loop
  timers : ∀ id q t, r.request? id = some q → q.timer = some t →
    q.session < r.sessions.length ∧ r.WaitsOnly (r.executorOf q.session) t (· = id)

/-- A request knows of every timer that it has. It has none that was armed before, and none at all
unless one was set. Somebody has it, unless it may be given away. -/
structure Minded (id : Nat) (base : Nat → Nat) (given set : Prop) (r : Runner) : Prop extends
    Geared r where
  knows : ∀ loop, r.waits loop id = r.known loop id
  held : ∀ q, r.request? id = some q → q.held = true ∨ given
  since : ∀ loop, base loop ≤ r.loops.armed loop
  late : ∀ q t, r.request? id = some q → q.timer = some t →
    base (r.executorOf q.session) ≤ t ∧ set

variable {r r' r₁ : Runner} {id other : Nat} {base : Nat → Nat} {given set set' : Prop} {q : Request}

section Known

theorem known_of_none (h : r.request? id = none) (loop : Nat) : r.known loop id = [] := by
  simp only [known, h]

theorem known_of_some (h : r.request? id = some q) (loop : Nat) : r.known loop id =
    if loop = r.executorOf q.session then (q.timer.map some).toList else [] := by
  simp only [known, h]

theorem known_cases (r : Runner) (loop id : Nat) :
    r.known loop id = [] ∨ ∃ t, r.known loop id = [some t] := by
  cases hq : r.request? id with
  | none => exact .inl (known_of_none hq loop)
  | some q =>
    rw [known_of_some hq]
    split
    · cases q.timer with
      | none => exact .inl rfl
      | some t => exact .inr ⟨t, rfl⟩
    · exact .inl rfl

theorem eq_known {l : List (Option Nat)} {loop : Nat} (h : l.Perm (r.known loop id)) :
    l = r.known loop id := by
  rcases r.known_cases loop id with he | ⟨t, he⟩ <;> rw [he] at h ⊢
  · exact h.eq_nil
  · exact List.perm_singleton.mp h

end Known

namespace KeepsTime

theorem executorOf (k : KeepsTime r r') {session : Nat} (h : session < r.sessions.length) :
    r'.executorOf session = r.executorOf session := by
  have look : ∀ r : Runner, r.executorOf session =
      ((r.sessions.map (·.executor))[session]?).getD 0 := by
    intro r
    rw [List.getElem?_map]
    rfl
  obtain ⟨extra, grown⟩ := k.sessions
  rw [look, look, ← grown, List.getElem?_append_left (by simpa using h)]

theorem length_le (k : KeepsTime r r') : r.sessions.length ≤ r'.sessions.length := by
  simpa using k.sessions.length_le

theorem waits (k : KeepsTime r r') (loop id : Nat) : (r'.waits loop id).Perm (r.waits loop id) :=
  k.loops.waits loop (.expire id) rfl

theorem waitsOnly (k : KeepsTime r r') {loop t : Nat} {p : Nat → Prop} (h : r.WaitsOnly loop t p) :
    r'.WaitsOnly loop t p :=
  ⟨Nat.lt_of_lt_of_le h.1 (k.loops.armed loop), fun id hm => h.2 id ((k.waits loop id).subset hm)⟩

theorem request_of (k : KeepsTime r r') (hq : r'.request? id = some q) :
    ∃ q₀, r.request? id = some q₀ ∧ q.session = q₀.session ∧ q.timer = q₀.timer ∧
      q.held = q₀.held := by
  have same := k.requests id
  rw [hq] at same
  obtain ⟨q₀, h₀, hw⟩ := Option.map_eq_some_iff.mp same.symm
  simp only [Request.watch, Prod.mk.injEq] at hw
  exact ⟨q₀, h₀, hw.1.symm, hw.2.1.symm, hw.2.2.symm⟩

theorem geared (k : KeepsTime r r') (g : Geared r) : Geared r' where
  seated := k.seated g.seated
  stocked := k.stocked g.stocked
  running := k.loops.running g.running
  bound := by
    rw [k.runs]
    exact fun run hm => Nat.lt_of_lt_of_le (g.bound run hm) k.length_le
  ids := by rw [k.runs]; exact g.ids
  numbered := by rw [k.runs, k.runCount]; exact g.numbered
  pauses := by
    rw [k.runs]
    intro run hm t rest hp
    rw [k.executorOf (g.bound run hm)]
    exact k.waitsOnly (g.pauses run hm t rest hp)
  dated := fun loop id t hm =>
    Nat.lt_of_lt_of_le (g.dated loop id t ((k.waits loop id).subset hm)) (k.loops.armed loop)
  timers := by
    intro id q t hq ht
    obtain ⟨q₀, h₀, hs, htimer, _⟩ := k.request_of hq
    obtain ⟨there, only⟩ := g.timers id q₀ t h₀ (htimer ▸ ht)
    rw [hs, k.executorOf there]
    exact ⟨Nat.lt_of_lt_of_le there k.length_le, k.waitsOnly only⟩

theorem known (k : KeepsTime r r') (g : Geared r) (loop id : Nat) :
    r'.known loop id = r.known loop id := by
  cases hq : r'.request? id with
  | none =>
    have same := k.requests id
    rw [hq] at same
    rw [known_of_none hq, known_of_none (Option.map_eq_none_iff.mp same.symm)]
  | some q =>
    obtain ⟨q₀, h₀, hs, ht, _⟩ := k.request_of hq
    rw [known_of_some hq, known_of_some h₀, ht, hs]
    cases htimer : q₀.timer with
    | none => simp
    | some t => rw [k.executorOf (g.timers id q₀ t h₀ htimer).1]

theorem minded (k : KeepsTime r r') (h : Minded id base given set r) : Minded id base given set r' where
  toGeared := k.geared h.toGeared
  knows := by
    intro loop
    rw [k.known h.toGeared]
    exact eq_known ((k.waits loop id).trans (.of_eq (h.knows loop)))
  held := by
    intro q hq
    obtain ⟨q₀, h₀, _, _, hh⟩ := k.request_of hq
    rw [hh]
    exact h.held q₀ h₀
  since := fun loop => Nat.le_trans (h.since loop) (k.loops.armed loop)
  late := by
    intro q t hq ht
    obtain ⟨q₀, h₀, hs, htimer, _⟩ := k.request_of hq
    rw [hs, k.executorOf (h.timers id q₀ t h₀ (htimer ▸ ht)).1]
    exact h.late q₀ t h₀ (htimer ▸ ht)

end KeepsTime

theorem Minded.elsewhere (h : Minded id base given set r) (hl : r'.loops = r.loops)
    (hq : r'.requests = r.requests) (hs : r'.sessions = r.sessions) (hr : r'.runs = r.runs)
    (hc : r'.runCount = r.runCount) (hg : r'.groups = r.groups) : Minded id base given set r' :=
  (KeepsTime.elsewhere hl hq hs hr hc hg).minded h

/-- One request gets another timer, or loses the one that it has. -/
structure Retimes (other : Nat) (r r' : Runner) : Prop where
  loops : LoopGroup.Holds (fun t => t.isExpire && t != .expire other) r.loops r'.loops
  own : ∀ loop t, some t ∈ r'.waits loop other →
    some t ∈ r.waits loop other ∨ r.loops.armed loop ≤ t ∧ t < r'.loops.armed loop
  others : ∀ id, id ≠ other → r'.request? id = r.request? id
  timer : ∀ q' t, r'.request? other = some q' → q'.timer = some t →
    ∃ q, r.request? other = some q ∧ q'.session = q.session ∧ (q.timer = some t ∨
      q.session < r.sessions.length ∧ r.loops.armed (r.executorOf q.session) ≤ t ∧
        t < r'.loops.armed (r.executorOf q.session))
  sessions : r'.sessions = r.sessions
  runs : r'.runs = r.runs
  runCount : r'.runCount = r.runCount
  groups : r'.groups = r.groups

namespace Retimes

theorem waits (k : Retimes other r r') (loop : Nat) (hn : id ≠ other) :
    (r'.waits loop id).Perm (r.waits loop id) := by
  refine k.loops.waits loop (.expire id) ?_
  simpa [Task.isExpire] using hn

theorem executorOf (k : Retimes other r r') (session : Nat) :
    r'.executorOf session = r.executorOf session := by
  rw [Runner.executorOf, session?, k.sessions]
  rfl

theorem waitsOnly (k : Retimes other r r') {loop t : Nat} {p : Nat → Prop}
    (h : r.WaitsOnly loop t p) : r'.WaitsOnly loop t p := by
  refine ⟨Nat.lt_of_lt_of_le h.1 (k.loops.armed loop), fun id hm => ?_⟩
  by_cases he : id = other
  · subst he
    rcases k.own loop t hm with hm | ⟨later, _⟩
    · exact h.2 id hm
    · exact absurd h.1 (Nat.not_lt.mpr later)
  · exact h.2 id ((k.waits loop he).subset hm)

theorem geared (k : Retimes other r r') (g : Geared r) : Geared r' where
  seated := by
    rw [Seated, k.sessions, k.loops.size]
    exact g.seated
  stocked := by
    rw [Stocked, k.sessions, k.groups]
    exact g.stocked
  running := k.loops.running g.running
  bound := by rw [k.runs, k.sessions]; exact g.bound
  ids := by rw [k.runs]; exact g.ids
  numbered := by rw [k.runs, k.runCount]; exact g.numbered
  pauses := by
    rw [k.runs]
    intro run hm t rest hp
    rw [k.executorOf]
    exact k.waitsOnly (g.pauses run hm t rest hp)
  dated := by
    intro loop id t hm
    by_cases he : id = other
    · subst he
      rcases k.own loop t hm with hm | ⟨_, new⟩
      · exact Nat.lt_of_lt_of_le (g.dated loop id t hm) (k.loops.armed loop)
      · exact new
    · exact Nat.lt_of_lt_of_le (g.dated loop id t ((k.waits loop he).subset hm))
        (k.loops.armed loop)
  timers := by
    intro id q' t hq ht
    rw [k.sessions, k.executorOf]
    by_cases he : id = other
    · subst he
      obtain ⟨q, hq₀, hs, old | ⟨there, later, new⟩⟩ := k.timer q' t hq ht
      · rw [hs]
        obtain ⟨there, only⟩ := g.timers id q t hq₀ old
        exact ⟨there, k.waitsOnly only⟩
      · rw [hs]
        refine ⟨there, new, fun id' hm => ?_⟩
        by_cases he : id' = id
        · exact he
        · have old := g.dated _ id' t ((k.waits _ he).subset hm)
          exact absurd old (Nat.not_lt.mpr later)
    · rw [k.others id he] at hq
      obtain ⟨there, only⟩ := g.timers id q' t hq ht
      exact ⟨there, k.waitsOnly only⟩

theorem minded (k : Retimes other r r') (hn : id ≠ other) (h : Minded id base given set r) :
    Minded id base given set r' where
  toGeared := k.geared h.toGeared
  knows := by
    intro loop
    have known : r'.known loop id = r.known loop id := by
      simp only [Runner.known, k.others id hn, k.executorOf]
    rw [known]
    exact eq_known ((k.waits loop hn).trans (.of_eq (h.knows loop)))
  held := by
    rw [k.others id hn]
    exact h.held
  since := fun loop => Nat.le_trans (h.since loop) (k.loops.armed loop)
  late := by
    simp only [k.others id hn, k.executorOf]
    exact h.late

theorem mindedOwn (k : Retimes id r r') (h : Minded id base given set r)
    (hh : ∀ q', r'.request? id = some q' → q'.held = true ∨ given)
    (he : ∀ loop, (r'.waits loop id).Perm (r'.known loop id))
    (hl : ∀ q' t, r'.request? id = some q' → q'.timer = some t →
      base (r.executorOf q'.session) ≤ t ∧ set') : Minded id base given set' r' where
  toGeared := k.geared h.toGeared
  knows := fun loop => eq_known (he loop)
  held := hh
  since := fun loop => Nat.le_trans (h.since loop) (k.loops.armed loop)
  late := by
    simp only [k.executorOf]
    exact hl

end Retimes

/-- The timers under which the end of a request waits, by its own account. -/
theorem Minded.waits_eq (h : Minded id base given set r) (loop : Nat) :
    r.loops.waits loop (.expire id) = r.known loop id := h.knows loop

theorem Minded.waits_of_some (h : Minded id base given set r) (hq : r.request? id = some q) (loop : Nat) :
    r.loops.waits loop (.expire id) =
      if loop = r.executorOf q.session then (q.timer.map some).toList else [] :=
  (h.knows loop).trans (known_of_some hq loop)

theorem Minded.mono (h : Minded id base given set r) (hs : set → set') : Minded id base given set' r :=
  { h with late := fun q t hq ht => (h.late q t hq ht).imp_right hs }

section Retimed
variable {loops : LoopGroup Task} {f : Request → Request}

theorem request?_retimed (hq : r.request? other = some q) :
    ({ r with loops := loops }.modifyRequest other f).request? other = some (f q) := by
  rw [request?_modifyRequest, if_pos rfl]
  exact congrArg (Option.map f) hq

theorem Minded.retime (h : Minded id base given set r) (hq : r.request? other = some q)
    (hl : LoopGroup.Holds (fun t => t.isExpire && t != .expire other) r.loops loops)
    (hw : ∀ loop t, some t ∈ loops.waits loop (.expire other) →
      some t ∈ r.waits loop other ∨ r.loops.armed loop ≤ t ∧ t < loops.armed loop)
    (hf : (f q).session = q.session ∧ (other = id → (f q).held = q.held ∨ given))
    (ht : ∀ t, (f q).timer = some t → q.timer = some t ∨ q.session < r.sessions.length ∧
      r.loops.armed (r.executorOf q.session) ≤ t ∧ t < loops.armed (r.executorOf q.session))
    (own : other = id → (∀ loop, (loops.waits loop (.expire id)).Perm
      (if loop = r.executorOf q.session then ((f q).timer.map some).toList else [])) ∧
        ∀ t, (f q).timer = some t → base (r.executorOf q.session) ≤ t ∧ set')
    (hs : set → set') :
    Minded id base given set' ({ r with loops := loops }.modifyRequest other f) := by
  have changed : ({ r with loops := loops }.modifyRequest other f).request? other = some (f q) :=
    request?_retimed hq
  have retimes : Retimes other r ({ r with loops := loops }.modifyRequest other f) := by
    refine ⟨hl, hw, fun id hn => ?_, fun q' t hq' htimer => ?_, rfl, rfl, rfl, rfl⟩
    · rw [request?_modifyRequest, if_neg (Ne.symm hn)]
      rfl
    · cases changed.symm.trans hq'
      exact ⟨q, hq, hf.1, ht t htimer⟩
  by_cases he : id = other
  · subst he
    obtain ⟨knows, late⟩ := own rfl
    refine retimes.mindedOwn h (fun q' hq' => ?_) (fun loop => ?_) fun q' t hq' htimer => ?_
    · cases changed.symm.trans hq'
      rcases hf.2 rfl with same | given
      · rw [same]
        exact h.held q hq
      · exact .inr given
    · rw [known_of_some changed, hf.1, retimes.executorOf]
      exact knows loop
    · cases changed.symm.trans hq'
      rw [hf.1]
      exact late t htimer
  · exact (retimes.minded he h).mono hs

end Retimed

section Requests

/-- The loops after the timer of a request was stopped. -/
def silenced (r : Runner) (q : Request) : LoopGroup Task :=
  match q.timer with
  | some t => r.loops.disarm (r.executorOf q.session) t
  | none => r.loops

theorem disarmRequest_eq (r : Runner) (q : Request) :
    r.disarmRequest q = { r with loops := r.silenced q } := by
  unfold disarmRequest silenced
  cases q.timer <;> rfl

theorem waits_silenced (r : Runner) (q : Request) (loop : Nat) (t : Task) :
    (r.silenced q).waits loop t = (r.loops.waits loop t).filter fun k =>
      !(decide (loop = r.executorOf q.session) && q.timer.any fun own => k == some own) := by
  unfold silenced
  cases q.timer with
  | none => simp
  | some own =>
    rw [LoopGroup.waits_disarm]
    split
    · rename_i he
      simp [he, bne]
    · rename_i hn
      simp [Ne.symm hn]

theorem holds_silenced (g : Geared r) (hq : r.request? other = some q) :
    LoopGroup.Holds (fun t => t.isExpire && t != .expire other) r.loops (r.silenced q) := by
  unfold silenced
  cases ht : q.timer with
  | none => exact .refl _
  | some t =>
    refine .disarm _ _ fun u hu hm => ?_
    cases u with
    | expire id =>
      have own := (g.timers other q t hq ht).2.2 id hm
      simp [own] at hu
    | _ => simp [Task.isExpire] at hu

theorem minded_completeRequest (h : Minded id base given set r) (other : Nat) :
    Minded id base given set (r.completeRequest other) := by
  unfold completeRequest
  split
  · exact h
  · rename_i q hq
    rw [disarmRequest_eq]
    refine KeepsTime.minded (.modifySession _ _ fun _ => rfl) ?_
    refine h.retime hq (holds_silenced h.toGeared hq) (fun loop t hm => ?_) ⟨rfl, fun _ => .inl rfl⟩
      (fun t => nofun) (fun he => ⟨fun loop => ?_, fun t => nofun⟩) fun hs => hs
    · rw [waits_silenced] at hm
      exact .inl (List.mem_filter.mp hm).1
    · subst he
      rw [waits_silenced, h.waits_of_some hq]
      refine .of_eq ?_
      split
      · rename_i he
        cases q.timer <;> simp [he, Request.complete]
      · rfl

theorem minded_forget (h : Minded id base given set r) (hq : r.request? other = some q)
    (hn : other = id → q.timer = none) :
    Minded id base given set (r.modifyRequest other fun q => { q with timer := none }) := by
  refine h.retime hq (.refl r.loops) (fun _ _ => .inl) ⟨rfl, fun _ => .inl rfl⟩
    (fun t => nofun) (fun he => ⟨fun loop => ?_, fun t => nofun⟩) fun hs => hs
  subst he
  rw [h.waits_of_some hq, hn rfl]

/-- The timer of a request has fired, and its task is taken out of the queue. -/
theorem minded_fired (h : Minded id base given set r) (hq : r.request? other = some q) {loop : Nat}
    {loops : LoopGroup Task} (hl : r.loops.next? loop = some (.expire other, loops)) :
    Minded id base given set ({ r with loops := loops }.modifyRequest other fun q =>
      { q with timer := none }) := by
  obtain ⟨⟨k, here⟩, elsewhere⟩ := LoopGroup.waits_next? hl
  refine h.retime hq (.take hl (by simp))
    (fun i t hm => .inl (LoopGroup.waits_subset_of_next? hl i hm)) ⟨rfl, fun _ => .inl rfl⟩
    (fun t => nofun) (fun he => ⟨fun i => ?_, fun t => nofun⟩) fun hs => hs
  · subst he
    have lives : loop = r.executorOf q.session := by
      by_contra hn
      rw [h.waits_of_some hq, if_neg hn] at here
      cases here.symm.eq_nil
    have gone : loops.waits loop (.expire other) = [] := by
      have count := here.length_eq
      rw [h.waits_of_some hq, if_pos lives, List.length_cons] at count
      have one : (q.timer.map some).toList.length ≤ 1 := by cases q.timer <;> simp
      exact List.length_eq_zero_iff.mp (by omega)
    refine .of_eq ?_
    by_cases hi : loop = i
    · subst hi
      rw [gone, if_pos lives]
      rfl
    · have away : i ≠ r.executorOf q.session := fun he => hi (lives.trans he.symm)
      rw [elsewhere i hi, h.waits_of_some hq, if_neg away, if_neg away]

theorem retimes_arm (g : Geared r) {loop : Nat} (hi : loop < r.loops.size) (other : Nat)
    (delay : Duration) :
    Retimes other r { r with loops := (r.loops.arm loop delay (.expire other)).2 } where
  loops := .arm _ _ _ (by simp)
  own := by
    intro i t hm
    by_cases he : loop = i
    · subst he
      have armed := (LoopGroup.waits_arm g.running hi delay (.expire other)).subset hm
      rcases List.mem_cons.mp armed with he | hm
      · cases he
        rw [(LoopGroup.arm_fst hi delay (.expire other)).2]
        exact .inr ⟨Nat.le_refl _, Nat.lt_succ_self _⟩
      · exact .inl hm
    · refine .inl ?_
      change some t ∈ LoopGroup.waits _ _ _ at hm
      rw [LoopGroup.waits_arm_of_ne r.loops he] at hm
      exact hm
  others := fun _ _ => rfl
  timer := fun q t hq ht => ⟨q, hq, rfl, .inl ht⟩
  sessions := rfl
  runs := rfl
  runCount := rfl
  groups := rfl

theorem replaced {l : List (Option Nat)} {timer : Option Nat} {new : Nat}
    (h : l.Perm (some new :: (timer.map some).toList)) (old : ∀ t, timer = some t → t ≠ new) :
    (l.filter fun k => !timer.any fun own => k == some own).Perm [some new] := by
  refine (h.filter _).trans (.of_eq ?_)
  cases ht : timer with
  | none => rfl
  | some t =>
    have kept : (some new == some t) = false := by simpa using Ne.symm (old t ht)
    simp [kept]

theorem minded_setTimeout (h : Minded id base given set r) (other : Nat) (delay : Duration)
    (hs : other = id → set') (hm : set → set') :
    Minded id base given set' (r.setTimeout other delay) := by
  unfold setTimeout
  split
  · exact h.mono hm
  · rename_i q hq
    split
    · exact h.mono hm
    · rename_i s hsession
      have lives : r.executorOf q.session = s.executor := by rw [executorOf, hsession]; rfl
      have there : q.session < r.sessions.length := (List.getElem?_eq_some_iff.mp hsession).1
      have inside : s.executor < r.loops.size :=
        h.seated.2 _ (List.mem_map_of_mem (List.mem_of_getElem? hsession))
      obtain ⟨number, next⟩ := LoopGroup.arm_fst inside delay (.expire other)
      have armed := LoopGroup.waits_arm h.running inside delay (.expire other)
      have apart : ∀ i, s.executor ≠ i → (r.loops.arm s.executor delay (.expire other)).2.waits i
          (.expire other) = r.waits i other := fun _ hn => LoopGroup.waits_arm_of_ne r.loops hn ..
      have retimes := retimes_arm h.toGeared inside other delay
      dsimp only
      rw [disarmRequest_eq, number]
      generalize (r.loops.arm s.executor delay (.expire other)).2 = loops at *
      have stops := holds_silenced (retimes.geared h.toGeared) hq
      refine h.retime hq (retimes.loops.trans stops) (fun i t hw => ?_) ⟨rfl, fun _ => .inl rfl⟩
        (fun t ht => ?_) (fun he => ⟨fun i => ?_, fun t ht => ?_⟩) hm
      · rw [waits_silenced] at hw
        exact (retimes.own i t (List.mem_filter.mp hw).1).imp_right fun new =>
          ⟨new.1, Nat.lt_of_lt_of_le new.2 (stops.armed i)⟩
      · cases ht
        rw [lives]
        refine .inr ⟨there, Nat.le_refl _, Nat.lt_of_lt_of_le ?_ (stops.armed _)⟩
        change r.loops.armed s.executor < loops.armed s.executor
        rw [next]
        exact Nat.lt_succ_self _
      · subst he
        rw [waits_silenced]
        by_cases hi : i = s.executor
        · subst hi
          have old : ∀ t, q.timer = some t → t ≠ r.loops.armed s.executor := by
            intro t ht
            have dated := (h.timers other q t hq ht).2.1
            rw [lives] at dated
            exact Nat.ne_of_lt dated
          rw [h.waits_of_some hq, lives, if_pos rfl] at armed
          have home : executorOf { r with loops := loops } q.session = s.executor := lives
          simpa [home, lives] using replaced armed old
        · have away : r.waits i other = [] := by
            rw [waits, h.waits_of_some hq, if_neg (by rw [lives]; exact hi)]
          rw [apart i (Ne.symm hi), away, lives, if_neg hi]
          exact .refl _
      · cases ht
        rw [lives]
        exact ⟨h.since _, hs he⟩

theorem minded_releaseRequest (h : Minded id base given set r) (other : Nat) :
    Minded id base given set (r.releaseRequest other) := by
  refine KeepsTime.minded (.modifyRequest _ _ fun q hq => ?_) (minded_completeRequest h other)
  rw [request?_completeRequest, if_pos rfl] at hq
  obtain ⟨q, _, rfl⟩ := Option.map_eq_some_iff.mp hq
  rfl

theorem minded_recover (h : Minded id base given set r) (other : Nat) (recovery : Recovery) :
    Minded id base given set (r.recover other recovery) := by
  cases recovery with
  | complete => exact minded_completeRequest h other
  | leave => exact h
  | release => exact minded_releaseRequest h other
  | markInvalid => exact KeepsTime.minded (.modifyRequest _ _ fun _ _ => rfl) h
  | restart sequence metric =>
    simp only [recover]
    split
    · rename_i r' hb
      exact (keepsTime_beginRequest hb).minded h
    · exact h

/-- What is done about a request that timed out, after it has forgotten its timer. -/
theorem minded_timeOut (hq : r.request? other = some q)
    (h : Minded id base given set (r.modifyRequest other fun q => { q with timer := none })) :
    Minded id base given set (r.timeOut other) := by
  simp only [timeOut, hq]
  split
  · exact h
  · refine (routine_notifyConnection _ _).keepsTime.minded (minded_recover ?_ other _)
    refine (routine_measureIn ..).keepsTime.minded ?_
    exact KeepsTime.minded (.modifyRequest _ _ fun _ _ => rfl) h

theorem minded_stopSession (h : Minded id base given set r) (session : Nat) :
    Minded id base given set (r.stopSession session) := by
  have all : ∀ (l : List Nat) {r : Runner}, Minded id base given set r →
      Minded id base given set (l.foldl completeRequest r) := by
    intro l
    induction l with
    | nil => exact fun h => h
    | cons other l ih => exact fun h => ih (minded_completeRequest h other)
  refine KeepsTime.minded (.modifySession _ _ fun _ => rfl) (all _ ?_)
  exact KeepsTime.minded (.modifySession _ _ fun _ => rfl) h

theorem minded_applyCommand {c : RequestCommand} (h : Minded id base given set r)
    (hc : r.applyCommand other c = .ok r')
    (ht : other = id → c = .timeOut → ∀ q, r.request? id = some q → q.timer = none)
    (hs : other = id → (∃ delay, c = .setTimeout delay) → set') (hm : set → set') :
    Minded id base given set' r' := by
  have kept : KeepsTime r r' → Minded id base given set' r' := fun k => (k.minded h).mono hm
  cases c with
  | begin metric sequence => exact kept (keepsTime_beginRequest hc)
  | setTimeout delay =>
    cases hc
    exact minded_setTimeout h other delay (fun he => hs he ⟨delay, rfl⟩) hm
  | timeOut =>
    cases hc
    cases hq : r.request? other with
    | none =>
      simp only [timeOut, hq]
      exact h.mono hm
    | some q =>
      refine (minded_timeOut hq (minded_forget h hq fun he => ?_)).mono hm
      exact ht he rfl q (he ▸ hq)
  | complete => cases hc; exact (minded_completeRequest h other).mono hm
  | release => cases hc; exact (minded_releaseRequest h other).mono hm
  | attach | sent | completing | invalidate =>
    cases hc
    exact kept (.modifyRequest _ _ fun _ _ => rfl)
  | respond => cases hc; exact kept (routine_respond r other).keepsTime
  | enter => cases hc; exact kept (routine_enterRequest r other).keepsTime
  | exit => cases hc; exact kept (routine_exitRequest r other).keepsTime
  | look => cases hc; exact kept (.refl r)

theorem minded_createRequest (h : Minded id base given set r) (session : Nat) (recovery : Recovery) :
    Minded id base given set (r.createRequest session recovery).2 := by
  have found : ∀ id q, (r.createRequest session recovery).2.request? id = some q →
      r.request? id = some q ∨ r.request? id = none ∧ q.timer = none ∧ q.held = true := by
    intro id q hq
    simp only [createRequest, request?, List.getElem?_append] at hq
    split at hq
    · exact .inl hq
    · rename_i hn
      have new := List.mem_singleton.mp (List.mem_of_getElem? hq)
      subst new
      exact .inr ⟨List.getElem?_eq_none (Nat.not_lt.mp hn), rfl, rfl⟩
  refine { h with timers := ?_, knows := ?_, held := ?_, late := ?_ }
  · intro other q t hq ht
    rcases found other q hq with old | ⟨_, none, _⟩
    · exact h.timers other q t old ht
    · cases none.symm.trans ht
  · intro loop
    refine (h.knows loop).trans ?_
    cases hq : (r.createRequest session recovery).2.request? id with
    | none =>
      have beyond := List.getElem?_eq_none_iff.mp hq
      simp only [createRequest, List.length_append] at beyond
      have gone : r.request? id = none := List.getElem?_eq_none (Nat.le_of_add_right_le beyond)
      rw [known_of_none hq, known_of_none gone]
    | some q =>
      rw [known_of_some hq]
      rcases found id q hq with old | ⟨gone, none, _⟩
      · exact known_of_some old loop
      · rw [known_of_none gone, none]
        simp
  · intro q hq
    rcases found id q hq with old | ⟨_, _, held⟩
    · exact h.held q old
    · exact .inl held
  · intro q t hq ht
    rcases found id q hq with old | ⟨_, none, _⟩
    · exact h.late q t old ht
    · cases none.symm.trans ht

theorem minded_letGo (h : Minded id base given set r) (hn : other = id → given) :
    Minded id base given set (r.letGo other) := by
  cases hq : r.request? other with
  | none =>
    have same : r.letGo other = r := by
      simp only [letGo, Runner.modifyRequest, List.modify_eq_self (List.getElem?_eq_none_iff.mp hq)]
    rw [same]
    exact h
  | some q =>
    refine h.retime (f := fun q => { q with held := false }) hq (.refl r.loops) (fun _ _ => .inl)
      ⟨rfl, fun he => .inr (hn he)⟩ (fun _ => .inl) (fun he => ?_) fun hs => hs
    subst he
    exact ⟨fun loop => .of_eq (h.waits_of_some hq loop), fun t ht => h.late q t hq ht⟩

theorem minded_taken (h : Minded id base given set r) (hn : other ≠ id) {loop : Nat}
    {loops : LoopGroup Task} (hl : r.loops.next? loop = some (.expire other, loops)) :
    Minded id base given set { r with loops := loops } := by
  have retimes : Retimes other r { r with loops := loops } :=
    ⟨.take hl (by simp), fun i t hm => .inl (LoopGroup.waits_subset_of_next? hl i hm),
      fun _ _ => rfl, fun q t hq ht => ⟨q, hq, rfl, .inl ht⟩, rfl, rfl, rfl, rfl⟩
  exact retimes.minded (Ne.symm hn) h

theorem Minded.timer_of_next? {loop : Nat} {loops : LoopGroup Task}
    (h : Minded id base given set r) (hl : r.loops.next? loop = some (.expire id, loops)) :
    ∃ q t, r.request? id = some q ∧ q.timer = some t := by
  obtain ⟨⟨k, here⟩, _⟩ := LoopGroup.waits_next? hl
  rw [h.waits_eq] at here
  cases hq : r.request? id with
  | none =>
    rw [known_of_none hq] at here
    cases here.symm.eq_nil
  | some q =>
    cases ht : q.timer with
    | none =>
      rw [known_of_some hq, ht] at here
      simp at here
    | some t => exact ⟨q, t, rfl, ht⟩

/-- Whoever has the request while it has a timer. -/
def Guarded (r : Runner) (id : Nat) : Prop :=
  ∀ q t, r.request? id = some q → q.timer = some t → r.isKept id q = true

theorem minded_expire (h : Minded id base given set r) {loop : Nat} {loops : LoopGroup Task}
    (hl : r.loops.next? loop = some (.expire other, loops)) (hk : given → r.Guarded id) :
    Minded id base given set (expire { r with loops := loops } other) := by
  have kept : other = id → ∃ q, r.request? id = some q ∧ r.isKept id q = true := by
    rintro rfl
    obtain ⟨q, t, hq, ht⟩ := h.timer_of_next? hl
    refine ⟨q, hq, ?_⟩
    rcases h.held q hq with held | given
    · simp [isKept, held]
    · exact hk given q t hq ht
  unfold expire
  cases hq : request? { r with loops := loops } other with
  | none =>
    refine minded_taken h (fun he => ?_) hl
    obtain ⟨q, hq', _⟩ := kept he
    cases (he ▸ hq').symm.trans hq
  | some q =>
    dsimp only
    split
    · exact minded_timeOut hq (minded_fired h hq hl)
    · rename_i hn
      refine minded_taken h (fun he => hn ?_) hl
      subst he
      obtain ⟨q', hq', there⟩ := kept rfl
      cases hq'.symm.trans hq
      exact there

end Requests

end LoadGen.Runner
