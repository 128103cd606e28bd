import LoadGen.Pacing.Governor
import LoadGen.Proofs.Allotments

namespace LoadGen
namespace Governor

/-- How some attempts go that are made from number `k` on, at most `n` of them: the one before `next`
is the last. -/
structure Attempted (start : Nat → Bool) (k n next : Nat) : Prop where
  begun : k ≤ next
  most : next ≤ k + n
  /-- All but the last one find a session. -/
  found : ∀ j, k ≤ j → j + 1 < next → start j = true
  /-- If they are fewer than they may be, the last one does not. -/
  refused : next < k + n → k < next ∧ start (next - 1) = false

theorem attempted (start : Nat → Bool) (k n : Nat) :
    Attempted start k n (attempts start k n) := by
  fun_induction attempts start k n with
  | case1 k => exact ⟨Nat.le_refl _, Nat.le_refl _, by omega, by omega⟩
  | case2 k n hit ih =>
    have begun := ih.begun
    have most := ih.most
    refine ⟨by omega, by omega, fun j low high => ?_, fun fewer => ?_⟩
    · rcases Nat.eq_or_lt_of_le low with rfl | after
      · exact hit
      · exact ih.found j after high
    · obtain ⟨more, miss⟩ := ih.refused (by omega)
      exact ⟨by omega, miss⟩
  | case3 k n miss =>
    exact ⟨by omega, by omega, by omega, fun _ => ⟨by omega, by simpa using miss⟩⟩

theorem Attempted.countP {start : Nat → Bool} {k n next : Nat} (h : Attempted start k n next) :
    (List.range' k (next - k)).countP start =
      if next - k != 0 && !start (next - 1) then next - k - 1 else next - k := by
  obtain ⟨calls, rfl⟩ := Nat.exists_eq_add_of_le h.begun
  rw [Nat.add_sub_cancel_left]
  cases calls with
  | zero => rfl
  | succ calls =>
    have earlier : (List.range' k calls).countP start = calls := by
      rw [List.countP_eq_length.mpr, List.length_range']
      intro j hj
      obtain ⟨low, high⟩ := List.mem_range'_1.mp hj
      exact h.found j low (by omega)
    rw [List.range'_1_concat, List.countP_append, earlier, List.countP_singleton]
    cases hit : start (k + calls) <;> simp [hit]

/-- The calls for a tick are those from number `k` on: as many as there are sessions and the burst
allows, or as many as it takes for one to fail. -/
structure Served (start : Nat → Bool) (burst k : Nat) (t : Tick) : Prop where
  most : t.calls ≤ min t.tokens burst
  found : ∀ j, j + 1 < t.calls → start (k + j) = true
  refused : t.calls < min t.tokens burst → 0 < t.calls ∧ start (k + t.calls - 1) = false
  successes : t.successes = (List.range' k t.calls).countP start

/-- The calls for each of some ticks follow on those for the tick before it. -/
def ServedAll (start : Nat → Bool) (burst : Nat) : Nat → List Tick → Prop
  | _, [] => True
  | k, t :: ts => Served start burst k t ∧ ServedAll start burst (k + t.calls) ts

theorem started_cons (t : Tick) (ts : List Tick) : started (t :: ts) = t.successes + started ts := rfl

theorem ServedAll.started {start : Nat → Bool} {burst k : Nat} {ts : List Tick}
    (h : ServedAll start burst k ts) :
    started ts = (List.range' k (ts.map (·.calls)).sum).countP start := by
  induction ts generalizing k with
  | nil => rfl
  | cons t ts ih =>
    rw [started_cons, h.1.successes, ih h.2, List.map_cons, List.sum_cons, ← List.countP_append,
      List.range'_append_1]

section Steps
variable {α : Type} [Quantity α]

theorem step_tried (start : Nat → Bool) (g : Governor α) (t : Duration) :
    (g.step start t).2.tried = g.tried + (g.step start t).1.calls :=
  (Nat.add_sub_of_le (attempted start g.tried _).begun).symm

theorem step_served (start : Nat → Bool) (g : Governor α) (t : Duration) :
    Served start g.burst g.tried (g.step start t).1 := by
  have tried := attempted start g.tried (min (g.schedule.tokensAt g.tick t g.carry).1 g.burst)
  have begun := tried.begun
  have most := tried.most
  refine ⟨Nat.sub_le_iff_le_add'.mpr most, fun j hj => ?_, fun fewer => ?_, tried.countP.symm⟩
  · simp only [step] at hj
    exact tried.found _ (by omega) (by omega)
  · simp only [step] at fewer ⊢
    obtain ⟨more, miss⟩ := tried.refused (by omega)
    refine ⟨by omega, ?_⟩
    rwa [Nat.add_sub_of_le begun]

end Steps

section Times

theorem nanos_dueAfter {α : Type} (g : Governor α) (due : Duration) :
    (g.dueAfter due).nanos = due.nanos + g.tick.nanos := rfl

theorem firing_whole {due : Duration} (h : 1000000 ∣ due.nanos) : firing due = due := by
  obtain ⟨millis, hm⟩ := h
  obtain ⟨nanos⟩ := due
  simp only [firing, Duration.ofMillis, Duration.millisUp, Duration.mk.injEq] at hm ⊢
  omega

end Times

section Runs
variable {α : Type} [Quantity α]

theorem ticksFrom_served (start : Nat → Bool) (stop : Duration) (g : Governor α)
    (now due : Duration) :
    ServedAll start g.burst g.tried (ticksFrom start stop g now due) := by
  fun_induction ticksFrom start stop g now due with
  | case1 g now due made more ih =>
    refine ⟨step_served start g now, ?_⟩
    rwa [step_tried] at ih
  | case2 g now due made last => exact ⟨step_served start g now, trivial⟩

theorem ticksFrom_tokens (start : Nat → Bool) (stop : Duration) (g : Governor α)
    (now due : Duration) :
    (ticksFrom start stop g now due).map (·.tokens) =
      (g.schedule.allot g.tick g.carry ((ticksFrom start stop g now due).map (·.time))).1 := by
  fun_induction ticksFrom start stop g now due with
  | case1 g now due made more ih =>
    rw [List.map_cons, List.map_cons, Schedule.allot, ih]
    rfl
  | case2 g now due made last => rfl

/-- Every tick is made when it is due, and the last one is the last before the end. -/
theorem ticksFrom_time (start : Nat → Bool) (stop : Duration) {g : Governor α} {now due : Duration}
    (whole : 1000000 ∣ g.tick.nanos) (pos : 0 < g.tick.nanos) (round : 1000000 ∣ due.nanos)
    (onTime : now = due) (i : Nat) :
    ((ticksFrom start stop g now due)[i]?).map (·.time) =
      if i = 0 ∨ due.nanos + i * g.tick.nanos < stop.nanos then
        some ⟨due.nanos + i * g.tick.nanos⟩
      else none := by
  fun_induction ticksFrom start stop g now due generalizing i with
  | case1 g now due made more ih =>
    subst onTime
    have later : 1000000 ∣ (g.dueAfter now).nanos := Nat.dvd_add round whole
    have fires := firing_whole later
    rw [fires, nanos_dueAfter] at more
    cases i with
    | zero => simp [made, step]
    | succ i =>
      have time : (g.dueAfter now).nanos + i * g.tick.nanos =
          now.nanos + (i + 1) * g.tick.nanos := by
        rw [nanos_dueAfter, Nat.succ_mul]
        omega
      have reached : i = 0 ∨ now.nanos + (i + 1) * g.tick.nanos < stop.nanos ↔
          i + 1 = 0 ∨ now.nanos + (i + 1) * g.tick.nanos < stop.nanos := by
        refine ⟨fun h => .inr (h.elim (fun first => ?_) id), fun h => .inr (h.resolve_left nofun)⟩
        rw [first, Nat.zero_add, Nat.one_mul]
        exact more.2
      rw [List.getElem?_cons_succ, ih whole pos later fires, show made.2.tick = g.tick from rfl, time]
      simp only [reached]
  | case2 g now due made last =>
    subst onTime
    have later : 1000000 ∣ (g.dueAfter now).nanos := Nat.dvd_add round whole
    rw [firing_whole later, nanos_dueAfter] at last
    cases i with
    | zero => simp [made, step]
    | succ i =>
      have beyond : stop.nanos ≤ now.nanos + (i + 1) * g.tick.nanos := by
        rw [Nat.succ_mul]
        omega
      simp [Nat.not_lt.mpr beyond]

end Runs
section Ends
variable {last t : Duration} {c : Change} {changes : List Change}

/-- The changes of a status as they are seen after `last`: none comes before the one in front of it. -/
def arrivals : Duration → List Change → List Change
  | _, [] => []
  | last, c :: rest => ⟨last.max c.time, c.running⟩ :: arrivals (last.max c.time) rest

/-- Whether a phase has ended for its governor by a time: it was not running, it was seen not to run,
or there is nothing left to see. -/
def EndedBy (running : Bool) (changes : List Change) (t : Duration) : Prop :=
  running = false ∨ (∃ c ∈ arrivals .zero changes, c.running ≠ some true ∧ c.time.nanos ≤ t.nanos) ∨
    ∀ c ∈ arrivals .zero changes, c.time.nanos ≤ t.nanos

theorem le_of_mem_arrivals (h : c ∈ arrivals last changes) : last.nanos ≤ c.time.nanos := by
  induction changes generalizing last with
  | nil => cases h
  | cons d rest ih =>
    have first : last.nanos ≤ (last.max d.time).nanos := Nat.le_max_left ..
    rcases List.mem_cons.mp h with rfl | later
    · exact first
    · exact first.trans (ih later)

theorem lastTime_le (last : Duration) (changes : List Change) (t : Duration) :
    (lastTime last changes).nanos ≤ t.nanos ↔
      (∃ c ∈ arrivals last changes, c.running ≠ some true ∧ c.time.nanos ≤ t.nanos) ∨
        last.nanos ≤ t.nanos ∧ ∀ c ∈ arrivals last changes, c.time.nanos ≤ t.nanos := by
  induction changes generalizing last with
  | nil => simp [lastTime, arrivals]
  | cons d rest ih =>
    have first : last.nanos ≤ (last.max d.time).nanos := Nat.le_max_left ..
    simp only [lastTime, arrivals, List.exists_mem_cons_iff, List.forall_mem_cons]
    split
    · rename_i runs
      simp only [runs, ne_eq, not_true_eq_false, false_and, false_or]
      rw [ih]
      exact or_congr_right ⟨fun h => ⟨first.trans h.1, h⟩, fun h => h.2⟩
    · rename_i ends
      refine ⟨fun h => .inl (.inl ⟨ends, h⟩), ?_⟩
      rintro ((⟨_, h⟩ | ⟨c, hc, _, h⟩) | ⟨_, h, _⟩)
      · exact h
      · exact (le_of_mem_arrivals hc).trans h
      · exact h

/-- A governor is stopped at the first moment at which its phase has ended. -/
theorem stopTime_le (running : Bool) (changes : List Change) (t : Duration) :
    (stopTime running changes).nanos ≤ t.nanos ↔ EndedBy running changes t := by
  have start : Duration.zero.nanos ≤ t.nanos := Nat.zero_le _
  rw [stopTime, EndedBy]
  split
  · rename_i runs
    rw [lastTime_le]
    simp [runs, start]
  · rename_i rests
    simp [rests, start]

end Ends

/-- How a governor ticks whose phase ends at `stop`. -/
structure Paced {α : Type} [Quantity α] (start : Nat → Bool) (g : Governor α) (stop : Duration) :
    Prop where
  /-- It ticks at once, and at each multiple of the tick before the end. -/
  times : ∀ i, ((g.run start stop)[i]?).map (·.time) =
    if i = 0 ∨ i * g.tick.nanos < stop.nanos then some ⟨i * g.tick.nanos⟩ else none
  tokens : (g.run start stop).map (·.tokens) =
    (g.schedule.allot g.tick g.carry ((g.run start stop).map (·.time))).1
  served : ServedAll start g.burst g.tried (g.run start stop)
  started : started (g.run start stop) =
    (List.range' g.tried ((g.run start stop).map (·.calls)).sum).countP start
  /-- Which attempts find a session makes no difference to the times and the sessions due. -/
  alike : ∀ start', (g.run start' stop).map (fun t => (t.time, t.tokens)) =
    (g.run start stop).map fun t => (t.time, t.tokens)

section Pace
variable {α : Type} [Quantity α] {g : Governor α}

theorem run_times (whole : 1000000 ∣ g.tick.nanos) (pos : 0 < g.tick.nanos) (start : Nat → Bool)
    (stop : Duration) (i : Nat) :
    ((g.run start stop)[i]?).map (·.time) =
      if i = 0 ∨ i * g.tick.nanos < stop.nanos then some ⟨i * g.tick.nanos⟩ else none := by
  simpa [Duration.zero, run] using ticksFrom_time start stop whole pos (Nat.dvd_zero _) rfl i

theorem run_times_eq (whole : 1000000 ∣ g.tick.nanos) (pos : 0 < g.tick.nanos)
    (start start' : Nat → Bool) (stop : Duration) :
    (g.run start' stop).map (·.time) = (g.run start stop).map (·.time) := by
  refine List.ext_getElem? fun i => ?_
  rw [List.getElem?_map, List.getElem?_map, run_times whole pos, run_times whole pos]

/-- A governor ticks in time until its phase ends, and gives at each tick what its schedule has for it
then, up to the burst, until a session is not found. Nothing is saved up from the ticks before. -/
theorem governor_banks_nothing {m : Nat} (pos : 0 < m) (whole : g.tick = .ofMillis m)
    (start : Nat → Bool) (running : Bool) (changes : List Change) :
    (∀ t : Duration, (stopTime running changes).nanos ≤ t.nanos ↔ EndedBy running changes t) ∧
      Paced start g (stopTime running changes) := by
  have millis : 1000000 ∣ g.tick.nanos := by
    rw [whole, Duration.ofMillis]
    exact Nat.dvd_mul_left ..
  have long : 0 < g.tick.nanos := by
    rw [whole]
    exact Nat.mul_pos pos (by decide)
  have tokens : ∀ start' stop, (g.run start' stop).map (·.tokens) =
      (g.schedule.allot g.tick g.carry ((g.run start' stop).map (·.time))).1 := fun start' stop =>
    ticksFrom_tokens start' stop g .zero .zero
  have served := ticksFrom_served start (stopTime running changes) g .zero .zero
  refine ⟨stopTime_le running changes, {
    times := run_times millis long start _
    tokens := tokens start _
    served := served
    started := served.started
    alike := fun start' => ?_ }⟩
  have times := run_times_eq millis long start start' (stopTime running changes)
  have pairs : ∀ ts : List Tick, ts.map (fun t => (t.time, t.tokens)) =
      (ts.map (·.time)).zip (ts.map (·.tokens)) := fun _ => List.zip_map'.symm
  rw [pairs, pairs, tokens, tokens, times]

/-- Fifty sessions per second and at most four at one tick, every third attempt in vain, until the
phase ends after a quarter of a second. -/
def thwarted : Governor ℚ := ⟨.constant 50, .ofMillis 100, 4, 0, 0⟩

theorem thwarted_banks_nothing :
    let start : Nat → Bool := fun k => k % 3 != 2
    let changes := [⟨.ofMillis 120, some true⟩, ⟨.ofMillis 250, some false⟩]
    thwarted.run start (stopTime true changes) =
        [⟨.zero, 5, 3, 2⟩, ⟨.ofMillis 100, 5, 3, 2⟩, ⟨.ofMillis 200, 5, 3, 2⟩] ∧
      (∀ t : Duration, (stopTime true changes).nanos ≤ t.nanos ↔ EndedBy true changes t) ∧
      Paced start thwarted (stopTime true changes) := by
  intro start changes
  refine ⟨?_, governor_banks_nothing (by decide) rfl start true changes⟩
  decide +kernel

end Pace

end Governor
end LoadGen
