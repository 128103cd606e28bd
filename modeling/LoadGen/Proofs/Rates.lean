import LoadGen.Proofs.Ticking

namespace LoadGen

namespace Schedule

section Ticks
variable {α : Type} [Quantity α]

theorem allot_take (s : Schedule α) (tick : Duration) (carry : α) (ts : List Duration) (n : Nat) :
    (s.allot tick carry ts).1.take n = (s.allot tick carry (ts.take n)).1 := by
  induction n generalizing carry ts with
  | zero => rfl
  | succ n ih =>
    cases ts with
    | nil => rfl
    | cons t ts =>
      simp only [allot, List.take_succ_cons]
      rw [ih]

theorem length_allot (s : Schedule α) (tick : Duration) (carry : α) (ts : List Duration) :
    (s.allot tick carry ts).1.length = ts.length := by
  induction ts generalizing carry with
  | nil => rfl
  | cons t ts ih => exact congrArg (· + 1) (ih _)

end Ticks

variable {rate carry : ℚ} {tick : Duration} {ts : List Duration}

theorem due_constant (rate : ℚ) (tick t : Duration) :
    (constant rate).due tick t = rate * tick.inSeconds := if_pos rfl

theorem carry_lt_one (s : Schedule ℚ) (tick : Duration) (high : carry < 1) (ts : List Duration) :
    (s.allot tick carry ts).2 < 1 := by
  induction ts generalizing carry with
  | nil => exact high
  | cons t ts ih => exact ih (Int.fract_lt_one (s.rateAt t * seconds tick + carry))

/-- The sessions due for a tick are few enough for it, whatever was carried over. -/
theorem within_constant (below : rate * tick.inSeconds < maxTokens) (high : carry < 1)
    (t : Duration) : ⌊(constant rate).due tick t + carry⌋ ≤ maxTokens := by
  refine Int.floor_le_iff.mpr ?_
  rw [due_constant]
  push_cast
  linarith

/-- Each tick gives the sessions that are due for it, to which a fraction is added. -/
theorem mem_allot_constant (nonneg : 0 ≤ rate) (below : rate * tick.inSeconds < maxTokens)
    (low : 0 ≤ carry) (high : carry < 1) {given : Nat}
    (h : given ∈ ((constant rate).allot tick carry ts).1) :
    ∃ part : ℚ, 0 ≤ part ∧ part < 1 ∧ given = ⌊rate * tick.inSeconds + part⌋.toNat := by
  induction ts generalizing carry with
  | nil => cases h
  | cons t ts ih =>
    have due := due_nonneg (s := constant rate) nonneg nonneg tick t
    have first := tokensAt_eq (add_nonneg due low) (within_constant below high t)
    rw [allot, first] at h
    rcases List.mem_cons.mp h with rfl | later
    · exact ⟨carry, low, high, by rw [due_constant]⟩
    · exact ih (Int.fract_nonneg _) (Int.fract_lt_one _) later

theorem sum_constant (nonneg : 0 ≤ rate) (below : rate * tick.inSeconds < maxTokens)
    (ts : List Duration) : (((constant rate).allot tick 0 ts).1.sum : ℤ) =
      ⌊ts.length * (rate * tick.inSeconds)⌋ := by
  have given : (((constant rate).allot tick 0 ts).1.sum : ℤ) =
      ⌊0 + (ts.map ((constant rate).due tick)).sum⌋ :=
    (allot_sum nonneg nonneg le_rfl zero_lt_one fun k _ =>
      within_constant below (carry_lt_one _ tick zero_lt_one _) _).1
  have due : (constant rate).due tick = fun _ => rate * tick.inSeconds :=
    funext (due_constant rate tick)
  rw [given, due, List.map_const', List.sum_replicate, zero_add, nsmul_eq_mul]

/-- Where no tick serves more sessions than its burst allows, the ticks serve as many as if no tick had
more due than that. What is cut off from one tick is not made up for by another. -/
theorem sum_capped (nonneg : 0 ≤ rate) (below : rate * tick.inSeconds < maxTokens) (burst : Nat)
    (ts : List Duration) : ((((constant rate).allot tick 0 ts).1.map (min · burst)).sum : ℤ) =
      ⌊ts.length * min (rate * tick.inSeconds) burst⌋ := by
  rcases le_total (rate * tick.inSeconds) burst with few | many
  · have uncut : ((constant rate).allot tick 0 ts).1.map (min · burst) =
        ((constant rate).allot tick 0 ts).1 := by
      refine (List.map_congr_left fun given hm => ?_).trans (List.map_id' _)
      obtain ⟨part, -, part_lt, rfl⟩ := mem_allot_constant nonneg below le_rfl zero_lt_one hm
      have most : ⌊rate * tick.inSeconds + part⌋ ≤ (burst : ℤ) := by
        refine Int.floor_le_iff.mpr ?_
        push_cast
        linarith
      exact Nat.min_eq_left (Int.toNat_le.mpr most)
    rw [uncut, min_eq_left few, sum_constant nonneg below]
  · have cut : ((constant rate).allot tick 0 ts).1.map (min · burst) =
        List.replicate ts.length burst := by
      rw [← length_allot (constant rate) tick 0 ts, ← List.map_const']
      refine List.map_congr_left fun given hm => ?_
      obtain ⟨part, part_nonneg, -, rfl⟩ := mem_allot_constant nonneg below le_rfl zero_lt_one hm
      have least : (burst : ℤ) ≤ ⌊rate * tick.inSeconds + part⌋ := by
        refine Int.le_floor.mpr ?_
        push_cast
        linarith
      exact Nat.min_eq_right (by omega)
    rw [cut, min_eq_right many, List.sum_replicate, nsmul_eq_mul, Nat.cast_id]
    exact_mod_cast (Int.floor_natCast (R := ℚ) (ts.length * burst)).symm

end Schedule

namespace Governor

section Starts
variable {α : Type} [Quantity α]

/-- If every start succeeds, a tick starts the sessions that it has, up to the burst. -/
theorem Served.always {burst k : Nat} {t : Tick} (h : Served (fun _ => true) burst k t) :
    t.successes = min t.tokens burst := by
  have all : t.calls = min t.tokens burst := by
    refine Nat.le_antisymm h.most (Nat.not_lt.mp fun fewer => ?_)
    cases (h.refused fewer).2
  rw [h.successes, List.countP_true, List.length_range', all]

theorem ServedAll.always {burst k : Nat} {ts : List Tick}
    (h : ServedAll (fun _ => true) burst k ts) :
    ts.map (·.successes) = (ts.map (·.tokens)).map (min · burst) := by
  induction ts generalizing k with
  | nil => rfl
  | cons t ts ih => rw [List.map_cons, List.map_cons, List.map_cons, h.1.always, ih h.2]

theorem started_eq_sum (ts : List Tick) : started ts = (ts.map (·.successes)).sum := rfl

theorem started_take (g : Governor α) (stop : Duration) (n : Nat) :
    started ((g.run (fun _ => true) stop).take n) = (((g.schedule.allot g.tick g.carry
      (((g.run (fun _ => true) stop).take n).map (·.time))).1).map (min · g.burst)).sum := by
  have served := (ticksFrom_served (fun _ => true) stop g .zero .zero).always
  have tokens := ticksFrom_tokens (fun _ => true) stop g .zero .zero
  rw [started_eq_sum, List.map_take, run, served, tokens, ← List.map_take, Schedule.allot_take,
    List.map_take]

theorem firing_mono {due later : Duration} (h : due.nanos ≤ later.nanos) :
    (firing due).nanos ≤ (firing later).nanos := by
  simp only [firing, Duration.ofMillis, Duration.millisUp]
  omega

/-- The tick number `n`, counted from zero, is made if its timer fires before the end. -/
theorem lt_length_ticksFrom (start : Nat → Bool) {stop now due : Duration} {g : Governor α}
    (pos : 0 < g.tick.nanos) {n : Nat}
    (early : (firing ⟨due.nanos + n * g.tick.nanos⟩).nanos < stop.nanos) :
    n < (ticksFrom start stop g now due).length := by
  induction n generalizing g now due with
  | zero =>
    rw [ticksFrom]
    split <;> exact Nat.zero_lt_succ _
  | succ n ih =>
    have next : due.nanos + (n + 1) * g.tick.nanos = (g.dueAfter due).nanos + n * g.tick.nanos := by
      rw [nanos_dueAfter, Nat.succ_mul]
      omega
    rw [next] at early
    have first : (firing (g.dueAfter due)).nanos ≤ (firing ⟨(g.dueAfter due).nanos +
        n * g.tick.nanos⟩).nanos := firing_mono (Nat.le_add_right ..)
    rw [ticksFrom, if_pos ⟨Nat.lt_add_of_pos_right pos, first.trans_lt early⟩]
    exact Nat.succ_lt_succ (ih (g := (g.step start now).2) pos early)

end Starts

section Constant
variable {rate : ℚ} {tick : Duration}

/-- A governor at a constant rate, before its first tick. -/
def steady {α : Type} [Quantity α] (rate : α) (tick : Duration) (burst : Nat) : Governor α :=
  { schedule := .constant rate, tick := tick, burst := burst, carry := Quantity.ofNat 0 }

/-- The ticks of a governor at a constant rate that finds a session whenever it needs one. -/
def steadyTicks {α : Type} [Quantity α] (rate : α) (tick : Duration) (burst : Nat)
    (stop : Duration) : List Tick := (steady rate tick burst).run (fun _ => true) stop

/-- What a governor does at a constant rate, if every start succeeds. -/
structure Steady (rate : ℚ) (tick : Duration) (burst : Nat) : Prop where
  /-- Every tick is made whose timer fires before the end. -/
  made : ∀ stop n, (firing ⟨n * tick.nanos⟩).nanos < stop.nanos →
    n < (steadyTicks rate tick burst stop).length
  /-- After some ticks it has started all the whole sessions among those due, of which no tick has more
  than the burst. -/
  started : ∀ stop n, n ≤ (steadyTicks rate tick burst stop).length →
    (started ((steadyTicks rate tick burst stop).take n) : ℤ) =
      ⌊n * min (rate * tick.inSeconds) burst⌋
  /-- At a higher rate it has started no fewer. -/
  higher : ∀ rate' : ℚ, rate ≤ rate' → rate' * tick.inSeconds < Schedule.maxTokens → ∀ stop n,
    n ≤ (steadyTicks rate tick burst stop).length → n ≤ (steadyTicks rate' tick burst stop).length →
      Governor.started ((steadyTicks rate tick burst stop).take n) ≤
        Governor.started ((steadyTicks rate' tick burst stop).take n)

theorem started_steadyTicks (nonneg : 0 ≤ rate)
    (below : rate * tick.inSeconds < Schedule.maxTokens) (burst : Nat) {stop : Duration} {n : Nat}
    (made : n ≤ (steadyTicks rate tick burst stop).length) :
    (started ((steadyTicks rate tick burst stop).take n) : ℤ) =
      ⌊n * min (rate * tick.inSeconds) burst⌋ := by
  have times : (((steadyTicks rate tick burst stop).take n).map (·.time)).length = n := by
    rw [List.length_map, List.length_take, Nat.min_eq_left made]
  have capped := Schedule.sum_capped nonneg below burst
    (((steadyTicks rate tick burst stop).take n).map (·.time))
  rw [times] at capped
  rw [← capped, steadyTicks, started_take]
  simp only [steady, Quantity.ofNat, Nat.cast_zero]

end Constant

section Unbounded

def nan : Float := 0.0 / 0.0

def unbounded : Float := 1.0 / 0.0

theorem nan_mul (x : Float) : nan * x = nan := rfl

theorem nan_add (x : Float) : nan + x = nan := rfl

theorem unbounded_sub_self : unbounded - unbounded = nan := rfl

/-- On the way from a rate without bound to itself the rate is no number. -/
theorem rateAt_unbounded (t : Duration) : (Schedule.constant unbounded).rateAt t = nan := by
  change unbounded + (unbounded - unbounded) * (Schedule.constant unbounded).progress t = nan
  rw [unbounded_sub_self, nan_mul]
  rfl

/-- A tick gives nothing at a rate without bound, and what it carries over is no number. -/
theorem tokensAt_unbounded (tick t : Duration) (carry : Float) :
    (Schedule.constant unbounded).tokensAt tick t carry = (0, nan) := by
  rw [Schedule.tokensAt, rateAt_unbounded, nan_mul, nan_add]
  rfl

theorem allot_unbounded (tick : Duration) (carry : Float) (ts : List Duration) :
    ((Schedule.constant unbounded).allot tick carry ts).1 = List.replicate ts.length 0 := by
  induction ts generalizing carry with
  | nil => rfl
  | cons t ts ih => rw [Schedule.allot, tokensAt_unbounded, ih, List.length_cons, List.replicate_succ]

theorem started_unbounded (tick : Duration) (burst : Nat) (stop : Duration) (n : Nat) :
    started ((steadyTicks unbounded tick burst stop).take n) = 0 := by
  rw [steadyTicks, started_take, steady, allot_unbounded, List.map_replicate, List.sum_replicate]
  simp

end Unbounded

/-- After any number of ticks at a constant rate a governor has started all the whole sessions among
those due, of which no tick has more than the burst, if every start succeeds. At a rate without bound it
has started none. -/
theorem constant_rate_starts {rate : ℚ} {tick : Duration} (nonneg : 0 ≤ rate)
    (pos : 0 < tick.nanos) (below : rate * tick.inSeconds < Schedule.maxTokens) (burst : Nat) :
    Steady rate tick burst ∧
      ∀ stop n, started ((steadyTicks unbounded tick burst stop).take n) = 0 := by
  refine ⟨⟨fun stop n early => ?_, fun stop n => started_steadyTicks nonneg below burst,
    fun rate' more below' stop n made made' => ?_⟩, started_unbounded tick burst⟩
  · refine lt_length_ticksFrom (g := steady rate tick burst) _ pos ?_
    rwa [Duration.zero, Nat.zero_add]
  · have due : (n : ℚ) * min (rate * tick.inSeconds) burst ≤
        n * min (rate' * tick.inSeconds) burst :=
      mul_le_mul_of_nonneg_left
        (min_le_min_right _ (mul_le_mul_of_nonneg_right more (Schedule.inSeconds_nonneg tick)))
        (Nat.cast_nonneg n)
    have fewer := Int.floor_mono due
    rw [← started_steadyTicks nonneg below burst made,
      ← started_steadyTicks (nonneg.trans more) below' burst made'] at fewer
    exact_mod_cast fewer

/-- Ticks with five sessions and a half due, and a burst of five. -/
theorem hurried_starts : Steady 55 (.ofMillis 100) 5 ∧
    (steadyTicks (55 : ℚ) (.ofMillis 100) 5 (.ofMillis 950)).map (·.tokens) =
      [5, 6, 5, 6, 5, 6, 5, 6, 5, 6] ∧
    started ((steadyTicks (55 : ℚ) (.ofMillis 100) 5 (.ofMillis 950)).take 10) = 50 :=
  ⟨(constant_rate_starts (by decide +kernel) (by decide) (by decide +kernel) 5).1,
    by decide +kernel, by decide +kernel⟩

/-- Ten ticks at a rate without bound start nothing, and ten at thirty sessions per second start all
that their burst allows. -/
theorem unbounded_starts_none :
    (steadyTicks unbounded (.ofMillis 100) 3 (.ofMillis 950)).length = 10 ∧
      started ((steadyTicks unbounded (.ofMillis 100) 3 (.ofMillis 950)).take 10) = 0 ∧
      (steadyTicks (30.0 : Float) (.ofMillis 100) 3 (.ofMillis 950)).length = 10 ∧
      started ((steadyTicks (30.0 : Float) (.ofMillis 100) 3 (.ofMillis 950)).take 10) = 30 := by
  refine ⟨?_, started_unbounded .., ?_, ?_⟩ <;> decide +kernel

end Governor

end LoadGen
