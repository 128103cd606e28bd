import LoadGen.Pacing.Schedule
import Mathlib.Algebra.Order.Floor.Ring
import Mathlib.Data.Rat.Floor
import Mathlib.Tactic.Linarith

namespace LoadGen

/-- Exact arithmetic. -/
instance : Quantity ℚ where
  ofNat n := n
  floor x := ⌊x⌋
  below x y := x < y
  atMost x y := x ≤ y
  count x := ⌊x⌋.toNat

def Duration.inSeconds (d : Duration) : ℚ := d.nanos / 1000000000

namespace Schedule

section Allot
variable {α : Type} [Quantity α]

/-- The sessions that are given for ticks at these times, one after the other, and what is carried over
from the last of them. -/
def allot (s : Schedule α) (tick : Duration) : α → List Duration → List Nat × α
  | carry, [] => ([], carry)
  | carry, t :: ts =>
    let given := s.tokensAt tick t carry
    let later := allot s tick given.2 ts
    (given.1 :: later.1, later.2)

end Allot

variable {s : Schedule ℚ} {tick t : Duration} {carry x : ℚ} {ts : List Duration}

/-- The sessions due for a tick at a time, with fractions. -/
def due (s : Schedule ℚ) (tick t : Duration) : ℚ :=
  if s.ramp.nanos = 0 then s.target * tick.inSeconds
  else (s.initial + (s.target - s.initial) * min (t.inSeconds / s.ramp.inSeconds) 1) * tick.inSeconds

theorem seconds_eq (d : Duration) : (seconds d : ℚ) = d.inSeconds := by
  have whole : (d.nanos : ℚ) = 1000000000 * d.wholeSeconds + d.subsecond := by
    exact_mod_cast (Nat.div_add_mod d.nanos 1000000000).symm
  simp only [seconds, Quantity.ofNat, Duration.inSeconds, whole]
  push_cast
  ring

theorem inSeconds_nonneg (d : Duration) : 0 ≤ d.inSeconds := by
  rw [Duration.inSeconds]
  positivity

theorem part_mem (t ramp : Duration) : 0 ≤ min (t.inSeconds / ramp.inSeconds) 1 ∧
    min (t.inSeconds / ramp.inSeconds) 1 ≤ 1 :=
  ⟨le_min (div_nonneg (inSeconds_nonneg t) (inSeconds_nonneg ramp)) zero_le_one, min_le_right ..⟩

theorem progress_eq (s : Schedule ℚ) (t : Duration) :
    s.progress t = if s.ramp.nanos = 0 then 1 else min (t.inSeconds / s.ramp.inSeconds) 1 := by
  simp only [progress, Duration.isZero, beq_iff_eq, seconds_eq]
  split
  · rfl
  · simp only [Quantity.below, Quantity.ofNat, Nat.cast_one, decide_eq_true_eq]
    rw [min_def]
    split <;> split <;> linarith

theorem rateAt_mul_seconds (s : Schedule ℚ) (tick t : Duration) :
    s.rateAt t * seconds tick = s.due tick t := by
  rw [rateAt, progress_eq, seconds_eq, due]
  split
  · ring
  · rfl

theorem between_of_part {a b part : ℚ} (low : 0 ≤ part) (high : part ≤ 1) :
    min a b ≤ a + (b - a) * part ∧ a + (b - a) * part ≤ max a b := by
  rcases le_total a b with up | down
  · have moved : 0 ≤ (b - a) * part := mul_nonneg (sub_nonneg.mpr up) low
    have short : (b - a) * part ≤ b - a := mul_le_of_le_one_right (sub_nonneg.mpr up) high
    rw [min_eq_left up, max_eq_right up]
    constructor <;> linarith
  · have moved : 0 ≤ (a - b) * part := mul_nonneg (sub_nonneg.mpr down) low
    have short : (a - b) * part ≤ a - b := mul_le_of_le_one_right (sub_nonneg.mpr down) high
    rw [min_eq_right down, max_eq_left down]
    constructor <;> linarith

theorem due_between (s : Schedule ℚ) (tick t : Duration) :
    min s.initial s.target * tick.inSeconds ≤ s.due tick t ∧
      s.due tick t ≤ max s.initial s.target * tick.inSeconds := by
  have long := inSeconds_nonneg tick
  rw [due]
  split
  · exact ⟨mul_le_mul_of_nonneg_right (min_le_right ..) long,
      mul_le_mul_of_nonneg_right (le_max_right ..) long⟩
  · obtain ⟨low, high⟩ := part_mem t s.ramp
    obtain ⟨least, greatest⟩ := between_of_part low high (a := s.initial) (b := s.target)
    exact ⟨mul_le_mul_of_nonneg_right least long, mul_le_mul_of_nonneg_right greatest long⟩

theorem due_nonneg (initial : 0 ≤ s.initial) (target : 0 ≤ s.target) (tick t : Duration) :
    0 ≤ s.due tick t :=
  (mul_nonneg (le_min initial target) (inSeconds_nonneg tick)).trans (due_between s tick t).1

theorem tokens_eq {n : ℤ} (low : 0 ≤ n) (high : n ≤ maxTokens) : tokens (n : ℚ) = n.toNat := by
  simp only [tokens, Quantity.atMost, Quantity.below, Quantity.count, Quantity.ofNat,
    decide_eq_true_eq, Int.floor_intCast]
  have bound : ((maxTokens : ℕ) : ℚ) ≤ n ↔ (maxTokens : ℤ) ≤ n := by exact_mod_cast Iff.rfl
  have sign : (n : ℚ) < ((0 : ℕ) : ℚ) ↔ n < 0 := by exact_mod_cast Iff.rfl
  simp only [bound, sign]
  split
  · omega
  · rw [if_neg (by omega)]

/-- A tick gives all the whole sessions that are due, unless they are too many for one tick, and
carries the rest over. -/
theorem tokensAt_eq (nonneg : 0 ≤ s.due tick t + carry)
    (within : ⌊s.due tick t + carry⌋ ≤ maxTokens) :
    s.tokensAt tick t carry =
      (⌊s.due tick t + carry⌋.toNat, Int.fract (s.due tick t + carry)) := by
  rw [tokensAt, rateAt_mul_seconds, Int.fract]
  exact congrArg (·, _) (tokens_eq (Int.floor_nonneg.mpr nonneg) within)

/-- Ticks give all the whole sessions among those due at them, and leave what is no whole one. -/
theorem allot_sum (initial : 0 ≤ s.initial) (target : 0 ≤ s.target) (low : 0 ≤ carry)
    (high : carry < 1)
    (within : ∀ k, (h : k < ts.length) →
      ⌊s.due tick ts[k] + (s.allot tick carry (ts.take k)).2⌋ ≤ maxTokens) :
    ((s.allot tick carry ts).1.sum : ℤ) = ⌊carry + (ts.map (s.due tick)).sum⌋ ∧
      (s.allot tick carry ts).2 = Int.fract (carry + (ts.map (s.due tick)).sum) := by
  induction ts generalizing carry with
  | nil =>
    have none : ⌊carry⌋ = 0 := Int.floor_eq_zero_iff.mpr ⟨low, high⟩
    have all : Int.fract carry = carry := Int.fract_eq_self.mpr ⟨low, high⟩
    exact ⟨by simp [allot, none], by simp [allot, all]⟩
  | cons t ts ih =>
    have nonneg : 0 ≤ s.due tick t + carry := add_nonneg (due_nonneg initial target tick t) low
    have first := tokensAt_eq nonneg (within 0 (Nat.zero_lt_succ _))
    obtain ⟨given, kept⟩ := ih (Int.fract_nonneg (s.due tick t + carry)) (Int.fract_lt_one _)
      fun k h => by
        have := within (k + 1) (Nat.succ_lt_succ h)
        rwa [List.take_succ_cons, allot, first] at this
    -- What is due in all is the whole of the first tick and what the later ticks start from.
    have parted : carry + ((t :: ts).map (s.due tick)).sum =
        ⌊s.due tick t + carry⌋ + (Int.fract (s.due tick t + carry) + (ts.map (s.due tick)).sum) := by
      rw [List.map_cons, List.sum_cons, ← add_assoc (⌊_⌋ : ℚ), Int.floor_add_fract]
      ring
    have step : s.allot tick carry (t :: ts) =
        (⌊s.due tick t + carry⌋.toNat :: (s.allot tick (Int.fract (s.due tick t + carry)) ts).1,
          (s.allot tick (Int.fract (s.due tick t + carry)) ts).2) := by rw [allot, first]
    constructor
    · have whole : 0 ≤ ⌊s.due tick t + carry⌋ := Int.floor_nonneg.mpr nonneg
      rw [parted, Int.floor_intCast_add, ← given, step, List.sum_cons, Nat.cast_add,
        Int.toNat_of_nonneg whole]
    · rw [parted, Int.fract_intCast_add, step]
      exact kept

/-- What some ticks have given, and what they have left. -/
structure Averaged (s : Schedule ℚ) (tick : Duration) (carry : ℚ) (ts : List Duration) : Prop where
  given : ((s.allot tick carry ts).1.sum : ℤ) = ⌊carry + (ts.map (s.due tick)).sum⌋
  left : (s.allot tick carry ts).2 =
    carry + (ts.map (s.due tick)).sum - (s.allot tick carry ts).1.sum
  left_nonneg : 0 ≤ (s.allot tick carry ts).2
  left_lt : (s.allot tick carry ts).2 < 1
  between : ∀ t, min s.initial s.target * tick.inSeconds ≤ s.due tick t ∧
    s.due tick t ≤ max s.initial s.target * tick.inSeconds

/-- In the long run a schedule gives as many sessions as are due, at whatever times the ticks are made:
after any number of them less than one session is owed. -/
theorem ticks_average (initial : 0 ≤ s.initial) (target : 0 ≤ s.target) (low : 0 ≤ carry)
    (high : carry < 1)
    (within : ∀ k, (h : k < ts.length) →
      ⌊s.due tick ts[k] + (s.allot tick carry (ts.take k)).2⌋ ≤ maxTokens) :
    Averaged s tick carry ts := by
  obtain ⟨given, kept⟩ := allot_sum initial target low high within
  have counted : (((s.allot tick carry ts).1.sum : ℕ) : ℚ) =
      ⌊carry + (ts.map (s.due tick)).sum⌋ := by rw [← given, Int.cast_natCast]
  exact {
    given := given
    left := by rw [kept, counted, Int.fract]
    left_nonneg := kept ▸ Int.fract_nonneg _
    left_lt := kept ▸ Int.fract_lt_one _
    between := due_between s tick }

/-- Ticks of a tenth of a second on a ramp from 0 to 100 in ten seconds, and one after it. -/
theorem ramp_averages :
    let s : Schedule ℚ := ⟨0, 100, .ofSeconds 10⟩
    let ts := [.zero, .ofSeconds 1, .ofMillis 2500, .ofSeconds 25]
    (s.allot (.ofMillis 100) (1 / 4) ts).1 = [0, 1, 2, 10] ∧
      (s.allot (.ofMillis 100) (1 / 4) ts).2 = 3 / 4 ∧ Averaged s (.ofMillis 100) (1 / 4) ts :=
  ⟨by decide +kernel, by decide +kernel, ticks_average (by decide) (by decide +kernel)
    (by decide +kernel) (by decide +kernel) (by decide +kernel)⟩

end Schedule
end LoadGen
