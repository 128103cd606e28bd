import LoadGen.Watchdog

namespace LoadGen.Watchdog

/-- The sleep lasted longer than a period, by more than the threshold. -/
def Overran (w : Watchdog) (lap : Lap) : Prop :=
  w.period.nanos + w.threshold.nanos < lap.sleep.nanos

instance (w : Watchdog) (lap : Lap) : Decidable (w.Overran lap) :=
  inferInstanceAs (Decidable (_ < _))

/-- The time from the wake-up before to this one, if that was reported or not. -/
def delay (reported : Bool) (lap : Lap) : Duration :=
  ⟨(if reported then lap.reporting.nanos else 0) + lap.sleep.nanos⟩

def isReported (w : Watchdog) (reported : Bool) (laps : List Lap) (k : Nat) : Bool :=
  ((w.reports reported laps)[k]?).any Option.isSome

/-- Whether the wake-up before a wake-up is reported. -/
def isReportedBefore (w : Watchdog) (reported : Bool) (laps : List Lap) : Nat → Bool
  | 0 => reported
  | k + 1 => w.isReported reported laps k

variable {w : Watchdog} {reported : Bool} {laps : List Lap} {lap : Lap} {k : Nat}

theorem judge_isSome (w : Watchdog) (delay : Duration) :
    (w.judge delay).isSome ↔ w.threshold.nanos < delay.nanos := by
  unfold judge
  split <;> simp [*]

theorem le_delay (reported : Bool) (lap : Lap) : lap.sleep.nanos ≤ (delay reported lap).nanos :=
  Nat.le_add_left ..

theorem getElem?_reports (w : Watchdog) (reported : Bool) (laps : List Lap) (k : Nat) :
    (w.reports reported laps)[k]? =
      laps[k]?.map fun lap => w.judge (delay (w.isReportedBefore reported laps k) lap) := by
  induction laps generalizing reported k with
  | nil => rfl
  | cons lap laps ih =>
    cases k with
    | zero => rfl
    | succ k =>
      have before : w.isReportedBefore reported (lap :: laps) (k + 1) =
          w.isReportedBefore (w.judge (delay reported lap)).isSome laps k := by
        cases k <;> rfl
      rw [before]
      exact ih _ k

theorem isReported_iff (h : laps[k]? = some lap) : w.isReported reported laps k = true ↔
    w.threshold.nanos < (delay (w.isReportedBefore reported laps k) lap).nanos := by
  rw [isReported, getElem?_reports, h]
  exact w.judge_isSome _

/-- What a watchdog makes of one of its wake-ups. -/
structure Judged (w : Watchdog) (laps : List Lap) (k : Nat) (lap : Lap) : Prop where
  /-- The report gives the time since the wake-up before, with the time of its report. -/
  report : (w.reports false laps)[k]? = some
    (if w.threshold.nanos < (delay (w.isReportedBefore false laps k) lap).nanos then
      some (.schedulingAnomaly (delay (w.isReportedBefore false laps k) lap) w.threshold) else none)
  /-- No overrun is missed. -/
  overran : w.Overran lap → w.isReported false laps k = true
  /-- A sleep of just a period is reported if period and last report together exceed the threshold. -/
  onTime : lap.sleep = w.period → (w.isReported false laps k = true ↔ w.threshold.nanos <
    (if w.isReportedBefore false laps k then lap.reporting.nanos else 0) + w.period.nanos)
  /-- With a threshold below the period every wake-up is reported. -/
  all : w.threshold.nanos < w.period.nanos → w.period.nanos ≤ lap.sleep.nanos →
    w.isReported false laps k = true
  /-- Overruns and nothing else are reported where what is no overrun stays within the threshold. -/
  overranOnly : (w.isReported false laps k = true ↔ w.Overran lap) ↔
    (delay (w.isReportedBefore false laps k) lap).nanos ≤ w.threshold.nanos ∨ w.Overran lap

/-- A watchdog reports a wake-up if the time since the wake-up before exceeds the threshold. Every sleep
is reported that overran the period by more than that, but not only those. -/
theorem delays_reported (w : Watchdog) (h : laps[k]? = some lap) : Judged w laps k lap := by
  have reported : w.isReported false laps k = true ↔
      w.threshold.nanos < (delay (w.isReportedBefore false laps k) lap).nanos := isReported_iff h
  have asleep := le_delay (w.isReportedBefore false laps k) lap
  have overran : w.Overran lap → w.isReported false laps k = true := by
    intro late
    rw [Overran] at late
    exact reported.mpr (by omega)
  refine ⟨?report, overran, fun onTime => ?onTime, fun low long => ?all, ?overranOnly⟩
  case report =>
    rw [getElem?_reports, h]
    rfl
  case onTime => rw [reported, delay, onTime]
  case all => exact reported.mpr (by omega)
  case overranOnly =>
    constructor
    · intro same
      by_cases late : w.Overran lap
      · exact .inr late
      · exact .inl (Nat.not_lt.mp fun long => late (same.mp (reported.mpr long)))
    · rintro (short | late)
      · exact ⟨fun loud => absurd (reported.mp loud) (Nat.not_lt.mpr short), overran⟩
      · exact ⟨fun _ => late, fun _ => overran late⟩

/-- A watchdog with the usual period and threshold, and two of its laps: a stall, then a sleep that is on
time after a long report. -/
def usual : Watchdog := ⟨.ofMillis 50, .ofMillis 100⟩

def stalled : List Lap := [⟨.zero, .ofMillis 160⟩, ⟨.ofMillis 80, .ofMillis 50⟩]

/-- The stall is reported, and is an overrun. -/
theorem stall_judged : Judged usual stalled 0 ⟨.zero, .ofMillis 160⟩ ∧
    usual.Overran ⟨.zero, .ofMillis 160⟩ ∧ usual.isReported false stalled 0 = true :=
  ⟨delays_reported usual rfl, by decide, by decide⟩

/-- The sleep after it is reported too, for the time of the report. So is a sleep that is on time where
the threshold is below the period. -/
theorem on_time_reported :
    (usual.reports false stalled)[1]? =
        some (some (.schedulingAnomaly (.ofMillis 130) (.ofMillis 100))) ∧
      ¬ usual.Overran ⟨.ofMillis 80, .ofMillis 50⟩ ∧
      (⟨.ofMillis 200, .ofMillis 150⟩ : Watchdog).reports false [⟨.zero, .ofMillis 200⟩] =
        [some (.schedulingAnomaly (.ofMillis 200) (.ofMillis 150))] ∧
      ¬ (⟨.ofMillis 200, .ofMillis 150⟩ : Watchdog).Overran ⟨.zero, .ofMillis 200⟩ := by
  refine ⟨rfl, ?_, rfl, ?_⟩ <;> decide

end LoadGen.Watchdog
