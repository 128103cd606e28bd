import LoadGen.Measure.Bucket
import Mathlib.Algebra.GroupWithZero.Nat

namespace LoadGen

/-- What a window counts. -/
inductive Figure
  | requests
  | responses
  | timeouts
  | invalid
  | connectionErrors
  /-- The response times in the bin whose smallest value is `low`. -/
  | bin (low : Nat)

/-- How many values a list of bins has under their smallest value. -/
def Histogram.countAt (low : Nat) : List (Nat × Nat) → Nat
  | [] => 0
  | (l, n) :: rest => (if l = low then n else 0) + countAt low rest

def Window.count (w : Window) : Figure → Nat
  | .requests => w.requests
  | .responses => w.responses
  | .timeouts => w.timeouts
  | .invalid => w.invalid
  | .connectionErrors => w.connectionErrors
  | .bin low => Histogram.countAt low w.histogram.bins

def Event.adds : Event → Figure → Nat
  | .request, .requests => 1
  | .timeout, .timeouts => 1
  | .connectionError, .connectionErrors => 1
  | .response .., .responses => 1
  | .response _ _ valid, .invalid => if valid then 0 else 1
  | .response _ time _, .bin low =>
    if binLow (Histogram.kept (Window.word time)) = low then 1 else 0
  | _, _ => 0

theorem Histogram.countAt_addBin (low l n : Nat) (bins : List (Nat × Nat)) :
    countAt low (addBin l n bins) = countAt low bins + if l = low then n else 0 := by
  induction bins with
  | nil => simp [addBin, countAt]
  | cons b rest ih =>
    obtain ⟨m, k⟩ := b
    simp only [addBin]
    split
    · simp only [countAt]
      omega
    · split
      · rename_i he
        subst he
        simp only [countAt]
        split <;> omega
      · simp only [countAt, ih]
        omega

@[simp] theorem Window.count_opened (now : Nat) (f : Figure) : (opened now).count f = 0 := by
  cases f <;> rfl

theorem Window.count_add (w : Window) (e : Event) (f : Figure) :
    (w.add e).count f = w.count f + e.adds f := by
  cases e with
  | response blocked time valid =>
    cases f with
    | bin low => exact Histogram.countAt_addBin ..
    | invalid => cases valid <;> rfl
    | _ => rfl
  | _ => cases f <;> rfl

namespace Bucket

/-- What can be done with a bucket. -/
inductive Use
  | begin (now : Nat)
  | finish (now : Nat)
  /-- An event of a request, known by its number, that started at `stamp`. -/
  | record (request stamp : Nat) (e : Event)
  /-- The open window is closed, and the next one is opened. -/
  | close (now : Nat)

/-- An event as it was recorded. -/
structure Recording where
  request : Nat
  stamp : Nat
  event : Event
  /-- The number of the window that was open, and when that was opened. -/
  window : Nat
  opened : Nat

/-- The request had started before the window was opened. -/
def Recording.isLate (x : Recording) : Bool := x.stamp < x.opened

/-- A bucket, with the windows that it has closed and all that was recorded in it, in order. -/
structure Chronicle where
  bucket : Bucket
  closed : List Bucket := []
  recorded : List Recording := []

def tally (f : Figure) (xs : List Recording) : Nat := (xs.map (·.event.adds f)).sum

namespace Chronicle

def opened (now : Nat) : Chronicle := { bucket := .opened now }

def use (c : Chronicle) : Use → Chronicle
  | .begin now => { c with bucket := c.bucket.begin now }
  | .finish now => { c with bucket := c.bucket.finish now }
  | .record request stamp e => { c with
      bucket := c.bucket.record stamp e
      recorded := c.recorded ++
        [⟨request, stamp, e, c.closed.length, c.bucket.recent.since⟩] }
  | .close now => { c with
      bucket := (c.bucket.takeRecent now).2
      closed := c.closed ++ [(c.bucket.takeRecent now).1] }

def late (c : Chronicle) : List Recording := c.recorded.filter (·.isLate)

/-- What was recorded, and not too late, while the window of that number was open. -/
def timely (c : Chronicle) (window : Nat) : List Recording :=
  c.recorded.filter fun x => x.window = window ∧ x.isLate = false

/-- A figure of the total and of each window is what the events add to it that belong there. -/
structure Accounted (c : Chronicle) (f : Figure) : Prop where
  total : c.bucket.total.count f = tally f c.recorded
  closed : ∀ k b, c.closed[k]? = some b → b.total.count f = tally f (c.timely k)
  recent : c.bucket.recent.count f = tally f (c.timely c.closed.length)
  balance : c.bucket.total.count f =
    (c.closed.map (·.total.count f)).sum + c.bucket.recent.count f + tally f c.late

end Chronicle

@[simp] theorem tally_append (f : Figure) (xs ys : List Recording) :
    tally f (xs ++ ys) = tally f xs + tally f ys := by
  simp [tally]

theorem tally_filter_singleton (f : Figure) (p : Recording → Bool) (x : Recording) :
    tally f ([x].filter p) = if p x then x.event.adds f else 0 := by
  cases h : p x <;> simp [tally, h]

/-- The total counts every event, the open window only those that are not too late for it. -/
theorem count_record (b : Bucket) (stamp : Nat) (e : Event) (f : Figure) :
    (b.record stamp e).total.count f = b.total.count f + e.adds f ∧
      (b.record stamp e).recent.count f =
        b.recent.count f + if stamp < b.recent.since then 0 else e.adds f := by
  refine ⟨Window.count_add .., ?_⟩
  simp only [record]
  split
  · rename_i hs
    rw [Window.count_add, if_neg (by omega)]
  · rename_i hs
    rw [if_pos (by omega), Nat.add_zero]

theorem since_record (b : Bucket) (stamp : Nat) (e : Event) :
    (b.record stamp e).recent.since = b.recent.since := by
  simp only [record]
  split
  · cases e <;> rfl
  · rfl

/-- A bucket has counted some events of a request that started at `stamp`: the total has them all, the
open window has them too unless it was opened later than that. -/
structure Gains (b b' : Bucket) (stamp : Nat) (events : List Event) : Prop where
  total : ∀ f, b'.total.count f = b.total.count f + (events.map (·.adds f)).sum
  recent : ∀ f, b'.recent.count f =
    b.recent.count f + if stamp < b.recent.since then 0 else (events.map (·.adds f)).sum
  since : b'.recent.since = b.recent.since

theorem gains_foldl (b : Bucket) (stamp : Nat) (events : List Event) :
    b.Gains (events.foldl (·.record stamp ·) b) stamp events := by
  induction events generalizing b with
  | nil => exact ⟨fun _ => rfl, fun _ => by simp, rfl⟩
  | cons e rest ih =>
    have first := count_record b stamp e
    have opened := since_record b stamp e
    have later := ih (b.record stamp e)
    refine ⟨fun f => ?_, fun f => ?_, later.since.trans opened⟩
    · rw [List.foldl_cons, later.total, (first f).1, List.map_cons, List.sum_cons, Nat.add_assoc]
    · rw [List.foldl_cons, later.recent, (first f).2, opened, List.map_cons, List.sum_cons]
      split <;> omega

theorem count_begin (b : Bucket) (now : Nat) (f : Figure) :
    (b.begin now).total.count f = b.total.count f ∧
      (b.begin now).recent.count f = b.recent.count f := by
  unfold Bucket.begin
  split
  · exact ⟨by cases f <;> rfl, by cases f <;> rfl⟩
  · exact ⟨rfl, rfl⟩

namespace Chronicle
variable {c : Chronicle}

/-- No event belongs to a window that is not open yet. -/
def Numbered (c : Chronicle) : Prop := ∀ x ∈ c.recorded, x.window ≤ c.closed.length

theorem timely_unopened (h : c.Numbered) {k : Nat} (hk : c.closed.length < k) : c.timely k = [] := by
  refine List.filter_eq_nil_iff.mpr fun x hx => ?_
  have hw := h x hx
  simp only [decide_eq_true_eq, not_and]
  intro he
  omega

theorem numbered_opened (now : Nat) : (opened now).Numbered :=
  fun _ hx => absurd hx List.not_mem_nil

theorem Numbered.use (h : c.Numbered) (u : Use) : (c.use u).Numbered := by
  intro x hx
  cases u with
  | begin now => exact h x hx
  | finish now => exact h x hx
  | record request stamp e =>
    rcases List.mem_append.mp hx with hx | hx
    · exact h x hx
    · rw [List.mem_singleton.mp hx]
      exact Nat.le_refl _
  | close now =>
    have hw := h x hx
    simp only [Chronicle.use, List.length_append, List.length_singleton]
    omega

theorem accounted_opened (now : Nat) (f : Figure) : (opened now).Accounted f where
  total := Window.count_opened now f
  closed := nofun
  recent := Window.count_opened now f
  balance := by
    have none : (opened now).bucket.recent.count f = 0 := Window.count_opened now f
    rw [none]
    exact Window.count_opened now f

namespace Accounted
variable {f : Figure}

theorem record (h : c.Accounted f) (request stamp : Nat) (e : Event) :
    (c.use (.record request stamp e)).Accounted f := by
  let c' := c.use (.record request stamp e)
  obtain ⟨total, recent⟩ : c'.bucket.total.count f = c.bucket.total.count f + e.adds f ∧
      c'.bucket.recent.count f = c.bucket.recent.count f +
        if stamp < c.bucket.recent.since then 0 else e.adds f := count_record c.bucket stamp e f
  have added : ∀ k, tally f (c'.timely k) = tally f (c.timely k) +
      if k = c.closed.length ∧ ¬ stamp < c.bucket.recent.since then e.adds f else 0 := by
    intro k
    simp only [c', timely, Chronicle.use, List.filter_append, tally_append, tally_filter_singleton,
      Recording.isLate, decide_eq_true_eq, decide_eq_false_iff_not]
    congr 2
    simp only [eq_comm]
  have missed : tally f c'.late = tally f c.late +
      if stamp < c.bucket.recent.since then e.adds f else 0 := by
    simp only [c', late, Chronicle.use, List.filter_append, tally_append, tally_filter_singleton,
      Recording.isLate, decide_eq_true_eq]
  have closed : c'.closed = c.closed := rfl
  change c'.Accounted f
  refine ⟨?_, fun k b hk => ?_, ?_, ?_⟩
  · rw [total, h.total]
    simp [c', Chronicle.use, tally]
  · have lt : k < c.closed.length := (List.getElem?_eq_some_iff.mp hk).1
    rw [added, if_neg (by omega), Nat.add_zero]
    exact h.closed k b hk
  · rw [recent, h.recent, closed, added]
    split <;> simp_all
  · rw [total, recent, closed, missed, h.balance]
    split <;> omega

theorem close (h : c.Accounted f) (hn : c.Numbered) (now : Nat) :
    (c.use (.close now)).Accounted f := by
  have size : (c.use (.close now)).closed.length = c.closed.length + 1 := by
    simp [Chronicle.use]
  have fresh : (c.use (.close now)).bucket.recent.count f = 0 := Window.count_opened now f
  refine ⟨h.total, fun k b hk => ?_, ?_, ?_⟩
  · simp only [Chronicle.use, List.getElem?_append] at hk
    split at hk
    · exact h.closed k b hk
    · rw [List.getElem?_singleton] at hk
      split at hk
      · cases hk
        have last : k = c.closed.length := by omega
        rw [last]
        exact h.recent
      · cases hk
  · rw [fresh, size]
    have none : (c.use (.close now)).timely (c.closed.length + 1) = [] :=
      timely_unopened hn (Nat.lt_succ_self _)
    rw [none]
    rfl
  · rw [fresh, show (c.use (.close now)).bucket.total = c.bucket.total from rfl, h.balance]
    simp only [Chronicle.use, List.map_append, List.sum_append, List.map_cons, List.map_nil,
      List.sum_cons, List.sum_nil, late, takeRecent]
    omega

theorem use (h : c.Accounted f) (hn : c.Numbered) (u : Use) : (c.use u).Accounted f := by
  cases u with
  | begin now =>
    obtain ⟨whole, open_⟩ := count_begin c.bucket now f
    exact {
      total := whole.trans h.total
      closed := h.closed
      recent := open_.trans h.recent
      balance := by
        rw [show (c.use (.begin now)).bucket.recent.count f = _ from open_]
        exact whole.trans h.balance }
  | finish now => exact ⟨h.total, h.closed, h.recent, h.balance⟩
  | record request stamp e => exact h.record request stamp e
  | close now => exact h.close hn now

end Accounted

theorem accounted_useAll (hn : c.Numbered) {f : Figure} (h : c.Accounted f) (us : List Use) :
    (us.foldl use c).Accounted f := by
  induction us generalizing c with
  | nil => exact h
  | cons u us ih => exact ih (hn.use u) (h.use hn u)

end Chronicle

/-- Whatever is done with a bucket, with whatever times: every event counts in the total, and in the
window that was open unless it was too late for that. So the total is what the closed windows, the
open one and the late events have together. -/
theorem windows_account_for_all (now : Nat) (us : List Use) (f : Figure) :
    (us.foldl Chronicle.use (.opened now)).Accounted f :=
  Chronicle.accounted_useAll (Chronicle.numbered_opened now) (Chronicle.accounted_opened now f) us

/-- What happens to a bucket as time goes by. -/
inductive Moment
  | pass (millis : Nat)
  /-- A request starts, and is counted. The requests are numbered as they start. -/
  | start
  /-- Something happens to a request that has started. -/
  | follow (request : Nat) (e : Event)
  | close

/-- A bucket along a clock, with the times at which its requests started. -/
structure Diary where
  now : Nat
  chronicle : Chronicle
  starts : List Nat := []

namespace Diary

def opened (now : Nat) : Diary := { now := now, chronicle := .opened now }

def live (d : Diary) : Moment → Diary
  | .pass millis => { d with now := d.now + millis }
  | .start => { d with
      chronicle := d.chronicle.use (.record d.starts.length d.now .request)
      starts := d.starts ++ [d.now] }
  | .follow request e =>
    match d.starts[request]? with
    | some stamp => { d with chronicle := d.chronicle.use (.record request stamp e) }
    | none => d
  | .close => { d with chronicle := d.chronicle.use (.close d.now) }

/-- What was recorded of a request, in order. -/
def recordedOf (d : Diary) (request : Nat) : List Recording :=
  d.chronicle.recorded.filter (·.request = request)

end Diary

/-- A window is the one that was open when the request started, or was opened no earlier. -/
def Recording.Precedes (first : Recording) (window opened : Nat) : Prop :=
  (window = first.window ∧ opened = first.opened) ∨
    (first.window < window ∧ first.stamp ≤ opened)

/-- What is recorded of a request that started at `stamp`, when a window of that number, opened then,
is open at last. -/
structure Story (xs : List Recording) (stamp window opened : Nat) : Prop where
  told : ∃ first rest, xs = first :: rest ∧ first.event = .request ∧ first.stamp = stamp ∧
    first.opened ≤ stamp ∧ first.Precedes window opened ∧
      ∀ x ∈ rest, x.stamp = stamp ∧ first.Precedes x.window x.opened

theorem Story.record {xs : List Recording} {stamp window opened : Nat}
    (h : Story xs stamp window opened) (request : Nat) (e : Event) :
    Story (xs ++ [⟨request, stamp, e, window, opened⟩]) stamp window opened := by
  obtain ⟨first, rest, rfl, he, hs, ho, hp, hr⟩ := h.told
  refine ⟨first, rest ++ [⟨request, stamp, e, window, opened⟩], rfl, he, hs, ho, hp, fun x hx => ?_⟩
  rcases List.mem_append.mp hx with hx | hx
  · exact hr x hx
  · rw [List.mem_singleton.mp hx]
    exact ⟨rfl, hp⟩

/-- The next window is opened at a time that is no earlier than the start. -/
theorem Story.close {xs : List Recording} {stamp window opened : Nat}
    (h : Story xs stamp window opened) {now : Nat} (hn : stamp ≤ now) :
    Story xs stamp (window + 1) now := by
  obtain ⟨first, rest, rfl, he, hs, ho, hp, hr⟩ := h.told
  refine ⟨first, rest, rfl, he, hs, ho, .inr ⟨?_, by omega⟩, hr⟩
  rcases hp with ⟨hw, _⟩ | ⟨hw, _⟩ <;> omega

namespace Diary
variable {d : Diary}

/-- The clock is past the start of every request and the opening of every window, and what is
recorded of a request begins with its start. -/
structure Kept (d : Diary) : Prop where
  clock : d.chronicle.bucket.recent.since ≤ d.now
  past : ∀ stamp ∈ d.starts, stamp ≤ d.now
  known : ∀ x ∈ d.chronicle.recorded, x.request < d.starts.length
  stories : ∀ n stamp, d.starts[n]? = some stamp → Story (d.recordedOf n) stamp
    d.chronicle.closed.length d.chronicle.bucket.recent.since

theorem recordedOf_record (d : Diary) (request stamp : Nat) (e : Event) (starts : List Nat) (n : Nat) :
    recordedOf { d with
        chronicle := d.chronicle.use (.record request stamp e), starts := starts } n =
      d.recordedOf n ++ if request = n then
        [⟨request, stamp, e, d.chronicle.closed.length, d.chronicle.bucket.recent.since⟩] else [] := by
  simp only [recordedOf, Chronicle.use, List.filter_append]
  split <;> rename_i he <;> simp [he]

namespace Kept

theorem pass (h : d.Kept) (millis : Nat) : (d.live (.pass millis)).Kept where
  clock := Nat.le_trans h.clock (Nat.le_add_right ..)
  past := fun stamp hs => Nat.le_trans (h.past stamp hs) (Nat.le_add_right ..)
  known := h.known
  stories := h.stories

theorem start (h : d.Kept) : (d.live .start).Kept := by
  have since : (d.live .start).chronicle.bucket.recent.since = d.chronicle.bucket.recent.since :=
    since_record ..
  have unheard : d.recordedOf d.starts.length = [] := by
    refine List.filter_eq_nil_iff.mpr fun x hx => ?_
    have hk := h.known x hx
    simp only [decide_eq_true_eq]
    omega
  refine ⟨since ▸ h.clock, fun stamp hs => ?_, fun x hx => ?_, fun n stamp hn => ?_⟩
  · rcases List.mem_append.mp hs with hs | hs
    · exact h.past stamp hs
    · rw [List.mem_singleton.mp hs]
      exact Nat.le_refl _
  · simp only [live, List.length_append, List.length_singleton]
    rcases List.mem_append.mp hx with hx | hx
    · exact Nat.lt_succ_of_lt (h.known x hx)
    · rw [List.mem_singleton.mp hx]
      exact Nat.lt_succ_self _
  · rw [since, live, recordedOf_record]
    simp only [live, List.getElem?_append] at hn
    split at hn
    · rename_i hlt
      rw [if_neg (by omega), List.append_nil]
      exact h.stories n stamp hn
    · rw [List.getElem?_singleton] at hn
      split at hn
      · cases hn
        have last : n = d.starts.length := by omega
        subst last
        rw [unheard, if_pos rfl, List.nil_append]
        exact ⟨_, [], rfl, rfl, rfl, h.clock, .inl ⟨rfl, rfl⟩, nofun⟩
      · cases hn

theorem follow (h : d.Kept) (request : Nat) (e : Event) : (d.live (.follow request e)).Kept := by
  simp only [live]
  split
  · rename_i stamp hr
    have since := since_record d.chronicle.bucket stamp e
    refine ⟨since ▸ h.clock, h.past, fun x hx => ?_, fun n stamp' hn => ?_⟩
    · rcases List.mem_append.mp hx with hx | hx
      · exact h.known x hx
      · rw [List.mem_singleton.mp hx]
        exact (List.getElem?_eq_some_iff.mp hr).1
    · have told := h.stories n stamp' hn
      rw [show (d.chronicle.use (.record request stamp e)).bucket.recent.since = _ from since,
        recordedOf_record d request stamp e d.starts n]
      split
      · rename_i he
        subst he
        cases hr.symm.trans hn
        exact told.record request e
      · rw [List.append_nil]
        exact told
  · exact h

theorem close (h : d.Kept) : (d.live .close).Kept where
  clock := Nat.le_refl _
  past := h.past
  known := h.known
  stories := by
    intro n stamp hn
    have told := (h.stories n stamp hn).close (h.past stamp (List.mem_of_getElem? hn))
    have size : (d.live .close).chronicle.closed.length = d.chronicle.closed.length + 1 := by
      simp [live, Chronicle.use]
    rw [size]
    exact told

theorem live (h : d.Kept) (m : Moment) : (d.live m).Kept := by
  cases m with
  | pass millis => exact h.pass millis
  | start => exact h.start
  | follow request e => exact h.follow request e
  | close => exact h.close

theorem liveAll (h : d.Kept) (ms : List Moment) : (ms.foldl Diary.live d).Kept := by
  induction ms generalizing d with
  | nil => exact h
  | cons m ms ih => exact ih (h.live m)

end Kept

theorem kept_opened (now : Nat) : (opened now).Kept where
  clock := Nat.le_refl _
  past := fun _ hs => absurd hs List.not_mem_nil
  known := fun _ hx => absurd hx List.not_mem_nil
  stories := nofun

end Diary

/-- A request's event is in time for a window if that was open when the request started, or was
opened in the same millisecond. -/
theorem Recording.Precedes.timely_iff {first x : Recording} (h : first.Precedes x.window x.opened)
    (ho : first.opened ≤ first.stamp) (hs : x.stamp = first.stamp) :
    x.isLate = false ↔ x.window = first.window ∨ x.opened = first.stamp := by
  simp only [Recording.isLate, decide_eq_false_iff_not, Nat.not_lt, hs]
  rcases h with ⟨hw, he⟩ | ⟨hw, he⟩ <;> omega

namespace Diary
variable {d : Diary}

theorem accounted_live (hn : d.chronicle.Numbered) (h : ∀ f, d.chronicle.Accounted f) (m : Moment) :
    (d.live m).chronicle.Numbered ∧ ∀ f, (d.live m).chronicle.Accounted f := by
  have used : ∀ u, (d.chronicle.use u).Numbered ∧ ∀ f, (d.chronicle.use u).Accounted f :=
    fun u => ⟨hn.use u, fun f => (h f).use hn u⟩
  cases m with
  | pass millis => exact ⟨hn, h⟩
  | start => exact used (.record d.starts.length d.now .request)
  | follow request e =>
    simp only [live]
    split
    · rename_i stamp _
      exact used (.record request stamp e)
    · exact ⟨hn, h⟩
  | close => exact used (.close d.now)

theorem accounted_liveAll (hn : d.chronicle.Numbered) (h : ∀ f, d.chronicle.Accounted f)
    (ms : List Moment) : ∀ f, (ms.foldl live d).chronicle.Accounted f := by
  induction ms generalizing d with
  | nil => exact h
  | cons m ms ih =>
    obtain ⟨hn, h⟩ := accounted_live hn h m
    exact ih hn h

end Diary

/-- Along a clock that never goes back, a request is counted in the window that is open at its start.
Unless a window is opened later in the very millisecond of the start, whatever follows of the request
counts in that window too as long as it is open, and in the total only after that. -/
theorem one_window_per_request (now : Nat) (ms : List Moment) :
    let d := ms.foldl Diary.live (.opened now)
    (∀ f, d.chronicle.Accounted f) ∧
      ∀ n stamp, d.starts[n]? = some stamp → ∃ first rest, d.recordedOf n = first :: rest ∧
        first.event = .request ∧ first.stamp = stamp ∧ first.isLate = false ∧
        ((∀ x ∈ rest, first.window < x.window → x.opened ≠ stamp) →
          ∀ x ∈ rest, x.isLate = false ↔ x.window = first.window) := by
  intro d
  have whole : ∀ f, d.chronicle.Accounted f := Diary.accounted_liveAll
    (Chronicle.numbered_opened now) (Chronicle.accounted_opened now) ms
  have kept : d.Kept := (Diary.kept_opened now).liveAll ms
  refine ⟨whole, fun n stamp hn => ?_⟩
  obtain ⟨first, rest, hx, he, rfl, ho, _, hr⟩ := (kept.stories n stamp hn).told
  refine ⟨first, rest, hx, he, rfl, by simpa [Recording.isLate] using ho, fun apart x hm => ?_⟩
  obtain ⟨hs, hp⟩ := hr x hm
  rw [hp.timely_iff ho hs]
  refine ⟨fun either => either.elim id fun same => ?_, .inl⟩
  rcases hp with ⟨hw, _⟩ | ⟨hw, _⟩
  · exact hw
  · exact absurd same (apart x hm hw)

/-- A request starts, its window is closed a millisecond later, and then it times out: the timeout
counts in the total only. -/
theorem timeout_after_closing_is_late : ∃ first x,
    let d := [.start, .pass 1, .close, .follow 0 .timeout].foldl Diary.live (.opened 1000)
    d.recordedOf 0 = [first, x] ∧ first.window = 0 ∧ x.window = 1 ∧
      (x.isLate = false ↔ x.window = first.window) := by
  have told := one_window_per_request 1000 [.start, .pass 1, .close, .follow 0 .timeout]
  obtain ⟨first, rest, hx, _, _, _, apart⟩ := told.2 0 1000 rfl
  cases hx
  exact ⟨_, _, rfl, rfl, rfl, apart (by decide) _ (List.mem_singleton_self _)⟩

/-- A window is closed in the millisecond in which a request has started: the request counts in it,
and the timeout of the request in the next one. -/
theorem request_divided_between_windows : ∃ first x,
    let d := [.pass 500, .start, .close, .follow 0 .timeout].foldl Diary.live (.opened 1000)
    d.recordedOf 0 = [first, x] ∧ first.window = 0 ∧ x.window = 1 ∧ x.isLate = false ∧
      d.chronicle.closed.map (·.total.requests) = [1] ∧
      d.chronicle.bucket.recent.requests = 0 ∧ d.chronicle.bucket.recent.timeouts = 1 :=
  ⟨_, _, rfl, rfl, rfl, rfl, rfl, rfl, rfl⟩

end Bucket
end LoadGen
