import LoadGen.Proofs.Numerals
import LoadGen.Script.Catalog
import Mathlib.Data.List.TakeWhile
import Mathlib.Tactic.SplitIfs

namespace LoadGen
namespace Text

section Blanks
variable {c : Char} {cs before after : List Char}

def Blanks (cs : List Char) : Prop := ∀ c ∈ cs, isBlank c = true

instance : Decidable (Blanks cs) := List.decidableBAll _ cs

theorem blanks_nil : Blanks [] := fun _ hc => by cases hc

theorem Blanks.append (hb : Blanks before) (ha : Blanks after) : Blanks (before ++ after) :=
  fun c hc => (List.mem_append.mp hc).elim (hb c) (ha c)

theorem Blanks.reverse (h : Blanks cs) : Blanks cs.reverse := fun c hc => h c (List.mem_reverse.mp hc)

theorem blanks_takeWhile (cs : List Char) : Blanks (cs.takeWhile isBlank) :=
  fun _ hc => List.mem_takeWhile_imp hc

theorem not_isBlank_of_isDigit (h : c.isDigit = true) : isBlank c = false := by
  have bounds := Char.isDigit_iff_toNat.mp h
  have zero : '0'.toNat = 48 := rfl
  have nine : '9'.toNat = 57 := rfl
  simp only [isBlank, inRanges, blankRanges, List.any_cons, List.any_nil, Bool.or_false,
    Bool.or_eq_false_iff, Bool.and_eq_false_iff, decide_eq_false_iff_not, Nat.not_le]
  omega

theorem not_isDigit_of_isBlank (h : isBlank c = true) : c.isDigit = false := by
  rw [← Bool.not_eq_true]
  intro digit
  rw [not_isBlank_of_isDigit digit] at h
  cases h

/-- A text without blanks at its ends is what is left when blanks around it are dropped. -/
theorem trimChars_eq (hb : Blanks before) (ha : Blanks after)
    (first : ∀ c ∈ cs.head?, isBlank c = false) (last : ∀ c ∈ cs.getLast?, isBlank c = false) :
    trimChars (before ++ cs ++ after) = cs := by
  have front : (before ++ cs ++ after).dropWhile isBlank = (cs ++ after).dropWhile isBlank := by
    rw [List.append_assoc, List.dropWhile_append_of_pos hb]
  have stop : ∀ ds : List Char, (∀ c ∈ ds.head?, isBlank c = false) →
      ds.dropWhile isBlank = ds := by
    intro ds hd
    cases ds with
    | nil => rfl
    | cons d rest => exact List.dropWhile_cons_of_neg (by simp [hd d rfl])
  rw [trimChars, front]
  cases cs with
  | nil =>
    have none_left : after.dropWhile isBlank = [] := List.dropWhile_eq_nil_iff.mpr ha
    rw [List.nil_append, none_left]
    rfl
  | cons c rest =>
    rw [stop (c :: rest ++ after) first, List.reverse_append, List.dropWhile_append_of_pos ha.reverse,
      stop (c :: rest).reverse (by rwa [List.head?_reverse]), List.reverse_reverse]

theorem exists_blanks_around (cs : List Char) : ∃ before after, Blanks before ∧ Blanks after ∧
    cs = before ++ trimChars cs ++ after := by
  let rest := cs.dropWhile isBlank
  refine ⟨cs.takeWhile isBlank, (rest.reverse.takeWhile isBlank).reverse, blanks_takeWhile cs,
    (blanks_takeWhile rest.reverse).reverse, ?_⟩
  have behind : rest = trimChars cs ++ (rest.reverse.takeWhile isBlank).reverse := by
    rw [trimChars, ← List.reverse_append, List.takeWhile_append_dropWhile, List.reverse_reverse]
  rw [List.append_assoc, ← behind, List.takeWhile_append_dropWhile]

end Blanks

theorem readWord_eq_ok {cs : List Char} {n : Nat} (all : ∀ c ∈ cs, c.isDigit = true) :
    readWord (String.ofList cs) = .ok n ↔ Digits cs ∧ digitsValue cs = n ∧ n ≤ maxWord := by
  rw [readWord, String.toList_ofList]
  split
  · exact iff_of_false (fun h => by cases h) fun ⟨digits, _⟩ => digits.nonempty rfl
  · exact absurd (all '+' List.mem_cons_self) (by decide)
  · exact readDigits_eq_ok

end Text

open Text

/-- The units of a length of time. A bare number counts milliseconds. -/
inductive TimeUnit
  | bare
  | millis
  | seconds
  | minutes
  deriving DecidableEq, Repr

namespace TimeUnit
variable {u v : TimeUnit} {n : Nat}

def symbol : TimeUnit → List Char
  | bare => []
  | millis => ['m', 's']
  | seconds => ['s']
  | minutes => ['m']

def time (n : Nat) : TimeUnit → Duration
  | bare => .ofMillis n
  | millis => .ofMillis n
  | seconds => .ofSeconds n
  | minutes => .ofSeconds (60 * n)

/-- The number fits into a word, and so do the seconds of that many minutes. -/
def Fits (u : TimeUnit) (n : Nat) : Prop := n ≤ maxWord ∧ (u = minutes → 60 * n ≤ maxWord)

instance : Decidable (u.Fits n) := inferInstanceAs (Decidable (_ ∧ _))

theorem symbol_ne_nil (h : u ≠ .bare) : u.symbol ≠ [] := by
  cases u with
  | bare => exact absurd rfl h
  | millis | seconds | minutes => exact List.cons_ne_nil _ _

theorem letter_of_mem_symbol {c : Char} (h : c ∈ u.symbol) :
    isBlank c = false ∧ c.isDigit = false := by
  cases u <;> simp only [symbol, List.mem_cons, List.not_mem_nil, or_false] at h
  case millis => rcases h with rfl | rfl <;> decide
  case seconds | minutes => subst h; decide

theorem eq_of_symbol_eq (h : u.symbol = v.symbol) : u = v := by
  revert h
  cases u <;> cases v <;> decide

theorem Fits.wholeSeconds_le (h : u.Fits n) : (u.time n).wholeSeconds ≤ maxWord := by
  obtain ⟨number, product⟩ := h
  cases u with
  | bare | millis =>
    simp only [time, Duration.ofMillis, Duration.wholeSeconds]
    omega
  | seconds => simpa [time, Duration.ofSeconds, Duration.wholeSeconds] using number
  | minutes => simpa [time, Duration.ofSeconds, Duration.wholeSeconds] using product rfl

end TimeUnit

/-- Digits and a unit, with blanks around both. -/
inductive TimeText : List Char → Nat → TimeUnit → Prop
  | intro {before digits between after : List Char} (u : TimeUnit) (front : Blanks before)
    (number : Digits digits) (gap : Blanks between) (back : Blanks after) :
    TimeText (before ++ digits ++ between ++ u.symbol ++ after) (digitsValue digits) u

section TimeText
variable {cs digits digits' : List Char} {m n : Nat} {u v : TimeUnit}

theorem filter_of_blanks (h : Blanks cs) : cs.filter (fun c => !isBlank c) = [] :=
  List.filter_eq_nil_iff.mpr fun c hc => by simp [h c hc]

theorem TimeText.inked (h : TimeText cs n u) : ∃ digits, Digits digits ∧ digitsValue digits = n ∧
    cs.filter (fun c => !isBlank c) = digits ++ u.symbol := by
  obtain @⟨_, digits, _, _, _, front, number, gap, back⟩ := h
  refine ⟨digits, number, rfl, ?_⟩
  have digits_stay : digits.filter (fun c => !isBlank c) = digits :=
    List.filter_eq_self.mpr fun c hc => by simp [not_isBlank_of_isDigit (number.all c hc)]
  have symbol_stays : u.symbol.filter (fun c => !isBlank c) = u.symbol :=
    List.filter_eq_self.mpr fun c hc => by simp [(TimeUnit.letter_of_mem_symbol hc).1]
  simp only [List.filter_append, filter_of_blanks front, filter_of_blanks gap, filter_of_blanks back,
    digits_stay, symbol_stays, List.nil_append, List.append_nil]

theorem takeWhile_digits (h : Digits digits) (u : TimeUnit) :
    (digits ++ u.symbol).takeWhile Char.isDigit = digits := by
  rw [List.takeWhile_append_of_pos h.all]
  cases u <;> exact List.append_nil digits

theorem TimeText.unique (h : TimeText cs m u) (h' : TimeText cs n v) : m = n ∧ u = v := by
  obtain ⟨digits, number, rfl, inked⟩ := h.inked
  obtain ⟨digits', number', rfl, inked'⟩ := h'.inked
  have same := inked.symm.trans inked'
  have same_digits : digits = digits' := by
    rw [← takeWhile_digits number u, same, takeWhile_digits number' v]
  subst same_digits
  exact ⟨rfl, TimeUnit.eq_of_symbol_eq (List.append_cancel_left same)⟩

end TimeText

namespace Step
variable {cs before digits gap unit after : List Char} {raw : String}
variable {n : Nat} {u : TimeUnit} {d : Duration}

theorem timeParts?_eq_some : timeParts? cs = some (digits, unit) ↔
    (∀ c ∈ digits, c.isDigit = true) ∧
      (cs = digits ∧ unit = ['m', 's'] ∨
        cs = digits ++ unit ∧ ∃ c rest, unit = c :: rest ∧ c.isDigit = false) := by
  rw [timeParts?_eq, Option.some.injEq, Prod.mk.injEq]
  constructor
  · rintro ⟨rfl, rfl⟩
    refine ⟨fun _ hc => List.mem_takeWhile_imp hc, ?_⟩
    cases h : cs.dropWhile Char.isDigit with
    | nil =>
      have whole := List.takeWhile_eq_self_iff.mpr (List.dropWhile_eq_nil_iff.mp h)
      exact .inl ⟨whole.symm, rfl⟩
    | cons c rest =>
      have some_left : cs.dropWhile Char.isDigit ≠ [] := h ▸ List.cons_ne_nil c rest
      have other := List.head_dropWhile_not Char.isDigit some_left
      simp only [h, List.head_cons] at other
      refine .inr ⟨?_, c, rest, rfl, other⟩
      rw [List.isEmpty_cons, if_neg Bool.false_ne_true, ← h, List.takeWhile_append_dropWhile]
  · rintro ⟨all, ⟨rfl, rfl⟩ | ⟨rfl, c, rest, rfl, other⟩⟩
    · have none_left : cs.dropWhile Char.isDigit = [] := List.dropWhile_eq_nil_iff.mpr all
      rw [none_left]
      exact ⟨List.takeWhile_eq_self_iff.mpr all, rfl⟩
    · rw [List.takeWhile_append_of_pos all, List.dropWhile_append_of_pos all,
        List.takeWhile_cons_of_neg (by simp [other]), List.dropWhile_cons_of_neg (by simp [other]),
        List.append_nil]
      exact ⟨rfl, rfl⟩

theorem unitTime_eq_some (hn : n ≤ maxWord) : unitTime n (String.ofList cs) = some d ↔
    ∃ u : TimeUnit, u ≠ .bare ∧ cs = u.symbol ∧ u.Fits n ∧ d = u.time n := by
  have named : ∀ s : String, String.ofList cs = s ↔ cs = s.toList := by
    intro s
    rw [← String.toList_inj, String.toList_ofList]
  simp only [unitTime, named]
  constructor
  · intro h
    split_ifs at h with is_millis is_seconds is_minutes le <;> cases h
    · exact ⟨.millis, by decide, is_millis, ⟨hn, by simp⟩, rfl⟩
    · exact ⟨.seconds, by decide, is_seconds, ⟨hn, by simp⟩, rfl⟩
    · rw [Nat.mul_comm n 60] at le ⊢
      exact ⟨.minutes, by decide, is_minutes, ⟨hn, fun _ => le⟩, rfl⟩
  · rintro ⟨u, some_unit, rfl, ⟨_, product⟩, rfl⟩
    cases u with
    | bare => exact absurd rfl some_unit
    | millis => rfl
    | seconds => rfl
    | minutes =>
      have le := product rfl
      rw [Nat.mul_comm] at le
      simp [TimeUnit.symbol, TimeUnit.time, le, Nat.mul_comm]

theorem readTime_eq_some : readTime raw = some d ↔ ∃ digits unit,
    timeParts? (trimChars raw.toList) = some (digits, unit) ∧ Digits digits ∧
      digitsValue digits ≤ maxWord ∧
      unitTime (digitsValue digits) (String.ofList (trimChars unit)) = some d := by
  obtain ⟨⟨digits, unit⟩, parts⟩ :=
    Option.isSome_iff_exists.mp (isSome_timeParts? (trimChars raw.toList))
  have all := (timeParts?_eq_some.mp parts).1
  have only : ∀ {digits' unit'}, timeParts? (trimChars raw.toList) = some (digits', unit') →
      digits = digits' ∧ unit = unit' := fun parts' =>
    Prod.mk.inj (Option.some.inj (parts.symm.trans parts'))
  cases word : readWord (String.ofList digits) with
  | error e =>
    have read : readTime raw = none := by
      simp only [readTime, parts, Option.get_some, word]
    refine iff_of_false (fun h => by rw [read] at h; cases h) ?_
    rintro ⟨digits', unit', parts', number, le, _⟩
    obtain ⟨rfl, rfl⟩ := only parts'
    rw [(readWord_eq_ok all).mpr ⟨number, rfl, le⟩] at word
    cases word
  | ok n =>
    obtain ⟨number, rfl, le⟩ := (readWord_eq_ok all).mp word
    have read : readTime raw =
        unitTime (digitsValue digits) (String.ofList (trimChars unit)) := by
      simp only [readTime, parts, Option.get_some, word]
    rw [read]
    constructor
    · exact fun h => ⟨digits, unit, parts, number, le, h⟩
    · rintro ⟨digits', unit', parts', _, _, h⟩
      obtain ⟨rfl, rfl⟩ := only parts'
      exact h

theorem exists_timeText (h : readTime raw = some d) :
    ∃ n u, TimeText raw.toList n u ∧ u.Fits n ∧ d = u.time n := by
  obtain ⟨digits, unit, parts, number, le, h⟩ := readTime_eq_some.mp h
  obtain ⟨u, some_unit, symbol, fits, rfl⟩ := (unitTime_eq_some le).mp h
  obtain ⟨before, after, front, back, whole⟩ := exists_blanks_around raw.toList
  obtain ⟨trimmed, rfl⟩ | ⟨trimmed, _⟩ := (timeParts?_eq_some.mp parts).2
  · have text := TimeText.intro .bare front number blanks_nil back
    simp only [TimeUnit.symbol, List.append_nil] at text
    rw [trimmed] at whole
    cases u with
    | millis => exact ⟨_, .bare, whole ▸ text, ⟨le, by simp⟩, rfl⟩
    | bare | seconds | minutes => cases symbol
  · obtain ⟨gap, behind, blank_gap, blank_behind, around⟩ := exists_blanks_around unit
    have text := TimeText.intro u front number blank_gap (blank_behind.append back)
    rw [trimmed, around, symbol] at whole
    simp only [← List.append_assoc] at text whole
    exact ⟨_, u, whole ▸ text, fits, rfl⟩

theorem not_isBlank_head (number : Digits digits) (cs : List Char) :
    ∀ c ∈ (digits ++ cs).head?, isBlank c = false := by
  intro c hc
  rw [List.head?_append_of_ne_nil _ number.nonempty] at hc
  exact not_isBlank_of_isDigit (number.all c (List.mem_of_head? hc))

theorem readTime_bare (front : Blanks before) (number : Digits digits) (back : Blanks after)
    (whole : raw.toList = before ++ digits ++ after) (le : digitsValue digits ≤ maxWord) :
    readTime raw = some (.ofMillis (digitsValue digits)) := by
  have first := not_isBlank_head number []
  rw [List.append_nil] at first
  have last : ∀ c ∈ digits.getLast?, isBlank c = false := fun c hc =>
    not_isBlank_of_isDigit (number.all c (List.mem_of_getLast? hc))
  refine readTime_eq_some.mpr ⟨digits, ['m', 's'], ?parts, number, le, ?time⟩
  case parts =>
    rw [whole, trimChars_eq front back first last]
    exact timeParts?_eq_some.mpr ⟨number.all, .inl ⟨rfl, rfl⟩⟩
  case time => exact (unitTime_eq_some le).mpr ⟨.millis, by decide, rfl, ⟨le, by simp⟩, rfl⟩

theorem readTime_unit (some_unit : u ≠ .bare) (front : Blanks before) (number : Digits digits)
    (between : Blanks gap) (back : Blanks after)
    (whole : raw.toList = before ++ digits ++ gap ++ u.symbol ++ after)
    (fits : u.Fits (digitsValue digits)) : readTime raw = some (u.time (digitsValue digits)) := by
  have named := TimeUnit.symbol_ne_nil some_unit
  have last : ∀ cs, ∀ c ∈ (cs ++ u.symbol).getLast?, isBlank c = false := by
    intro cs c hc
    rw [List.getLast?_append_of_ne_nil _ named] at hc
    exact (TimeUnit.letter_of_mem_symbol (List.mem_of_getLast? hc)).1
  have other : ∀ c ∈ gap ++ u.symbol, c.isDigit = false := by
    intro c hc
    rcases List.mem_append.mp hc with blank | letter
    · exact not_isDigit_of_isBlank (between c blank)
    · exact (TimeUnit.letter_of_mem_symbol letter).2
  have trimmed : trimChars raw.toList = digits ++ (gap ++ u.symbol) := by
    have spaced := trimChars_eq front back (not_isBlank_head number (gap ++ u.symbol))
      (by rw [← List.append_assoc]; exact last (digits ++ gap))
    rwa [← List.append_assoc, ← List.append_assoc, ← List.append_assoc, ← whole,
      List.append_assoc] at spaced
  have unit_trimmed : trimChars (gap ++ u.symbol) = u.symbol := by
    have spaced := trimChars_eq between blanks_nil
      (fun c hc => (TimeUnit.letter_of_mem_symbol (List.mem_of_head? hc)).1) (last [])
    rwa [List.append_nil] at spaced
  refine readTime_eq_some.mpr ⟨digits, gap ++ u.symbol, ?parts, number, fits.1, ?time⟩
  case parts =>
    obtain ⟨c, rest, begins⟩ :=
      List.exists_cons_of_ne_nil (List.append_ne_nil_of_right_ne_nil gap named)
    exact timeParts?_eq_some.mpr ⟨number.all, .inr ⟨trimmed, c, rest, begins,
      other c (begins ▸ List.mem_cons_self)⟩⟩
  case time =>
    rw [unit_trimmed]
    exact (unitTime_eq_some fits.1).mpr ⟨u, some_unit, rfl, fits, rfl⟩

/-- Digits and a unit are read, whatever blanks there are around them, unless they do not fit. -/
theorem readTime_of_timeText (h : TimeText raw.toList n u) :
    readTime raw = if u.Fits n then some (u.time n) else none := by
  split
  · rename_i fits
    generalize whole : raw.toList = cs at h
    obtain ⟨_, front, number, between, back⟩ := h
    by_cases bare : u = .bare
    · subst bare
      rw [TimeUnit.symbol, List.append_nil, List.append_assoc] at whole
      exact readTime_bare front number (between.append back) whole fits.1
    · exact readTime_unit bare front number between back whole fits
  · rename_i beyond
    refine Option.eq_none_iff_forall_ne_some.mpr fun d read => ?_
    obtain ⟨_, _, text, fits, _⟩ := exists_timeText read
    obtain ⟨rfl, rfl⟩ := h.unique text
    exact beyond fits

theorem timeText_printed (n : Nat) (u : TimeUnit) :
    TimeText (toString n ++ String.ofList u.symbol).toList n u := by
  have text := TimeText.intro u blanks_nil (digits_toDigits n) blanks_nil blanks_nil
  rw [digitsValue_toDigits] at text
  simpa using text

section Pause
variable {params : Dict String} {step : Step}

theorem build_pause (params : Dict String) :
    Catalog.builtIn.build "pause" params = ofPause params := by
  have maker : Catalog.builtIn.makers.get? "pause" = some Step.ofPause := by rfl
  rw [Catalog.build, maker]

theorem build_pause_of_some (h : params.get? "duration" = some raw) (read : readTime raw = some d) :
    Catalog.builtIn.build "pause" params = .ok (.pause d) := by
  simp only [build_pause, ofPause, required, h, bind, Except.bind, read]
  rfl

theorem build_pause_of_none (h : params.get? "duration" = some raw) (read : readTime raw = none) :
    Catalog.builtIn.build "pause" params =
      .error (.step ("pause: invalid duration '" ++ raw ++ "'")) := by
  simp only [build_pause, ofPause, required, h, bind, Except.bind, read]
  rfl

theorem build_pause_eq_ok (h : params.get? "duration" = some raw) :
    Catalog.builtIn.build "pause" params = .ok step ↔
      ∃ n u, TimeText raw.toList n u ∧ u.Fits n ∧ step = .pause (u.time n) := by
  constructor
  · intro built
    cases read : readTime raw with
    | none =>
      rw [build_pause_of_none h read] at built
      cases built
    | some d =>
      obtain ⟨n, u, text, fits, rfl⟩ := exists_timeText read
      rw [build_pause_of_some h read] at built
      cases built
      exact ⟨n, u, text, fits, rfl⟩
  · rintro ⟨n, u, text, fits, rfl⟩
    exact build_pause_of_some h (by rw [readTime_of_timeText text, if_pos fits])

/-- A pause is made of a text exactly if the text is a number and a unit, with blanks around both, and
fits; it then lasts that many of the unit. Of every other text comes the failure that shows the text.
The text is never cut within a character, and the seconds of the pause are a word. A number that is
printed with a unit is read again, if it fits. -/
theorem pause_time_read (h : params.get? "duration" = some raw) :
    (∀ start, unitStart? (trimChars raw.toList) = some start →
      (cut? start (trimChars raw.toList)).isSome) ∧
    (∀ step, Catalog.builtIn.build "pause" params = .ok step ↔
      ∃ n u, TimeText raw.toList n u ∧ u.Fits n ∧ step = .pause (u.time n)) ∧
    ((∀ n u, TimeText raw.toList n u → ¬ u.Fits n) →
      Catalog.builtIn.build "pause" params =
        .error (.step ("pause: invalid duration '" ++ raw ++ "'"))) ∧
    (∀ time, Catalog.builtIn.build "pause" params = .ok (.pause time) →
      time.wholeSeconds ≤ maxWord) ∧
    ∀ (n : Nat) (u : TimeUnit), raw = toString n ++ String.ofList u.symbol →
      Catalog.builtIn.build "pause" params =
        if u.Fits n then .ok (.pause (u.time n))
        else .error (.step ("pause: invalid duration '" ++ raw ++ "'")) := by
  refine ⟨fun start found => ?cut, fun _ => build_pause_eq_ok h, fun beyond => ?refused,
    fun time built => ?word, fun n u printed => ?printed⟩
  case cut =>
    rw [cut?_of_unitStart? found]
    rfl
  case refused =>
    refine build_pause_of_none h (Option.eq_none_iff_forall_ne_some.mpr fun d read => ?_)
    obtain ⟨n, u, text, fits, _⟩ := exists_timeText read
    exact beyond n u text fits
  case word =>
    obtain ⟨n, u, _, fits, he⟩ := (build_pause_eq_ok h).mp built
    cases he
    exact fits.wholeSeconds_le
  case printed =>
    have read := readTime_of_timeText (printed ▸ timeText_printed n u)
    split
    · rename_i fits
      exact build_pause_of_some h (read.trans (if_pos fits))
    · rename_i beyond
      exact build_pause_of_none h (read.trans (if_neg beyond))

example : ["", "ms", "+5", "1 0", "5 h", "٣s", "307445734561825861m"].filterMap readTime = [] := by
  decide +kernel

/-- The longest pause in minutes, among blanks. -/
theorem longest_minutes_read :
    let params : Dict String := .ofList [("duration", "\t307445734561825860\u00a0m\n")]
    Catalog.builtIn.build "pause" params = .ok (.pause (.ofSeconds 18446744073709551600)) := by
  intro params
  have h : params.get? "duration" = some "\t307445734561825860\u00a0m\n" := rfl
  have text : TimeText "\t307445734561825860\u00a0m\n".toList 307445734561825860 .minutes := by
    have front : Blanks ['\t'] := by decide
    have gap : Blanks ['\u00a0'] := by decide
    have back : Blanks ['\n'] := by decide
    have text := TimeText.intro .minutes front (digits_toDigits 307445734561825860) gap back
    rwa [digitsValue_toDigits] at text
  exact ((pause_time_read h).2.1 _).mpr ⟨_, .minutes, text, by decide, rfl⟩

end Pause

end Step
end LoadGen
