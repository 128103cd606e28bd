import LoadGen.Dict
import LoadGen.Duration
import LoadGen.Failure
import LoadGen.Script.Value
import LoadGen.Text.Blank
import LoadGen.Text.Numeral
import LoadGen.Text.Placeholder

namespace LoadGen

/-- One unit of scripted work. -/
inductive Step
  /-- Logs a message with the values of some variables filled in. -/
  | log (message : String) (vars : List String)
  | set (var : String) (value : Value)
  | pause (time : Duration)
  deriving DecidableEq, Repr

namespace Step

/-- The message of a log step, where `lookup` gives the variables. -/
def logged (message : String) (vars : List String) (lookup : String → Option Value) : String :=
  Text.fill message (vars.map fun v => ((lookup v).map Value.shown).getD "<not set>")

def required (step : String) (params : Dict String) (name : String) : Except Failure String :=
  match params.get? name with
  | some s => .ok s
  | none => .error (.step (step ++ ": missing " ++ name))

/-- Variable names divided by commas; blank ones are left out. -/
def varNames (s : String) : List String :=
  (((s.toList.splitOn ',').map Text.trimChars).filter (!·.isEmpty)).map String.ofList

def ofLog (params : Dict String) : Except Failure Step := do
  let message ← required "log" params "message"
  return .log message (((params.get? "vars").map varNames).getD [])

/-- A number where the text reads as one, the text itself otherwise. -/
def valueOf (raw : String) : Value :=
  match Text.readSigned raw with
  | .ok n => .int n
  | .error _ => .text raw

def ofSet (params : Dict String) : Except Failure Step := do
  let var ← required "set" params "var"
  let raw ← required "set" params "value"
  return .set var (valueOf raw)

/-- The length of time that `n` of a unit make. -/
def unitTime (n : Nat) (unit : String) : Option Duration :=
  if unit = "ms" then some (.ofMillis n)
  else if unit = "s" then some (.ofSeconds n)
  else if unit = "m" then
    if n * 60 ≤ Text.maxWord then some (.ofSeconds (n * 60)) else none
  else none

/-- The byte at which a text first has a character that is no digit. -/
def unitStart? : List Char → Option Nat
  | [] => none
  | c :: rest => if c.isDigit then (unitStart? rest).map (c.utf8Size + ·) else some 0

/-- The digits of a time, and its unit, which is that of milliseconds where none is written. A text
cannot be cut within a character. -/
def timeParts? (cs : List Char) : Option (List Char × List Char) :=
  match unitStart? cs with
  | some start => Text.cut? start cs
  | none => some (cs, ['m', 's'])

theorem unitStart?_eq_some {cs : List Char} {n : Nat} (h : unitStart? cs = some n) :
    n = Text.byteLength (cs.takeWhile Char.isDigit) ∧ cs.dropWhile Char.isDigit ≠ [] := by
  induction cs generalizing n with
  | nil => cases h
  | cons c rest ih =>
    rw [unitStart?] at h
    split at h
    · rename_i digit
      obtain ⟨m, later, rfl⟩ := Option.map_eq_some_iff.mp h
      obtain ⟨rfl, more⟩ := ih later
      rw [List.takeWhile_cons_of_pos digit, List.dropWhile_cons_of_pos digit]
      exact ⟨rfl, more⟩
    · rename_i other
      cases h
      rw [List.takeWhile_cons_of_neg other, List.dropWhile_cons_of_neg other]
      exact ⟨rfl, List.cons_ne_nil c rest⟩

theorem unitStart?_eq_none {cs : List Char} (h : unitStart? cs = none) :
    cs.takeWhile Char.isDigit = cs ∧ cs.dropWhile Char.isDigit = [] := by
  induction cs with
  | nil => exact ⟨rfl, rfl⟩
  | cons c rest ih =>
    rw [unitStart?] at h
    split at h
    · rename_i digit
      obtain ⟨all, none_left⟩ := ih (Option.map_eq_none_iff.mp h)
      rw [List.takeWhile_cons_of_pos digit, List.dropWhile_cons_of_pos digit, all]
      exact ⟨rfl, none_left⟩
    · cases h

theorem cut?_of_unitStart? {cs : List Char} {n : Nat} (h : unitStart? cs = some n) :
    Text.cut? n cs = some (cs.takeWhile Char.isDigit, cs.dropWhile Char.isDigit) :=
  Text.cut?_eq_some_iff.mpr ⟨List.takeWhile_append_dropWhile.symm, (unitStart?_eq_some h).1.symm⟩

theorem timeParts?_eq (cs : List Char) : timeParts? cs =
    some (cs.takeWhile Char.isDigit,
      if (cs.dropWhile Char.isDigit).isEmpty then ['m', 's'] else cs.dropWhile Char.isDigit) := by
  rw [timeParts?]
  cases h : unitStart? cs with
  | none =>
    obtain ⟨all, none_left⟩ := unitStart?_eq_none h
    rw [all, none_left]
    rfl
  | some start =>
    have more := (unitStart?_eq_some h).2
    rw [← List.isEmpty_eq_false_iff] at more
    simp only [cut?_of_unitStart? h, more, Bool.false_eq_true, if_false]

theorem isSome_timeParts? (cs : List Char) : (timeParts? cs).isSome := by
  rw [timeParts?_eq]
  rfl

/-- Digits, then a unit; without a unit the digits count milliseconds. -/
def readTime (raw : String) : Option Duration :=
  let (digits, unit) := (timeParts? (Text.trimChars raw.toList)).get (isSome_timeParts? _)
  match Text.readWord (String.ofList digits) with
  | .ok n => unitTime n (String.ofList (Text.trimChars unit))
  | .error _ => none

def ofPause (params : Dict String) : Except Failure Step := do
  let raw ← required "pause" params "duration"
  match readTime raw with
  | some d => return .pause d
  | none => throw (.step ("pause: invalid duration '" ++ raw ++ "'"))

end Step
end LoadGen
