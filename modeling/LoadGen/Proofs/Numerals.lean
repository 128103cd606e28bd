import LoadGen.Script.Step
import Mathlib.Algebra.GroupWithZero.Nat
import Mathlib.Data.List.Basic

namespace LoadGen.Text
variable {cs : List Char} {limit m n : Nat} {excess : NumeralError}

/-- Decimal digits, one at least. -/
structure Digits (cs : List Char) : Prop where
  nonempty : cs ≠ []
  all : ∀ c ∈ cs, c.isDigit = true

theorem digitValue_lt {c : Char} (h : c.isDigit = true) : digitValue c < 10 := by
  have bounds := Char.isDigit_iff_toNat.mp h
  have zero : '0'.toNat = 48 := rfl
  have nine : '9'.toNat = 57 := rfl
  unfold digitValue
  omega

theorem digitChar_digitValue {c : Char} (h : c.isDigit = true) : (digitValue c).digitChar = c := by
  have bounds := Char.isDigit_iff_toNat.mp h
  have zero : '0'.toNat = 48 := rfl
  apply Char.toNat_inj.mp
  rw [Nat.toNat_digitChar_of_lt_ten (digitValue_lt h)]
  unfold digitValue
  omega

/-- The number that becomes of `n` when digits are appended. -/
def extended (n : Nat) (cs : List Char) : Nat := cs.foldl (fun n c => 10 * n + digitValue c) n

theorem le_extended (n : Nat) (cs : List Char) : n ≤ extended n cs := by
  induction cs generalizing n with
  | nil => exact Nat.le_refl n
  | cons c rest ih =>
    have next := ih (10 * n + digitValue c)
    have same : extended n (c :: rest) = extended (10 * n + digitValue c) rest := rfl
    omega

/-- A number that exceeds the limit does not come back below it with more digits. -/
theorem extendNumber_eq_ok (hn : n ≤ limit) : extendNumber limit excess n cs = .ok m ↔
    (∀ c ∈ cs, c.isDigit = true) ∧ extended n cs = m ∧ m ≤ limit := by
  induction cs generalizing n with
  | nil =>
    simp only [extendNumber, Except.ok.injEq, List.not_mem_nil, false_implies, implies_true,
      true_and, extended, List.foldl_nil]
    exact ⟨fun h => ⟨h, h ▸ hn⟩, And.left⟩
  | cons c rest ih =>
    have next : extended n (c :: rest) = extended (10 * n + digitValue c) rest := rfl
    rw [extendNumber, next]
    split
    · rename_i other
      refine iff_of_false (fun h => by cases h) fun ⟨all, _⟩ => ?_
      simp [all c List.mem_cons_self] at other
    · rename_i digit
      split
      · rename_i beyond
        refine iff_of_false (fun h => by cases h) fun ⟨_, he, hm⟩ => ?_
        have := le_extended (10 * n + digitValue c) rest
        omega
      · rename_i within
        rw [ih (Nat.not_lt.mp within)]
        simp only [Bool.not_eq_true, Bool.not_eq_false'] at digit
        simp [digit]

theorem readDigits_eq_ok : readDigits limit excess cs = .ok m ↔
    Digits cs ∧ digitsValue cs = m ∧ m ≤ limit := by
  cases cs with
  | nil => exact iff_of_false (fun h => by cases h) fun ⟨digits, _⟩ => digits.nonempty rfl
  | cons c rest =>
    change extendNumber limit excess 0 (c :: rest) = .ok m ↔ _
    rw [extendNumber_eq_ok (Nat.zero_le limit)]
    exact and_congr_left fun _ => ⟨fun all => ⟨List.cons_ne_nil c rest, all⟩, Digits.all⟩

/-- Digits after an optional sign, and the number that they make. -/
inductive Numeral : List Char → Int → Prop
  | bare {cs : List Char} (h : Digits cs) : Numeral cs (digitsValue cs)
  | plus {cs : List Char} (h : Digits cs) : Numeral ('+' :: cs) (digitsValue cs)
  | minus {cs : List Char} (h : Digits cs) : Numeral ('-' :: cs) (-(digitsValue cs : Int))

section Signs
variable {i : Int}

theorem numeral_plus : Numeral ('+' :: cs) i ↔ Digits cs ∧ (digitsValue cs : Int) = i := by
  constructor
  · intro h
    cases h with
    | bare h => exact absurd (h.all '+' List.mem_cons_self) (by decide)
    | plus h => exact ⟨h, rfl⟩
  · rintro ⟨h, rfl⟩
    exact .plus h

theorem numeral_minus : Numeral ('-' :: cs) i ↔ Digits cs ∧ -(digitsValue cs : Int) = i := by
  constructor
  · intro h
    cases h with
    | bare h => exact absurd (h.all '-' List.mem_cons_self) (by decide)
    | minus h => exact ⟨h, rfl⟩
  · rintro ⟨h, rfl⟩
    exact .minus h

theorem numeral_bare (plus : ∀ rest, cs ≠ '+' :: rest) (minus : ∀ rest, cs ≠ '-' :: rest) :
    Numeral cs i ↔ Digits cs ∧ (digitsValue cs : Int) = i := by
  constructor
  · intro h
    cases h with
    | bare h => exact ⟨h, rfl⟩
    | plus h => exact absurd rfl (plus _)
    | minus h => exact absurd rfl (minus _)
  · rintro ⟨h, rfl⟩
    exact .bare h

theorem signed_eq_ok {x : Except NumeralError Nat} {f : Int → Int} :
    Except.map f (do let n ← x; pure (n : Int)) = .ok i ↔ ∃ n : Nat, x = .ok n ∧ f n = i := by
  cases x <;> simp [Except.map, bind, Except.bind, pure, Except.pure]

/-- A signed word is read from the numerals within its bounds, and from nothing else. -/
theorem readSigned_eq_ok {s : String} : readSigned s = .ok i ↔
    Numeral s.toList i ∧ -(maxSigned + 1 : Int) ≤ i ∧ i ≤ maxSigned := by
  have positive : ∀ ds : List Char,
      (readDigits maxSigned .tooLarge ds).map (fun n => (n : Int)) = .ok i ↔
        (Digits ds ∧ (digitsValue ds : Int) = i) ∧ -(maxSigned + 1 : Int) ≤ i ∧ i ≤ maxSigned := by
    intro ds
    simp only [signed_eq_ok, readDigits_eq_ok]
    constructor
    · rintro ⟨m, ⟨digits, rfl, le⟩, rfl⟩
      exact ⟨⟨digits, rfl⟩, by omega, by omega⟩
    · rintro ⟨⟨digits, rfl⟩, _, le⟩
      exact ⟨_, ⟨digits, rfl, by omega⟩, rfl⟩
  unfold readSigned
  split
  · rename_i empty
    rw [empty]
    refine iff_of_false (fun h => by cases h) fun ⟨numeral, _⟩ => ?_
    cases numeral with
    | bare h => exact h.nonempty rfl
  · rename_i ds he
    rw [he, numeral_minus]
    simp only [signed_eq_ok, readDigits_eq_ok]
    constructor
    · rintro ⟨m, ⟨digits, rfl, le⟩, rfl⟩
      exact ⟨⟨digits, rfl⟩, by omega, by omega⟩
    · rintro ⟨⟨digits, rfl⟩, ge, _⟩
      exact ⟨_, ⟨digits, rfl, by omega⟩, rfl⟩
  · rename_i ds he
    rw [he, numeral_plus]
    exact positive ds
  · rename_i minus plus
    rw [numeral_bare plus minus]
    exact positive s.toList

end Signs

section Spelling

/-- A number in another spelling than the usual one: with a plus sign, with zeros in front, or as a
negative number that begins with zero. -/
def Respelled (cs : List Char) : Prop :=
  (∃ rest, cs = '+' :: rest) ∨ (∃ rest, rest ≠ [] ∧ cs = '0' :: rest) ∨
    ∃ rest, cs = '-' :: '0' :: rest

theorem toDigits_digitValue {c : Char} (h : c.isDigit = true) :
    Nat.toDigits 10 (digitValue c) = [c] := by
  rw [Nat.toDigits_of_lt_base (digitValue_lt h), digitChar_digitValue h]

theorem toDigits_extended (hn : 0 < n) (h : ∀ c ∈ cs, c.isDigit = true) :
    Nat.toDigits 10 (extended n cs) = Nat.toDigits 10 n ++ cs := by
  induction cs generalizing n with
  | nil => exact (List.append_nil _).symm
  | cons c rest ih =>
    have digit := h c List.mem_cons_self
    calc Nat.toDigits 10 (extended n (c :: rest))
        = Nat.toDigits 10 (10 * n + digitValue c) ++ rest :=
          ih (Nat.add_pos_left (Nat.mul_pos (by decide) hn) _) fun c hc =>
            h c (List.mem_cons_of_mem _ hc)
      _ = Nat.toDigits 10 n ++ [c] ++ rest := by
          rw [← Nat.toDigits_append_toDigits (by decide) hn (digitValue_lt digit),
            toDigits_digitValue digit]
      _ = Nat.toDigits 10 n ++ c :: rest := List.append_assoc ..

theorem toDigits_digitsValue (h : Digits cs) (plain : ∀ rest, cs = '0' :: rest → rest = []) :
    Nat.toDigits 10 (digitsValue cs) = cs := by
  cases cs with
  | nil => exact absurd rfl h.nonempty
  | cons c rest =>
    have digit := h.all c List.mem_cons_self
    have value : digitsValue (c :: rest) = extended (digitValue c) rest := by
      simp [digitsValue, extended]
    by_cases zero : c = '0'
    · subst zero
      rw [plain rest rfl]
      rfl
    · have positive : 0 < digitValue c := by
        refine Nat.pos_of_ne_zero fun none => zero ?_
        rw [← digitChar_digitValue digit, none]
        rfl
      rw [value, toDigits_extended positive fun c hc => h.all c (List.mem_cons_of_mem _ hc),
        toDigits_digitValue digit]
      rfl

theorem digits_toDigits (n : Nat) : Digits (Nat.toDigits 10 n) :=
  ⟨Nat.toDigits_ne_nil, fun _ hc => Nat.isDigit_of_mem_toDigits (by decide) (by decide) hc⟩

theorem digitsValue_toDigits (n : Nat) : digitsValue (Nat.toDigits 10 n) = n :=
  Nat.ofDigitChars_ten_toDigits

theorem extended_lt (n : Nat) (h : ∀ c ∈ cs, c.isDigit = true) :
    extended n cs < (n + 1) * 10 ^ cs.length := by
  induction cs generalizing n with
  | nil => simp [extended]
  | cons c rest ih =>
    have digit := digitValue_lt (h c List.mem_cons_self)
    calc extended n (c :: rest)
        < (10 * n + digitValue c + 1) * 10 ^ rest.length :=
          ih _ fun c hc => h c (List.mem_cons_of_mem _ hc)
      _ ≤ ((n + 1) * 10) * 10 ^ rest.length := Nat.mul_le_mul_right _ (by omega)
      _ = (n + 1) * 10 ^ (c :: rest).length := by
          rw [List.length_cons, Nat.pow_succ', Nat.mul_assoc]

theorem eq_nil_of_toDigits {rest : List Char} (h : Nat.toDigits 10 n = '0' :: rest) : rest = [] := by
  have digits := digits_toDigits n
  have value := digitsValue_toDigits n
  rw [h] at digits value
  by_contra some
  have small : n < 10 ^ rest.length := by
    have lt := extended_lt 0 fun c hc => digits.all c (List.mem_cons_of_mem '0' hc)
    have same : digitsValue ('0' :: rest) = extended 0 rest := rfl
    rwa [← same, value, Nat.zero_add, Nat.one_mul] at lt
  have length := (Nat.length_toDigits_le_iff (by decide) (List.length_pos_iff.mpr some)).mpr small
  rw [h, List.length_cons] at length
  omega

theorem shown_natCast (n : Nat) : (Value.int n).shown.toList = Nat.toDigits 10 n := by
  simp [Value.shown, Int.repr_eq_if]

theorem shown_neg (hn : 0 < n) : (Value.int (-(n : Int))).shown.toList = '-' :: Nat.toDigits 10 n := by
  simp [Value.shown, Int.repr_eq_if, Nat.ne_of_gt hn]

theorem eq_zero_of_toDigits {rest : List Char} (h : Nat.toDigits 10 n = '0' :: rest) : n = 0 := by
  rw [← digitsValue_toDigits n, h, eq_nil_of_toDigits h]
  rfl

/-- What is printed of a number reads as that number, and is its usual spelling. -/
theorem numeral_shown (i : Int) :
    Numeral (Value.int i).shown.toList i ∧ ¬ Respelled (Value.int i).shown.toList := by
  have natural : ∀ n : Nat, Numeral (Value.int n).shown.toList n ∧
      ¬ Respelled (Value.int n).shown.toList := by
    intro n
    have digits := digits_toDigits n
    have numeral := Numeral.bare digits
    rw [digitsValue_toDigits] at numeral
    rw [shown_natCast]
    refine ⟨numeral, ?_⟩
    rintro (⟨rest, he⟩ | ⟨rest, more, he⟩ | ⟨rest, he⟩)
    · exact absurd (digits.all '+' (he ▸ List.mem_cons_self)) (by decide)
    · exact more (eq_nil_of_toDigits he)
    · exact absurd (digits.all '-' (he ▸ List.mem_cons_self)) (by decide)
  obtain ⟨n, rfl | rfl⟩ := Int.eq_nat_or_neg i
  · exact natural n
  rcases Nat.eq_zero_or_pos n with rfl | positive
  · exact natural 0
  · have numeral := Numeral.minus (digits_toDigits n)
    rw [digitsValue_toDigits] at numeral
    rw [shown_neg positive]
    refine ⟨numeral, ?_⟩
    rintro (⟨rest, he⟩ | ⟨rest, _, he⟩ | ⟨rest, he⟩)
    · cases he
    · cases he
    · exact Nat.ne_of_gt positive (eq_zero_of_toDigits (List.cons.inj he).2)

/-- A numeral is what is printed of its number, unless it is another spelling of it. -/
theorem Numeral.shown_eq_iff {i : Int} (h : Numeral cs i) :
    (Value.int i).shown.toList = cs ↔ ¬ Respelled cs := by
  refine ⟨fun same => same ▸ (numeral_shown i).2, fun usual => ?_⟩
  cases h with
  | bare h =>
    rw [shown_natCast, toDigits_digitsValue h]
    intro rest he
    by_contra more
    exact usual (.inr (.inl ⟨rest, more, he⟩))
  | plus h => exact absurd (.inl ⟨_, rfl⟩) usual
  | @minus ds h =>
    have plain : ∀ rest, ds ≠ '0' :: rest := fun rest he => usual (.inr (.inr ⟨rest, he ▸ rfl⟩))
    have same := toDigits_digitsValue h fun rest he => absurd he (plain rest)
    have positive : 0 < digitsValue ds := by
      refine Nat.pos_of_ne_zero fun none => plain [] ?_
      rw [← same, none]
      rfl
    rw [shown_neg positive, same]

end Spelling

end LoadGen.Text
