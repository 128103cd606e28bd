namespace LoadGen.Text

def byteLength (cs : List Char) : Nat := cs.foldr (fun c n => c.utf8Size + n) 0

/-- The byte at which a pattern first begins in a text. -/
def find? (pattern : List Char) : List Char → Option Nat
  | [] => if pattern.isEmpty then some 0 else none
  | c :: rest =>
    if pattern.isPrefixOf (c :: rest) then some 0 else (find? pattern rest).map (c.utf8Size + ·)

/-- A text up to a byte, and from there on. It cannot be cut within a character or beyond its end. -/
def cut? : Nat → List Char → Option (List Char × List Char)
  | 0, cs => some ([], cs)
  | _ + 1, [] => none
  | n + 1, c :: rest =>
    if c.utf8Size ≤ n + 1 then
      (cut? (n + 1 - c.utf8Size) rest).map fun (before, after) => (c :: before, after)
    else none

def placeholder : List Char := ['\x7b', '\x7d']

section Cutting
variable {pattern cs before after : List Char} {n : Nat}

theorem byteLength_append (before after : List Char) :
    byteLength (before ++ after) = byteLength before + byteLength after := by
  induction before with
  | nil => exact (Nat.zero_add _).symm
  | cons c rest ih =>
    change c.utf8Size + byteLength (rest ++ after) = c.utf8Size + byteLength rest + _
    rw [ih, Nat.add_assoc]

theorem eq_nil_of_byteLength (h : byteLength cs = 0) : cs = [] := by
  cases cs with
  | nil => rfl
  | cons c rest =>
    have positive := c.utf8Size_pos
    have bytes : byteLength (c :: rest) = c.utf8Size + byteLength rest := rfl
    omega

theorem cut?_eq_some_iff :
    cut? n cs = some (before, after) ↔ cs = before ++ after ∧ byteLength before = n := by
  induction cs generalizing n before with
  | nil =>
    cases n with
    | zero =>
      simp only [cut?, Option.some.injEq, Prod.mk.injEq]
      constructor
      · rintro ⟨rfl, rfl⟩
        exact ⟨rfl, rfl⟩
      · rintro ⟨he, _⟩
        obtain ⟨rfl, rfl⟩ := List.append_eq_nil_iff.mp he.symm
        exact ⟨rfl, rfl⟩
    | succ n =>
      refine iff_of_false (fun h => by cases h) fun ⟨he, bytes⟩ => ?_
      rw [(List.append_eq_nil_iff.mp he.symm).1] at bytes
      cases bytes
  | cons c rest ih =>
    cases n with
    | zero =>
      simp only [cut?, Option.some.injEq, Prod.mk.injEq]
      constructor
      · rintro ⟨rfl, rfl⟩
        exact ⟨rfl, rfl⟩
      · rintro ⟨he, bytes⟩
        obtain rfl := eq_nil_of_byteLength bytes
        exact ⟨rfl, he⟩
    | succ n =>
      have positive := c.utf8Size_pos
      have bytes : ∀ cs, byteLength (c :: cs) = c.utf8Size + byteLength cs := fun _ => rfl
      rw [cut?]
      constructor
      · intro h
        split at h
        · rename_i le
          obtain ⟨⟨b, a⟩, cut, he⟩ := Option.map_eq_some_iff.mp h
          obtain ⟨rfl, rfl⟩ := Prod.mk.inj he
          obtain ⟨rfl, length⟩ := ih.mp cut
          rw [bytes]
          exact ⟨rfl, by omega⟩
        · cases h
      · rintro ⟨he, length⟩
        cases before with
        | nil => cases length
        | cons d b =>
          obtain ⟨rfl, rfl⟩ := List.cons.inj he
          rw [bytes] at length
          have cut := ih.mpr ⟨rfl, show byteLength b = n + 1 - c.utf8Size by omega⟩
          rw [if_pos (by omega), cut]
          rfl

/-- A pattern stands in a text between `before` and `after`, and nowhere further left. -/
structure Leftmost (pattern cs before after : List Char) : Prop where
  split : cs = before ++ pattern ++ after
  first : ∀ before' after', cs = before' ++ pattern ++ after' → before.length ≤ before'.length

theorem leftmost_of_find? (h : find? pattern cs = some n) :
    ∃ before after, Leftmost pattern cs before after ∧ byteLength before = n := by
  induction cs generalizing n with
  | nil =>
    rw [find?] at h
    split at h
    · rename_i empty
      cases h
      rw [List.isEmpty_iff.mp empty]
      exact ⟨[], [], ⟨rfl, fun _ _ _ => Nat.zero_le _⟩, rfl⟩
    · cases h
  | cons c rest ih =>
    rw [find?] at h
    split at h
    · rename_i here
      cases h
      obtain ⟨after, he⟩ := List.isPrefixOf_iff_prefix.mp here
      exact ⟨[], after, ⟨he.symm, fun _ _ _ => Nat.zero_le _⟩, rfl⟩
    · rename_i not_here
      obtain ⟨m, later, rfl⟩ := Option.map_eq_some_iff.mp h
      obtain ⟨before, after, ⟨rfl, first⟩, rfl⟩ := ih later
      refine ⟨c :: before, after, ⟨rfl, fun before' after' he => ?_⟩, rfl⟩
      cases before' with
      | nil => exact absurd (List.isPrefixOf_iff_prefix.mpr ⟨after', he.symm⟩) not_here
      | cons d tail => exact Nat.succ_le_succ (first tail after' (List.cons.inj he).2)

theorem byteLength_placeholder : byteLength placeholder = 2 := by decide

theorem cut?_of_find? (h : find? placeholder cs = some n) : ∃ before after,
    Leftmost placeholder cs before after ∧ cut? n cs = some (before, placeholder ++ after) ∧
      cut? (n + 2) cs = some (before ++ placeholder, after) := by
  obtain ⟨before, after, leftmost, rfl⟩ := leftmost_of_find? h
  refine ⟨before, after, leftmost, cut?_eq_some_iff.mpr ⟨?_, rfl⟩,
    cut?_eq_some_iff.mpr ⟨leftmost.split, ?_⟩⟩
  · rw [← List.append_assoc]
    exact leftmost.split
  · rw [byteLength_append, byteLength_placeholder]

theorem length_lt_of_cut? (h : cut? (n + 2) cs = some (before, after)) :
    after.length < cs.length := by
  obtain ⟨rfl, bytes⟩ := cut?_eq_some_iff.mp h
  cases before with
  | nil => cases bytes
  | cons c rest =>
    rw [List.length_append, List.length_cons]
    omega

end Cutting

/-- Appends what is left of a message, with its placeholders filled from left to right. A placeholder
without a value stays, and a value without a placeholder is left out. -/
def fillFrom (rest : List Char) (values : List (List Char)) (out : List Char) :
    Option (List Char) :=
  match find? placeholder rest with
  | none => some (out ++ rest)
  | some start =>
    match cut? start rest, _cut : cut? (start + 2) rest with
    | some (before, _), some (_, after) =>
      fillFrom after values.tail (out ++ before ++ values.headD placeholder)
    | _, _ => none
termination_by rest.length
decreasing_by exact length_lt_of_cut? _cut

theorem fillFrom_of_none {rest : List Char} (h : find? placeholder rest = none)
    (values : List (List Char)) (out : List Char) :
    fillFrom rest values out = some (out ++ rest) := by
  rw [fillFrom, h]

theorem fillFrom_of_some {rest before after tail cut : List Char} {n : Nat}
    (h : find? placeholder rest = some n) (hb : cut? n rest = some (before, tail))
    (ha : cut? (n + 2) rest = some (cut, after)) (values : List (List Char)) (out : List Char) :
    fillFrom rest values out =
      fillFrom after values.tail (out ++ before ++ values.headD placeholder) := by
  rw [fillFrom, h]
  simp only [hb]
  split
  · rename_i h₁ h₂
    rw [ha] at h₂
    cases h₁
    cases h₂
    rfl
  · rename_i other
    exact absurd ha (other _ _ _ _ rfl)

/-- A message is never cut within a character, so the filling comes to its end. -/
theorem isSome_fillFrom (rest : List Char) (values : List (List Char)) (out : List Char) :
    (fillFrom rest values out).isSome := by
  cases h : find? placeholder rest with
  | none =>
    rw [fillFrom_of_none h]
    rfl
  | some n =>
    obtain ⟨_, after, _, hb, ha⟩ := cut?_of_find? h
    rw [fillFrom_of_some h hb ha]
    exact isSome_fillFrom after _ _
termination_by rest.length
decreasing_by exact length_lt_of_cut? ha

/-- Fills the placeholders of a message. Nothing in a value is a placeholder. -/
def fill (message : String) (values : List String) : String :=
  String.ofList ((fillFrom message.toList (values.map String.toList) []).get (isSome_fillFrom ..))

end LoadGen.Text
