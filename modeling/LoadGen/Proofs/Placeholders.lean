import LoadGen.Text.Placeholder
import Mathlib.Data.List.Basic

namespace LoadGen.Text

/-- What stands between the placeholders of a text. -/
inductive Pieces : List Char → List (List Char) → Prop
  | whole {cs : List Char} (h : ¬placeholder <:+: cs) : Pieces cs [cs]
  | cut {cs before after : List Char} {pieces : List (List Char)}
    (h : Leftmost placeholder cs before after) (rest : Pieces after pieces) : Pieces cs (before :: pieces)

section Pieces
variable {pattern cs before after before' after' : List Char} {pieces pieces' : List (List Char)}

theorem Leftmost.unique (h : Leftmost pattern cs before after)
    (h' : Leftmost pattern cs before' after') : before = before' ∧ after = after' := by
  have length : before.length = before'.length :=
    Nat.le_antisymm (h.first _ _ h'.split) (h'.first _ _ h.split)
  have same := h.split.symm.trans h'.split
  obtain ⟨left, rfl⟩ := List.append_inj same (by simp only [List.length_append, length])
  exact ⟨List.append_cancel_right left, rfl⟩

theorem Leftmost.infix (h : Leftmost pattern cs before after) : pattern <:+: cs :=
  ⟨before, after, h.split.symm⟩

theorem find?_of_infix (h : pattern <:+: cs) : ∃ n, find? pattern cs = some n := by
  induction cs with
  | nil =>
    obtain rfl := List.infix_nil.mp h
    exact ⟨0, rfl⟩
  | cons c rest ih =>
    rw [find?]
    split
    · exact ⟨0, rfl⟩
    · rename_i not_here
      obtain here | later := List.infix_cons_iff.mp h
      · exact absurd (List.isPrefixOf_iff_prefix.mpr here) not_here
      · obtain ⟨n, found⟩ := ih later
        exact ⟨c.utf8Size + n, by rw [found]; rfl⟩

theorem exists_pieces (cs : List Char) : ∃ pieces, Pieces cs pieces := by
  by_cases h : placeholder <:+: cs
  · obtain ⟨n, found⟩ := find?_of_infix h
    obtain ⟨before, after, leftmost, _, cut⟩ := cut?_of_find? found
    obtain ⟨pieces, rest⟩ := exists_pieces after
    exact ⟨before :: pieces, .cut leftmost rest⟩
  · exact ⟨[cs], .whole h⟩
termination_by cs.length
decreasing_by exact length_lt_of_cut? cut

theorem Pieces.unique (h : Pieces cs pieces) (h' : Pieces cs pieces') : pieces = pieces' := by
  induction h generalizing pieces' with
  | whole no =>
    cases h' with
    | whole _ => rfl
    | cut leftmost _ => exact absurd leftmost.infix no
  | cut leftmost _ ih =>
    cases h' with
    | whole no => exact absurd leftmost.infix no
    | cut leftmost' rest' =>
      obtain ⟨rfl, rfl⟩ := leftmost.unique leftmost'
      rw [ih rest']

theorem Pieces.ne_nil (h : Pieces cs pieces) : pieces ≠ [] := by
  cases h <;> exact List.cons_ne_nil _ _

end Pieces

/-- What goes into `k` placeholders: the first values, and placeholders once these have run out. -/
def fillers (k : Nat) (values : List (List Char)) : List (List Char) :=
  values.take k ++ List.replicate (k - values.length) placeholder

/-- Pieces joined with what goes between them. -/
def weave (values : List (List Char)) : List (List Char) → List Char
  | [] => []
  | first :: rest => first ++ (List.zipWith (· ++ ·) (fillers rest.length values) rest).flatten

section Filling
variable {cs : List Char} {pieces : List (List Char)}

theorem fillers_succ (k : Nat) (values : List (List Char)) :
    fillers (k + 1) values = values.headD placeholder :: fillers k values.tail := by
  cases values with
  | nil =>
    simp only [fillers, List.take_nil, List.length_nil, Nat.sub_zero, List.nil_append,
      List.replicate_succ, List.headD_nil, List.tail_nil]
  | cons value rest =>
    simp only [fillers, List.length_cons, Nat.add_sub_add_right]
    rfl

theorem fillers_take (k : Nat) (values : List (List Char)) :
    fillers k (values.take k) = fillers k values := by
  have left_over : k - (values.take k).length = k - values.length := by
    rw [List.length_take]
    omega
  rw [fillers, fillers, List.take_take, Nat.min_self, left_over]

theorem weave_single (values : List (List Char)) (cs : List Char) : weave values [cs] = cs := by
  rw [weave, List.zipWith_nil_right, List.flatten_nil, List.append_nil]

theorem weave_cons (values : List (List Char)) (before : List Char) (h : pieces ≠ []) :
    weave values (before :: pieces) =
      before ++ values.headD placeholder ++ weave values.tail pieces := by
  cases pieces with
  | nil => exact absurd rfl h
  | cons first rest =>
    simp only [weave, List.length_cons, fillers_succ, List.zipWith_cons_cons, List.flatten_cons,
      List.append_assoc]

theorem weave_take (values : List (List Char)) (pieces : List (List Char)) :
    weave (values.take (pieces.length - 1)) pieces = weave values pieces := by
  cases pieces with
  | nil => rfl
  | cons first rest => rw [weave, weave, List.length_cons, Nat.add_sub_cancel, fillers_take]

theorem Pieces.weave_nil (h : Pieces cs pieces) : weave [] pieces = cs := by
  induction h with
  | whole no => exact weave_single [] _
  | cut leftmost rest ih =>
    rw [weave_cons [] _ rest.ne_nil, leftmost.split]
    exact congrArg _ ih

/-- The loop puts the values between the pieces, and is never left without an answer. -/
theorem Pieces.fillFrom_eq (h : Pieces cs pieces) (values : List (List Char)) (out : List Char) :
    fillFrom cs values out = some (out ++ weave values pieces) := by
  -- What stands to the left is `out`, and the values still to come are `values`.
  induction h generalizing values out with
  | @whole cs no =>
    cases found : find? placeholder cs with
    | none =>
      rw [fillFrom_of_none found, weave_single]
    | some n =>
      obtain ⟨_, _, leftmost, _, _⟩ := cut?_of_find? found
      exact absurd leftmost.infix no
  | cut leftmost rest ih =>
    obtain ⟨n, found⟩ := find?_of_infix leftmost.infix
    obtain ⟨_, _, leftmost', at_start, at_end⟩ := cut?_of_find? found
    obtain ⟨rfl, rfl⟩ := leftmost.unique leftmost'
    rw [fillFrom_of_some found at_start at_end, ih, weave_cons values _ rest.ne_nil]
    simp only [List.append_assoc]

theorem Pieces.fill_eq {message : String} (h : Pieces message.toList pieces)
    (values : List String) :
    (fill message values).toList = weave (values.map String.toList) pieces := by
  simp only [fill, h.fillFrom_eq, String.toList_ofList, Option.get_some, List.nil_append]

/-- Every message has one list of pieces, and whatever the values are, filling it joins these pieces
with the first values, or with placeholders once there are none. The loop that does so ends, and never
cuts a text within a character. -/
theorem message_filled (message : String) : ∃ pieces,
    Pieces message.toList pieces ∧
    (∀ pieces', Pieces message.toList pieces' → pieces' = pieces) ∧
    (∀ rest start, find? placeholder rest = some start →
      (cut? start rest).isSome ∧ (cut? (start + 2) rest).isSome) ∧
    fill message [] = message ∧
    ∀ values : List String,
      fillFrom message.toList (values.map String.toList) [] = some (fill message values).toList ∧
      (fill message values).toList = weave (values.map String.toList) pieces ∧
      fill message (values.take (pieces.length - 1)) = fill message values := by
  obtain ⟨pieces, h⟩ := exists_pieces message.toList
  refine ⟨pieces, h, fun _ h' => h'.unique h, ?_, ?_, fun values => ⟨?_, h.fill_eq values, ?_⟩⟩
  · intro rest start found
    obtain ⟨_, _, _, at_start, at_end⟩ := cut?_of_find? found
    rw [at_start, at_end]
    exact ⟨rfl, rfl⟩
  · rw [← String.toList_inj, h.fill_eq]
    exact h.weave_nil
  · rw [h.fill_eq, h.fillFrom_eq, List.nil_append]
  · rw [← String.toList_inj, h.fill_eq, h.fill_eq, List.map_take, weave_take]

example : fill "\x7b\x7b\x7d\x7d ü\x7b\x7d\x7b" ["\x7b\x7d", "x", "y"] = "\x7b\x7b\x7d\x7d üx\x7b" := by
  cbv

end Filling

end LoadGen.Text
