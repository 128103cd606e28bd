import LoadGen.Dict
import Mathlib.Tactic.SplitIfs

namespace LoadGen.Text

def bytes (s : String) : List UInt8 := s.toUTF8.data.toList

theorem bytes_eq (s : String) : bytes s = s.toList.flatMap String.utf8EncodeChar := by
  have encoded : s.toUTF8 = (s.toList.flatMap String.utf8EncodeChar).toByteArray :=
    String.utf8Encode_toList.symm
  rw [bytes, encoded, List.toList_data_toByteArray]

/-- The first byte tells how many there are. Of two encodings of one length, the first byte in which
they differ decides. -/
theorem utf8EncodeChar_lt {c d : Char} (h : c < d) (xs ys : List UInt8) :
    String.utf8EncodeChar c ++ xs < String.utf8EncodeChar d ++ ys := by
  have hlt : c.val.toNat < d.val.toNat := h
  have bound : d.val.toNat < 1114112 := by
    rcases d.valid with hv | hv <;> omega
  have byte : ∀ n, n < 256 → (UInt8.ofNat n).toNat = n := fun _ => UInt8.toNat_ofNat_of_lt'
  simp only [String.utf8EncodeChar]
  generalize c.val.toNat = v at *
  generalize d.val.toNat = w at *
  -- the code points differ before their last digit in base 64, or in it
  rcases Nat.lt_or_ge (v / 64) (w / 64) with early | last <;> split_ifs <;>
    simp (disch := omega) only [List.cons_append, List.nil_append, List.cons_lt_cons_iff,
      UInt8.lt_iff_toNat_lt, ← UInt8.toNat_inj, byte] <;>
    omega

theorem bytes_lt {s t : String} (h : s < t) : bytes s < bytes t := by
  rw [bytes_eq, bytes_eq]
  have chars : s.toList < t.toList := h
  generalize s.toList = cs at chars ⊢
  generalize t.toList = ds at chars ⊢
  clear h
  induction cs generalizing ds with
  | nil =>
    cases ds with
    | nil => exact absurd chars (List.not_lt_nil _)
    | cons d ds =>
      rw [List.flatMap_cons]
      cases hd : String.utf8EncodeChar d with
      | nil => exact absurd hd String.utf8EncodeChar_ne_nil
      | cons b bs => exact List.nil_lt_cons ..
  | cons c cs ih =>
    cases ds with
    | nil => exact absurd chars (List.not_lt_nil _)
    | cons d ds =>
      rw [List.flatMap_cons, List.flatMap_cons]
      rcases List.cons_lt_cons_iff.mp chars with hlt | ⟨rfl, rest⟩
      · exact utf8EncodeChar_lt hlt ..
      · have later := ih ds rest
        generalize String.utf8EncodeChar c = bs
        induction bs with
        | nil => exact later
        | cons b bs ihb => exact List.cons_lt_cons_iff.mpr (.inr ⟨rfl, ihb⟩)

end LoadGen.Text
