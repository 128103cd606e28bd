import LoadGen.Proofs.Happenings

namespace LoadGen.Runner

variable {α : Type}

/-- What happenings make, one after the other, where `f` says what one of them makes. -/
def trail (f : Runner → Happening → List α) : Runner → List Happening → List α
  | _, [] => []
  | r, e :: es => f r e ++ ((r.after? e).map fun r => trail f r es).getD []

theorem Course.trail_append {r₀ r : Runner} {es : List Happening} (h : Course r₀ es r)
    (f : Runner → Happening → List α) (es' : List Happening) :
    r₀.trail f (es ++ es') = r₀.trail f es ++ r.trail f es' := by
  induction h generalizing es' with
  | refl => rfl
  | @next es e q q' hc _ he ih =>
    rw [List.append_assoc, ih, ih [e], List.append_assoc]
    simp [trail, he]

theorem Course.trail_next {r₀ r r' : Runner} {es : List Happening} {e : Happening}
    (h : Course r₀ es r) (f : Runner → Happening → List α) (he : r.after? e = some r') :
    r₀.trail f (es ++ [e]) = r₀.trail f es ++ f r e := by
  rw [h.trail_append]
  simp [trail, he]

theorem mem_trail {f : Runner → Happening → List α} {r : Runner} {es : List Happening} {x : α}
    (h : x ∈ r.trail f es) : ∃ e ∈ es, ∃ q, x ∈ f q e := by
  induction es generalizing r with
  | nil => cases h
  | cons e es ih =>
    rcases List.mem_append.mp h with now | later
    · exact ⟨e, List.mem_cons_self, r, now⟩
    · cases he : r.after? e with
      | none => simp [he] at later
      | some q =>
        rw [he] at later
        obtain ⟨e', hm, more⟩ := ih later
        exact ⟨e', List.mem_cons_of_mem _ hm, more⟩

end LoadGen.Runner
