import LoadGen.Proofs.Counts
import LoadGen.Proofs.CourseLogs
import LoadGen.Proofs.Pruning

namespace LoadGen

theorem Dict.get?_isSome {α : Type} (d : Dict α) (key : String) :
    (d.get? key).isSome = d.entries.any (·.1 == key) := by
  obtain ⟨l⟩ := d
  simp only [get?]
  induction l with
  | nil => rfl
  | cons p rest ih =>
    by_cases hk : key = p.1
    · simp [find, hk]
    · simp [find, hk, Ne.symm hk, ih]

namespace Board

theorem bucket?_isSome (b : Board) (phase metric : String) : (b.bucket? phase metric).isSome =
    (b.dates.find? (·.1 == phase)).any fun d => d.2.2.any (·.1 == metric) := by
  have named : ((·.1 == phase) ∘ PhaseBuckets.dates) = (·.phase == phase) := rfl
  simp only [bucket?, entry?, dates, List.find?_map, named]
  cases b.phases.find? (·.phase == phase) with
  | none => rfl
  | some p => simp [Dict.get?_isSome, PhaseBuckets.dates, Function.comp_def]

theorem bucket?_isSome_of_dates {b b' : Board} (h : b'.dates = b.dates) (phase metric : String) :
    (b'.bucket? phase metric).isSome = (b.bucket? phase metric).isSome := by
  rw [bucket?_isSome, bucket?_isSome, h]

theorem bucket?_isSome_startPhase (b : Board) (phase : String) (now : Nat) (name metric : String) :
    ((b.startPhase phase now).bucket? name metric).isSome = (b.bucket? name metric).isSome := by
  rw [bucket?_startPhase]
  split
  · rw [Option.isSome_map]
  · rfl

end Board

namespace Runner

/-- The phase that a loop takes off the board of a group with a happening. -/
def prunings (r : Runner) : Happening → List (Nat × String × String)
  | .turn loop =>
    match r.loops.next? loop with
    | some (.prune key phase, _) => [(loop, key, phase)]
    | _ => []
  | _ => []

variable {r r' r₀ : Runner} {es es' : List Happening} {b : BucketRef}

section Steps

theorem board?_isSome_modifyBoard (r : Runner) (key : String) (loop : Nat) (f : Board → Board)
    (key' : String) (loop' : Nat) :
    ((r.modifyBoard key loop f).board? key' loop').isSome = (r.board? key' loop').isSome := by
  rw [board?_modifyBoard]
  split
  · exact Option.isSome_map
  · rfl

theorem SameDates.board?_isSome (h : SameDates r r') (key : String) (loop : Nat) :
    (r'.board? key loop).isSome = (r.board? key loop).isSome := by
  have hd := congrArg Option.isSome (h.dates key loop)
  rwa [Option.isSome_map, Option.isSome_map] at hd

theorem Dating.board?_isSome (h : Dating r r') (key : String) (loop : Nat) :
    (r'.board? key loop).isSome = (r.board? key loop).isSome := by
  cases h with
  | same h => exact h.board?_isSome key loop
  | ensure => exact board?_isSome_modifyBoard ..
  | enter => rw [board?_enterGroup]

theorem Passage.board?_isSome (hr : r.loops.Running) (hs : 0 < r.loops.size) {e : Happening}
    (h : Passage r e r') (key : String) (loop : Nat) :
    (r'.board? key loop).isSome = (r.board? key loop).isSome := by
  cases h with
  | survey recent => exact (SameDates.beginSurvey r recent).board?_isSome key loop
  | pruning => exact (SameDates.beginPruning r).board?_isSome key loop
  | @order other t loops _ ht =>
    by_cases hc : t.isStamp = false ∧ ∀ key phase, t ≠ .prune key phase
    · exact (dates_perform other { r with loops := loops } ht hc.1 hc.2).board?_isSome key loop
    · cases t with
      | stamp | prune => exact board?_isSome_modifyBoard { r with loops := loops } ..
      | _ => exact absurd ⟨rfl, nofun⟩ hc
  | stages _ h =>
    exact (h.keep (I := fun q => (q.board? key loop).isSome = (r.board? key loop).isSome) hr hs rfl
      fun _ _ hi h => (h.dating.board?_isSome key loop).trans hi).1

theorem bucket?_isSome_modifyBoard {key : String} {loop : Nat} {f : Board → Board}
    (hf : ∀ c : Board, b.group = key → b.executor = loop →
      ((f c).bucket? b.phase b.metric).isSome = (c.bucket? b.phase b.metric).isSome) :
    ((r.modifyBoard key loop f).bucket? b).isSome = (r.bucket? b).isSome := by
  rw [bucket?, bucket?, board?_modifyBoard]
  split
  · rename_i he
    cases r.board? b.group b.executor with
    | none => rfl
    | some c => exact hf c he.1 he.2
  · rfl

theorem SameDates.bucket?_isSome (h : SameDates r r') (b : BucketRef) :
    (r'.bucket? b).isSome = (r.bucket? b).isSome := by
  have hd := h.dates b.group b.executor
  rw [bucket?, bucket?]
  cases hc : r.board? b.group b.executor with
  | none =>
    rw [hc] at hd
    rw [Option.map_eq_none_iff.mp hd]
  | some c =>
    rw [hc] at hd
    obtain ⟨c', hc', he⟩ := Option.map_eq_some_iff.mp hd
    rw [hc']
    exact Board.bucket?_isSome_of_dates he b.phase b.metric

theorem Dating.bucket?_kept (h : Dating r r') (hb : (r.bucket? b).isSome) :
    (r'.bucket? b).isSome := by
  cases h with
  | same h => rwa [h.bucket?_isSome]
  | @ensure phase key loop metric _ _ =>
    obtain ⟨k, hk⟩ := Option.isSome_iff_exists.mp hb
    obtain ⟨c, hc, hk⟩ := Option.bind_eq_some_iff.mp hk
    obtain ⟨start, made⟩ := c.bucket?_ensure phase metric r.now
    rw [bucket?, board?_modifyBoard, hc]
    split
    · rw [Option.map_some, Option.bind_some, made, hk]
      split <;> rfl
    · rw [Option.bind_some, hk]
      rfl
  | enter =>
    rw [bucket?, board?_enterGroup]
    exact hb

theorem Dating.bucket?_absent (h : Dating r r') (closed : r.Closed b.phase)
    (hb : (r.bucket? b).isSome = false) : (r'.bucket? b).isSome = false := by
  cases h with
  | same h => rwa [h.bucket?_isSome]
  | @ensure phase key loop metric hk ht =>
    refine (bucket?_isSome_modifyBoard fun c _ _ => ?_).trans hb
    obtain ⟨start, made⟩ := c.bucket?_ensure phase metric r.now
    rw [made, if_neg fun he => closed.ne_ensured hk ht he.1]
  | enter =>
    rw [bucket?, board?_enterGroup]
    exact hb

/-- Unless the loop prunes the phase, a bucket that is there stays, and one of a phase that is over
is not made. -/
theorem Passage.bucket?_isSome (o : r.Fenced) (hr : r.loops.Running) (hs : 0 < r.loops.size)
    {e : Happening} (h : Passage r e r') (hn : (b.executor, b.group, b.phase) ∉ r.prunings e) :
    ((r.bucket? b).isSome → (r'.bucket? b).isSome) ∧
      (r.Over b.phase → (r.bucket? b).isSome = false → (r'.bucket? b).isSome = false) := by
  have same : (r'.bucket? b).isSome = (r.bucket? b).isSome →
      ((r.bucket? b).isSome → (r'.bucket? b).isSome) ∧
        (r.Over b.phase → (r.bucket? b).isSome = false → (r'.bucket? b).isSome = false) :=
    fun h => ⟨fun hb => h.trans hb, fun _ hb => h.trans hb⟩
  cases h with
  | survey recent => exact same ((SameDates.beginSurvey r recent).bucket?_isSome b)
  | pruning => exact same ((SameDates.beginPruning r).bucket?_isSome b)
  | @order loop t loops next ht =>
    by_cases hc : t.isStamp = false ∧ ∀ key phase, t ≠ .prune key phase
    · exact same ((dates_perform loop { r with loops := loops } ht hc.1 hc.2).bucket?_isSome b)
    · cases t with
      | stamp key phase time =>
        exact same (bucket?_isSome_modifyBoard (r := { r with loops := loops }) fun c _ _ =>
          c.bucket?_isSome_startPhase phase time b.phase b.metric)
      | prune key phase =>
        refine same (bucket?_isSome_modifyBoard (r := { r with loops := loops }) fun c hg hx => ?_)
        rw [c.bucket?_prune, if_neg]
        intro hp
        rw [hg, hx, hp] at hn
        simp [prunings, next] at hn
      | _ => exact absurd ⟨rfl, nofun⟩ hc
  | stages _ h =>
    refine ⟨fun hb => ?_, fun past hb => ?_⟩
    · exact (h.keep (I := fun q => (q.bucket? b).isSome = true) hr hs hb
        fun _ _ hi h => h.dating.bucket?_kept hi).1
    · exact h.keep_over (I := fun q => (q.bucket? b).isSome = false) o hr hs past hb
        fun _ closed hi h => h.bucket?_absent closed hi

/-- A loop that prunes a phase has no bucket of it left, and the phase is over. -/
theorem Fenced.pruned (o : r.Fenced) {e : Happening} (he : r.after? e = some r')
    (hp : (b.executor, b.group, b.phase) ∈ r.prunings e) :
    (r'.bucket? b).isSome = false ∧ r.Over b.phase := by
  cases e with
  | turn loop =>
    simp only [prunings] at hp
    split at hp
    · rename_i key phase loops next
      have place := List.mem_singleton.mp hp
      simp only [Prod.mk.injEq] at place
      obtain ⟨hx, hg, hph⟩ := place
      simp only [after?, step?_of_next next, Option.some.injEq] at he
      have taken := taken_of_next? o.prompt next rfl
      have ordered : .prune key phase ∈ r.orders loop := by
        rw [taken.first]
        exact List.mem_cons_self
      refine ⟨?_, fun k hk => ?_⟩
      · rw [← he, perform, Telling.perform, bucket?, board?_modifyBoard, if_pos ⟨hg, hx⟩]
        cases hb : Runner.board? { r with loops := loops } b.group b.executor with
        | none => rfl
        | some c => simp [c.bucket?_prune, hph]
      · obtain ⟨time, ended⟩ := o.endedOn (o.seen _ k hk (.inr (.inl ⟨loop, key, hph ▸ ordered⟩)))
        exact ⟨time, ended 0⟩
    · cases hp
  | _ => cases hp

end Steps

section Courses

theorem Course.board?_isSome (h₀ : r₀.Initial) (h : Course r₀ es r) {key : String}
    (hk : key ∈ r.groups.keys) {loop : Nat} (hl : loop < r.loops.size) :
    (r.board? key loop).isSome := by
  have since := Course.refl.lasting h₀ h
  rw [since.groups] at hk
  rw [since.size] at hl
  clear since
  induction h with
  | refl => exact (fresh_of_initial h₀).board?_isSome hk hl
  | next hc ha he ih =>
    have o := hc.owned h₀
    rw [((change_of_after ha he).passage o).board?_isSome o.running o.size]
    exact ih

theorem Course.bucket?_isSome (h₀ : r₀.Initial) (h : Course r₀ es r) (k : Course r es' r')
    (hb : (r.bucket? b).isSome) :
    (r'.bucket? b).isSome ↔ (b.executor, b.group, b.phase) ∉ r.trail prunings es' := by
  have whole : (r'.bucket? b).isSome ∧ (b.executor, b.group, b.phase) ∉ r.trail prunings es' ∨
      (r'.bucket? b).isSome = false ∧ (b.executor, b.group, b.phase) ∈ r.trail prunings es' ∧
        r'.Over b.phase := by
    induction k with
    | refl => exact .inl ⟨hb, List.not_mem_nil⟩
    | @next es' e q q' hc ha he ih =>
      have before := h.trans hc
      have o := before.owned h₀
      have fenced := before.fenced h₀
      have passage := (change_of_after ha he).passage o
      have lasting := passage.lasting fenced (before.measured h₀).alone o.running o.size
      rw [hc.trail_next prunings he, List.mem_append]
      by_cases hp : (b.executor, b.group, b.phase) ∈ q.prunings e
      · obtain ⟨gone, past⟩ := fenced.pruned he hp
        exact .inr ⟨gone, .inr hp, past.lasting o.size lasting⟩
      · obtain ⟨kept, absent⟩ := passage.bucket?_isSome fenced o.running o.size hp
        rcases ih with ⟨there, hn⟩ | ⟨gone, hm, past⟩
        · exact .inl ⟨kept there, fun hm => hm.elim hn hp⟩
        · exact .inr ⟨absent past gone, .inl hm, past.lasting o.size lasting⟩
  rcases whole with ⟨there, hn⟩ | ⟨gone, hm, _⟩
  · exact ⟨fun _ => hn, fun _ => there⟩
  · exact ⟨fun there => by simp [gone] at there, fun hn => absurd hm hn⟩

end Courses

end Runner
end LoadGen
