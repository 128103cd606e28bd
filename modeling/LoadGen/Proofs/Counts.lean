import LoadGen.Proofs.Boards
import LoadGen.Proofs.Requests
import LoadGen.Proofs.Windows

namespace LoadGen

namespace Board

/-- The bucket that is asked for is there afterwards, and the others stay. -/
theorem bucket?_ensure (b : Board) (phase metric : String) (now : Nat) : ∃ start,
    ∀ name m, (b.ensure phase metric now).bucket? name m =
      if name = phase ∧ m = metric then some ((b.bucket? name m).getD (.opened start))
      else b.bucket? name m := ⟨_, b.bucket?_made phase metric now⟩

end Board

namespace Runner

/-- A bucket of the runner, unless it is gone. -/
def bucket? (r : Runner) (b : BucketRef) : Option Bucket :=
  (r.board? b.group b.executor).bind fun c => c.bucket? b.phase b.metric

def SameBuckets (r r' : Runner) : Prop := ∀ c, r'.bucket? c = r.bucket? c

/-- Some events of a request that started at `stamp` are counted in one bucket, unless that is gone.
All other buckets stay as they are. -/
structure Counts (r r' : Runner) (b : BucketRef) (stamp : Nat) (events : List Event) : Prop where
  buckets : ∀ c, r'.bucket? c =
    if c = b then (r.bucket? c).map fun k => events.foldl (·.record stamp ·) k else r.bucket? c
  gains : ∀ k, r.bucket? b = some k → ∃ k', r'.bucket? b = some k' ∧ k.Gains k' stamp events

/-- A request is counted in one bucket, which is made before if need be. All other buckets stay as
they are. -/
def CountsStart (r r' : Runner) (b : BucketRef) (stamp : Nat) : Prop :=
  ∃ start,
    (∀ c, r'.bucket? c =
      if c = b then some (((r.bucket? c).getD (.opened start)).record stamp .request)
      else r.bucket? c) ∧
    ∃ k', r'.bucket? b = some k' ∧
      ((r.bucket? b).getD (.opened start)).Gains k' stamp [.request]

variable {r r₁ r' : Runner}

theorem counts_of_buckets {b : BucketRef} {stamp : Nat} {events : List Event}
    (h : ∀ c, r'.bucket? c =
      if c = b then (r.bucket? c).map fun k => events.foldl (·.record stamp ·) k
      else r.bucket? c) : Counts r r' b stamp events := by
  refine ⟨h, fun k hk => ⟨events.foldl (·.record stamp ·) k, ?_, k.gains_foldl stamp events⟩⟩
  rw [h b, if_pos rfl, hk]
  rfl

theorem countsStart_of_buckets {b : BucketRef} {stamp : Nat} (start : Nat)
    (h : ∀ c, r'.bucket? c =
      if c = b then some (((r.bucket? c).getD (.opened start)).record stamp .request)
      else r.bucket? c) : CountsStart r r' b stamp :=
  ⟨start, h, _, (h b).trans (if_pos rfl), Bucket.gains_foldl _ stamp [.request]⟩

theorem SameBuckets.trans (h : SameBuckets r r₁) (k : SameBuckets r₁ r') : SameBuckets r r' :=
  fun c => (k c).trans (h c)

theorem sameBuckets_of_groups (h : r'.groups = r.groups) : SameBuckets r r' := fun c => by
  rw [bucket?, bucket?, board?, board?, h]

theorem SameRecord.buckets (h : SameRecord r r') : SameBuckets r r' := fun c => by
  rw [bucket?, bucket?, h.ends.boards]

theorem SameBuckets.counts (h : SameBuckets r r') (b : BucketRef) (stamp : Nat) :
    Counts r r' b stamp [] := by
  refine counts_of_buckets fun c => ?_
  rw [h c]
  split
  · cases r.bucket? c <;> rfl
  · rfl

theorem Counts.after {b : BucketRef} {stamp : Nat} {events : List Event} (h : SameBuckets r r₁)
    (k : Counts r₁ r' b stamp events) : Counts r r' b stamp events := by
  refine counts_of_buckets fun c => ?_
  rw [k.buckets c, h c]

theorem counts_measure (r : Runner) (b : BucketRef) (stamp : Nat) (e : Event) :
    Counts r (r.measure b stamp e) b stamp [e] := by
  refine counts_of_buckets fun c => ?_
  obtain ⟨key, loop, phase, metric⟩ := c
  obtain ⟨key', loop', phase', metric'⟩ := b
  simp only [bucket?, measure, board?_modifyBoard, BucketRef.mk.injEq, List.foldl_cons,
    List.foldl_nil]
  by_cases hb : key = key' ∧ loop = loop'
  · obtain ⟨rfl, rfl⟩ := hb
    cases r.board? key loop with
    | none => simp
    | some board => simp [Board.bucket?_update]
  · rw [if_neg hb, if_neg fun h => hb ⟨h.1, h.2.1⟩]

theorem countsStart_startRequest {b : BucketRef} (hb : (r.board? b.group b.executor).isSome)
    (id : Nat) (sequence : Sequence) :
    CountsStart r ((r.modifyBoard b.group b.executor (·.ensure b.phase b.metric r.now)).startRequest
      id sequence b) b r.now := by
  obtain ⟨board, hb⟩ := Option.isSome_iff_exists.mp hb
  obtain ⟨start, made⟩ := board.bucket?_ensure b.phase b.metric r.now
  refine countsStart_of_buckets start fun c => ?_
  have counted := counts_measure
    ((r.modifyBoard b.group b.executor (·.ensure b.phase b.metric r.now)).modifyRequest id
      (·.start r.now r.instant sequence b)) b r.now .request
  refine (counted.buckets c).trans ?_
  obtain ⟨key, loop, phase, metric⟩ := c
  obtain ⟨key', loop', phase', metric'⟩ := b
  dsimp only at hb made
  have view : ∀ t, ((r.modifyBoard key' loop' t).modifyRequest id
      (·.start r.now r.instant sequence ⟨key', loop', phase', metric'⟩)).bucket?
        ⟨key, loop, phase, metric⟩ =
      ((if key = key' ∧ loop = loop' then (r.board? key loop).map t
        else r.board? key loop).bind fun c => c.bucket? phase metric) := by
    intro t
    rw [← board?_modifyBoard]
    rfl
  simp only [view, BucketRef.mk.injEq]
  by_cases hl : key = key' ∧ loop = loop'
  · obtain ⟨rfl, rfl⟩ := hl
    simp only [bucket?, hb, and_self, if_true, Option.map_some, Option.bind_some, made, true_and,
      List.foldl_cons, List.foldl_nil]
    split <;> rfl
  · rw [if_neg hl, if_neg fun h => hl ⟨h.1, h.2.1⟩, if_neg fun h => hl ⟨h.1, h.2.1⟩]
    rfl

end Runner
end LoadGen
