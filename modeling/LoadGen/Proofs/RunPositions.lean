import LoadGen.Proofs.Milestones
import LoadGen.Proofs.WorkFrames

namespace LoadGen.Runner

variable {r r₁ r' : Runner} {log log' : List Milestone} {run : Run}

def Numbered (r : Runner) : Prop := ∀ run ∈ r.runs, run.id < r.runCount

/-- What a list of milestones has of one run. -/
def storyOf (id : Nat) (log : List Milestone) : List Milestone := log.filter (·.run.id = id)

/-- The milestones take every run from where it stood to where it stands. -/
structure Follows (r : Runner) (log : List Milestone) (r' : Runner) : Prop where
  numbered : r'.Numbered
  path : ∀ id, Station.Path (r.station id) (storyOf id log) (r'.station id)

theorem Station.ofRun_cases (run : Run) :
    Station.ofRun run = .ready run.core ∨ Station.ofRun run = .working run.core := by
  unfold Station.ofRun
  split <;> simp

theorem Station.ne_fresh {c : Run} (h : Station.ofRun run = .working c) : run.point ≠ .fresh := by
  intro fresh
  rw [Station.ofRun, fresh] at h
  cases h

section Stations

theorem SameRuns.station (h : SameRuns r r') (id : Nat) : r'.station id = r.station id := by
  rw [Runner.station, Runner.station, h.runs, h.runCount]

theorem SameRuns.numbered (h : SameRuns r r') (hn : r.Numbered) : r'.Numbered := by
  intro run hm
  rw [h.runs] at hm
  rw [h.runCount]
  exact hn run hm

theorem Finds.station (h : r.Finds run) : r.station run.id = .ofRun run := by
  rw [Runner.station, h]

theorem milestones_complete (here : Option Nat) (h : r.Finds run) :
    r.milestones (.deed here (.complete run.id)) = [⟨run, .dropped, r⟩] := by
  rw [milestones, occurrences_complete here h]
  rfl

theorem finds_of_mem (hi : (r.runs.map (·.id)).Nodup) (hm : run ∈ r.runs) : r.Finds run := by
  cases hf : r.runs.find? (·.id == run.id) with
  | none => simpa using List.find?_eq_none.mp hf run hm
  | some other =>
    obtain rfl := List.inj_on_of_nodup_map hi (List.mem_of_find?_eq_some hf) hm (found_id hf)
    exact hf

theorem Numbered.nobody (hn : r.Numbered) : r.runs.find? (·.id == r.runCount) = none :=
  List.find?_eq_none.mpr fun run hm => by simpa using Nat.ne_of_lt (hn run hm)

theorem Numbered.unborn (hn : r.Numbered) : r.station r.runCount = .unborn := by
  simp [station, hn.nobody]

theorem numbered_setPoint (hn : r.Numbered) (run : Run) (p : Point) :
    (r.setPoint run p).Numbered := by
  intro other hm
  obtain ⟨o, ho, rfl⟩ := List.mem_map.mp hm
  split <;> exact hn o ho

theorem find_setPoint (r : Runner) (run : Run) (p : Point) (id : Nat) :
    (r.setPoint run p).runs.find? (·.id == id) = (r.runs.find? (·.id == id)).map fun other =>
      if other.id = run.id then { other with point := p } else other := by
  have ids : (fun other : Run => (if other.id = run.id then { other with point := p }
      else other : Run).id == id) = fun other => other.id == id := by
    funext other
    split <;> rfl
  rw [setPoint, List.find?_map, Function.comp_def, ids]

theorem station_setPoint (h : r.Finds run) (p : Point) :
    (r.setPoint run p).station run.id = .ofRun { run with point := p } := by
  rw [station, find_setPoint, h]
  simp

theorem station_setPoint_other {id : Nat} (h : id ≠ run.id) (p : Point) :
    (r.setPoint run p).station id = r.station id := by
  rw [station, station, find_setPoint]
  cases hf : r.runs.find? (·.id == id) with
  | none => rfl
  | some other => simp [found_id hf, h]

/-- A run ends: what else goes on when its session has been stopped is no work. -/
theorem keepsWork_unwind (here : Option Nat) (run : Run) (r : Runner) :
    KeepsWork (stopSession { r with runs := r.runs.filter (·.id != run.id) } run.session)
      (r.unwind here run) := by
  have ended := unwinds here run r
  generalize r.unwind here run = r' at ended ⊢
  cases ended with
  | nowhere => exact .refl _
  | keeps _ left => exact left.routine.keepsWork
  | givesBack _ left =>
    have given : ∀ (q : Runner) key, KeepsWork q (q.giveBack key run.session) :=
      fun _ _ => .elsewhere rfl rfl rfl rfl
    exact (given ..).trans left.routine.keepsWork

theorem sameRuns_unwind (here : Option Nat) (run : Run) (r : Runner) :
    SameRuns { r with runs := r.runs.filter (·.id != run.id) } (r.unwind here run) :=
  (onRequests_stopSession _ _).sameRuns.trans (keepsWork_unwind here run r).toSameRuns

theorem numbered_unwind (here : Option Nat) (hn : r.Numbered) : (r.unwind here run).Numbered :=
  (sameRuns_unwind here run r).numbered fun other hm => hn other (List.mem_filter.mp hm).1

theorem station_unwind (here : Option Nat) (hm : run.id < r.runCount) :
    (r.unwind here run).station run.id = .past := by
  have gone : (r.runs.filter (·.id != run.id)).find? (·.id == run.id) = none := by
    simp
  rw [(sameRuns_unwind here run r).station, station]
  simp only [gone, hm, if_true]

theorem station_unwind_other (here : Option Nat) {id : Nat} (h : id ≠ run.id) :
    (r.unwind here run).station id = r.station id := by
  have kept : (r.runs.filter (·.id != run.id)).find? (·.id == id) =
      r.runs.find? (·.id == id) := by
    rw [List.find?_filter]
    congr 1
    funext other
    by_cases he : other.id = id <;> simp [he, h]
  rw [(sameRuns_unwind here run r).station, station, station]
  simp only [kept]

end Stations

section Follows

theorem storyOf_append (id : Nat) (log log' : List Milestone) :
    storyOf id (log ++ log') = storyOf id log ++ storyOf id log' := List.filter_append ..

theorem storyOf_of_mine (h : ∀ m ∈ log, m.run.id = run.id) : storyOf run.id log = log :=
  List.filter_eq_self.mpr fun m hm => by simp [h m hm]

theorem storyOf_of_others {id : Nat} (h : ∀ m ∈ log, m.run.id = run.id) (hn : id ≠ run.id) :
    storyOf id log = [] :=
  List.filter_eq_nil_iff.mpr fun m hm => by simpa [h m hm] using Ne.symm hn

namespace Follows

theorem still (hn : r.Numbered) (h : SameRuns r r') : Follows r [] r' where
  numbered := h.numbered hn
  path := fun id => by
    rw [h.station]
    exact .refl _

theorem trans (h : Follows r log r₁) (k : Follows r₁ log' r') : Follows r (log ++ log') r' where
  numbered := k.numbered
  path := fun id => by
    rw [storyOf_append]
    exact (h.path id).trans (k.path id)

end Follows

/-- One run comes to the station; the others stay where they are. -/
structure Moves (run : Run) (s : Station) (r r' : Runner) : Prop where
  numbered : r'.Numbered
  mine : r'.station run.id = s
  others : ∀ id, id ≠ run.id → r'.station id = r.station id

namespace Moves
variable {s : Station}

theorem after (h : SameRuns r r₁) (k : Moves run s r₁ r') : Moves run s r r' :=
  { k with others := fun id hne => (k.others id hne).trans (h.station id) }

theorem follows (h : Moves run s r r') (hl : ∀ m ∈ log, m.run.id = run.id)
    (hp : Station.Path (r.station run.id) log s) : Follows r log r' where
  numbered := h.numbered
  path := by
    intro id
    by_cases he : id = run.id
    · subst he
      rw [storyOf_of_mine hl, h.mine]
      exact hp
    · rw [storyOf_of_others hl he, h.others id he]
      exact .refl _

end Moves

theorem moves_unwind (here : Option Nat) (hn : r.Numbered) (hm : run ∈ r.runs) :
    Moves run .past r (r.unwind here run) where
  numbered := numbered_unwind here hn
  mine := station_unwind here (hn run hm)
  others := fun _ => station_unwind_other here

theorem moves_setPoint (hn : r.Numbered) (h : r.Finds run) (p : Point) :
    Moves run (.ofRun { run with point := p }) r (r.setPoint run p) where
  numbered := numbered_setPoint hn run p
  mine := station_setPoint h p
  others := fun _ hne => station_setPoint_other hne p

theorem moves_putOff (hn : r.Numbered) (h : r.Finds run) :
    Moves run (.ready run.core) r (putOff run r) := by
  have off := moves_setPoint hn h .fresh
  exact ⟨off.numbered, off.mine, off.others⟩

end Follows

end LoadGen.Runner
