import LoadGen.Runner.Pacing

namespace LoadGen.Runner

/-- What comes of a phase asking for a session. -/
inductive Answers (r : Runner) (phase : String) : Answer → Runner → Prop
  | refused : Answers r phase .refused r
  | short {i : Instance} {key : String} {g : Group} {r' : Runner} :
      r.instances.get? phase = some i → r.groupOf? i.phase = some (key, g) →
        i.standing.status = .running → r.acquire key = (none, r') → Answers r phase .short r'
  | granted {i : Instance} {key : String} {g : Group} {session : Nat} {r₁ : Runner} :
      r.instances.get? phase = some i → r.groupOf? i.phase = some (key, g) →
        i.standing.status = .running → r.acquire key = (some session, r₁) →
          Answers r phase .granted (r₁.employ session phase)

/-- How a phase that is paced gets its sessions. It asks for one after the other; then its pacer is
set, and called again. -/
inductive Hires (name : String) : Runner → List Occurrence → Runner → Prop
  | refl {r : Runner} : Hires name r [] r
  | asks {r : Runner} : Hires name r [.asks name r] (r.startSession name).2
  | sets {r : Runner} (p : Pacer) : Hires name r [] { r with pacers := r.pacers.insert name p }
  | calls {r : Runner} : Hires name r [] (r.push 0 (.pace name))
  | arms {r : Runner} (due : Duration) :
      Hires name r [] { r with loops := r.loops.armAt 0 due (.pace name) }
  | trans {r q r' : Runner} {log later : List Occurrence} :
      Hires name r log q → Hires name q later r' → Hires name r (log ++ later) r'

/-- What comes of the turn of a phase that is said to be paced. -/
inductive Paces (phase : String) (r : Runner) : List Occurrence → Runner → Prop
  | idle : Paces phase r [] r
  | stops : Paces phase r [] { r with pacers := r.pacers.erase phase }
  | hires {i : Instance} {schedule : Schedule Float} {most : Nat} {log : List Occurrence}
      {r' : Runner} : r.instances.get? phase = some i → i.phase.model = .paced schedule most →
        Hires i.phase.name r log r' → Paces phase r log r'

theorem answers (r : Runner) (phase : String) :
    Answers r phase (r.startSession phase).1 (r.startSession phase).2 := by
  unfold startSession
  split
  · exact .refused
  · rename_i i hi
    split
    · exact .refused
    · rename_i key g hg
      split
      · rename_i running
        split <;> rename_i ha
        · exact .short hi hg running ha
        · exact .granted hi hg running ha
      · exact .refused

theorem hires_startSessions (name : String) (n : Nat) (r : Runner) :
    Hires name r (Telling.startSessions name n r).1 (startSessions name n r) := by
  unfold startSessions
  induction n generalizing r with
  | zero => exact .refl
  | succ n ih =>
    have once := @Hires.asks name r
    simp only [Telling.startSessions]
    split <;> rename_i q h <;> rw [h] at once
    · exact once.trans (ih q)
    · exact once

theorem hires_makeTicks (phase : Phase) (schedule : Schedule Float) (most : Nat)
    (elapsed : Duration) (n : Nat) (carry : Float) (r : Runner) :
    Hires phase.name r (Telling.makeTicks phase schedule most elapsed n carry r).1
      (Telling.makeTicks phase schedule most elapsed n carry r).2.2 := by
  induction n generalizing carry r with
  | zero => exact .refl
  | succ n ih => exact (hires_startSessions phase.name _ r).trans (ih _ _)

theorem hires_makeDue (phase : Phase) (schedule : Schedule Float) (most : Nat) (p : Pacer)
    (r : Runner) : Hires phase.name r (Telling.makeDue phase schedule most p r).1
      (Telling.makeDue phase schedule most p r).2 := by
  have ticks := hires_makeTicks phase schedule most ⟨r.paceClock.nanos - p.startedAt.nanos⟩
    (min (ticksDue r.paceClock p.nextTick phase.tick) ticksPerTurn) p.carry r
  unfold Telling.makeDue
  dsimp only
  generalize Telling.makeTicks phase schedule most _ _ p.carry r = made at ticks ⊢
  rw [← List.append_nil made.1]
  apply ticks.trans
  split
  · exact (Hires.sets _).trans .calls
  · exact (Hires.arms _).trans (.sets _)

theorem paces (phase : String) (r : Runner) :
    Paces phase r (Telling.pace phase r).1 (r.pace phase) := by
  unfold pace Telling.pace
  split
  · rename_i i hi
    split
    · rename_i schedule most hm
      split
      · exact .hires hi hm (hires_makeDue ..)
      · exact .stops
    · exact .idle
  · exact .idle

theorem Hires.mem {name : String} {r r' : Runner} {log : List Occurrence}
    (h : Hires name r log r') : ∀ o ∈ log, ∃ q, o = .asks name q := by
  induction h with
  | asks => exact List.forall_mem_singleton.mpr ⟨_, rfl⟩
  | trans _ _ ih later => exact List.forall_mem_append.mpr ⟨ih, later⟩
  | _ => exact List.forall_mem_nil _

theorem Paces.mem {phase : String} {r r' : Runner} {log : List Occurrence}
    (h : Paces phase r log r') : ∀ o ∈ log, ∃ name q, o = .asks name q := by
  cases h with
  | hires _ _ h => exact fun o ho => ⟨_, h.mem o ho⟩
  | _ => exact List.forall_mem_nil _

end LoadGen.Runner
