import LoadGen.Proofs.QueuedTurns

namespace LoadGen

/-- The tasks that concern the measurements. The others concern sessions. -/
def Task.isOrder : Task → Bool
  | .stamp .. | .seal _ | .announce _ | .read .. | .prune .. => true
  | .resume _ | .pace _ | .expire _ => false

/-- Nothing of an iteration is left in the session. -/
structure Session.Calm (s : Session) : Prop where
  inFlight : s.inFlight = []
  current : s.current = none
  sequence : s.sequence = none

/-- Where a session belongs: its group, its loop and the phase that it runs for. -/
def Session.place (s : Session) : String × Nat × Option String := (s.group, s.executor, s.phase)

/-- A run without the point that it has come to. -/
def Run.core (run : Run) : Run := { run with point := .fresh }

theorem Run.core_eq {a b : Run} (h : a.core = b.core) :
    a.id = b.id ∧ a.session = b.session ∧ a.phase = b.phase := by
  simpa only [core, Run.mk.injEq, and_true] using h

/-- A phase without its failure and its flag. -/
def Instance.core (i : Instance) : Instance :=
  { i with standing := { i.standing with failure := none, limitExceeded := false } }

namespace Instance
variable {i j : Instance}

theorem core_phase (h : j.core = i.core) : j.phase = i.phase := (Instance.mk.inj h).1

theorem core_standing (h : j.core = i.core) :
    { j.standing with failure := none, limitExceeded := false } =
      { i.standing with failure := none, limitExceeded := false } := (Instance.mk.inj h).2

theorem core_status (h : j.core = i.core) : j.standing.status = i.standing.status :=
  (Standing.mk.inj (core_standing h)).1

theorem core_active (h : j.core = i.core) : j.standing.active = i.standing.active :=
  (Standing.mk.inj (core_standing h)).2.2.1

theorem core_startedAt (h : j.core = i.core) : j.standing.startedAt = i.standing.startedAt :=
  (Standing.mk.inj (core_standing h)).2.2.2.1

theorem core_terminatedAt (h : j.core = i.core) :
    j.standing.terminatedAt = i.standing.terminatedAt :=
  (Standing.mk.inj (core_standing h)).2.2.2.2.2.1

end Instance

/-- A phase, its status, and when it terminated. -/
def Instance.state (i : Instance) : Phase × Status × Option Nat :=
  (i.phase, i.standing.status, i.standing.terminatedAt)

/-- The free sessions of a group, how many sessions it has made, and how many it may make. -/
def Group.stock (g : Group) : List Nat × Nat × Nat := (g.pool.free, g.pool.created, g.pool.max)

/-- The phase that a group started last, and its measurements. -/
def Group.record (g : Group) : Option String × List Board := (g.current, g.boards)

def Entry.notice? : Entry → Option (String × Notice)
  | .notice phase n => some (phase, n)
  | _ => none

namespace Runner

/-- The notices that the listener got, in order. -/
def notices (r : Runner) : List (String × Notice) := r.journal.filterMap Entry.notice?

/-- The orders that wait on a loop, in order. -/
def orders (r : Runner) (loop : Nat) : List Task := (r.loops.posted loop).filter Task.isOrder

/-- No order waits for a timer, or has waited for one. -/
def Prompt (r : Runner) : Prop := ∀ loop, ∀ t ∈ r.loops.timed loop, t.isOrder = false

/-- Who holds which session is the same, and so is the state of the phases, apart from what went
wrong with them. A session without a run has nothing new under way. -/
structure SameHolders (r r' : Runner) : Prop where
  size : r'.loops.size = r.loops.size
  running : r.loops.Running → r'.loops.Running
  names : r'.instances.keys = r.instances.keys
  instances : ∀ name,
    (r'.instances.get? name).map Instance.core = (r.instances.get? name).map Instance.core
  groups : ∀ key, (r'.groups.get? key).map Group.stock = (r.groups.get? key).map Group.stock
  population : r'.sessions.length = r.sessions.length
  sessions : ∀ id s', r'.sessions[id]? = some s' →
    ∃ s, r.sessions[id]? = some s ∧ s'.place = s.place ∧ (s.Calm → s'.Calm ∨ r.AtWork id)
  runs : r'.runs.map Run.core = r.runs.map Run.core
  runCount : r'.runCount = r.runCount

/-- What is measured is the same, and so is everything on the way to its end. -/
structure SameRecord (r r' : Runner) : Prop where
  size : r'.loops.size = r.loops.size
  running : r.loops.Running → r'.loops.Running
  states : ∀ name,
    (r'.instances.get? name).map Instance.state = (r.instances.get? name).map Instance.state
  groups : r'.groups.keys = r.groups.keys
  records : ∀ key, (r'.groups.get? key).map Group.record = (r.groups.get? key).map Group.record
  fences : r'.fences = r.fences
  surveys : r'.surveys = r.surveys
  pruneQueue : r'.pruneQueue = r.pruneQueue
  listening : r'.listening = r.listening
  notices : r'.notices = r.notices
  orders : ∀ loop, r'.orders loop = r.orders loop
  prompt : r.Prompt → r'.Prompt

def nobody (_ : Nat) : Prop := False

/-- Neither the holders nor the record change, and no time passes. Runs may get new turns. -/
structure Aside (may : Nat → Prop) (r r' : Runner) : Prop where
  holders : SameHolders r r'
  record : SameRecord r r'
  calls : SameCalls may r r'
  now : r'.now = r.now

theorem atWork_iff {r r' : Runner} (h : r'.runs.map Run.core = r.runs.map Run.core)
    (session : Nat) : r'.AtWork session ↔ r.AtWork session := by
  have key : ∀ q : Runner, q.AtWork session ↔ ∃ c ∈ q.runs.map Run.core, c.session = session := by
    intro q
    constructor
    · intro held
      obtain ⟨run, hm, he⟩ := held
      exact ⟨run.core, List.mem_map_of_mem hm, he⟩
    · intro held
      obtain ⟨c, hc, he⟩ := held
      obtain ⟨run, hm, rfl⟩ := List.mem_map.mp hc
      exact ⟨run, hm, he⟩
  rw [key, key, h]

namespace SameHolders

theorem elsewhere {r r' : Runner} (hl : r'.loops = r.loops) (hi : r'.instances = r.instances)
    (hg : r'.groups = r.groups) (hs : r'.sessions = r.sessions) (hr : r'.runs = r.runs)
    (hc : r'.runCount = r.runCount) : SameHolders r r' where
  size := by rw [hl]
  running := by rw [hl]; exact id
  names := by rw [hi]
  instances := by rw [hi]; exact fun _ => rfl
  groups := by rw [hg]; exact fun _ => rfl
  population := by rw [hs]
  sessions := by rw [hs]; exact fun id s h => ⟨s, h, rfl, .inl⟩
  runs := by rw [hr]
  runCount := hc

theorem refl (r : Runner) : SameHolders r r := elsewhere rfl rfl rfl rfl rfl rfl

theorem trans {r₁ r₂ r₃ : Runner} (h : SameHolders r₁ r₂) (k : SameHolders r₂ r₃) :
    SameHolders r₁ r₃ where
  size := k.size.trans h.size
  running := k.running ∘ h.running
  names := k.names.trans h.names
  instances := fun name => (k.instances name).trans (h.instances name)
  groups := fun key => (k.groups key).trans (h.groups key)
  population := k.population.trans h.population
  sessions := by
    intro id s₃ h₃
    obtain ⟨s₂, h₂, hp, hc⟩ := k.sessions id s₃ h₃
    obtain ⟨s₁, h₁, hq, hd⟩ := h.sessions id s₂ h₂
    refine ⟨s₁, h₁, hp.trans hq, fun calm => ?_⟩
    rcases hd calm with calm | work
    · exact (hc calm).imp_right (atWork_iff h.runs id).mp
    · exact .inr work
  runs := k.runs.trans h.runs
  runCount := k.runCount.trans h.runCount

theorem foldl {α : Type} {f : Runner → α → Runner} (h : ∀ r a, SameHolders r (f r a)) (r : Runner)
    (l : List α) : SameHolders r (l.foldl f r) := by
  induction l generalizing r with
  | nil => exact refl r
  | cons a l ih => exact (h r a).trans (ih (f r a))

theorem modifyInstance (r : Runner) {phase : String} {f : Instance → Instance}
    (h : ∀ i, r.instances.get? phase = some i → (f i).core = i.core) :
    SameHolders r (r.modifyInstance phase f) :=
  { refl r with
    names := Dict.keys_modify ..
    instances := Dict.map_get?_modify h }

theorem modifyGroup (r : Runner) {key : String} {f : Group → Group}
    (h : ∀ g, r.groups.get? key = some g → (f g).stock = g.stock) :
    SameHolders r (r.modifyGroup key f) :=
  { refl r with groups := Dict.map_get?_modify h }

theorem modifyBoard (r : Runner) (key : String) (executor : Nat) (f : Board → Board) :
    SameHolders r (r.modifyBoard key executor f) := modifyGroup r fun _ _ => rfl

theorem modifySession (r : Runner) {id : Nat} {f : Session → Session}
    (hp : ∀ s, (f s).place = s.place) (hc : ∀ s, s.Calm → (f s).Calm ∨ r.AtWork id) :
    SameHolders r (r.modifySession id f) :=
  { refl r with
    population := List.length_modify ..
    sessions := by
      intro other s' h
      simp only [Runner.modifySession, List.getElem?_modify] at h
      split at h
      · rename_i he
        subst he
        obtain ⟨s, hs, rfl⟩ := Option.map_eq_some_iff.mp h
        exact ⟨s, hs, hp s, hc s⟩
      · exact ⟨s', by simpa using h, rfl, .inl⟩ }

theorem onLoops (r : Runner) {loops : LoopGroup Task} (hs : loops.size = r.loops.size)
    (hr : r.loops.Running → loops.Running) : SameHolders r { r with loops := loops } :=
  { refl r with
    size := hs
    running := hr }

theorem push (r : Runner) (executor : Nat) (t : Task) : SameHolders r (r.push executor t) :=
  onLoops r (LoopGroup.size_push ..) fun h => LoopGroup.running_push h executor t

theorem setPoint (r : Runner) (run : Run) (p : Point) : SameHolders r (r.setPoint run p) :=
  { refl r with
    runs := by
      simp only [Runner.setPoint, List.map_map]
      apply List.map_congr_left
      intro other _
      simp only [Function.comp]
      split <;> rfl }

variable {r r' : Runner}

theorem executorOf_eq (h : SameHolders r r') (session : Nat) :
    r'.executorOf session = r.executorOf session := by
  unfold Runner.executorOf session?
  cases hs : r'.sessions[session]? with
  | none =>
    have hn := List.getElem?_eq_none_iff.mp hs
    rw [h.population] at hn
    rw [List.getElem?_eq_none hn]
  | some s' =>
    obtain ⟨s, hs, hp, _⟩ := h.sessions session s' hs
    simp only [Session.place, Prod.mk.injEq] at hp
    simp [hs, hp.2.1]

theorem calls_iff (h : SameHolders r r') {id loop : Nat} :
    r'.Calls id loop ↔ r.Calls id loop := by
  have look : ∀ q : Runner, q.Calls id loop ↔
      ∃ c ∈ q.runs.map Run.core, c.id = id ∧ q.executorOf c.session = loop := by
    intro q
    constructor
    · intro held
      obtain ⟨run, hm, hid, hl⟩ := held
      exact ⟨run.core, List.mem_map_of_mem hm, hid, hl⟩
    · intro held
      obtain ⟨c, hc, hid, hl⟩ := held
      obtain ⟨run, hm, rfl⟩ := List.mem_map.mp hc
      exact ⟨run, hm, hid, hl⟩
  simp only [look, h.runs, h.executorOf_eq]

end SameHolders

/-- Who holds which session is the same, and runs get turns only where they live. No time passes. -/
structure Beside (may : Nat → Prop) (r r' : Runner) : Prop where
  holders : SameHolders r r'
  calls : SameCalls may r r'
  now : r'.now = r.now

namespace Beside
variable {may : Nat → Prop}

theorem elsewhere {r r' : Runner} (hl : r'.loops = r.loops) (hi : r'.instances = r.instances)
    (hg : r'.groups = r.groups) (hs : r'.sessions = r.sessions) (hr : r'.runs = r.runs)
    (hc : r'.runCount = r.runCount) (hn : r'.now = r.now) : Beside may r r' :=
  ⟨.elsewhere hl hi hg hs hr hc, .elsewhere hl, hn⟩

theorem refl (r : Runner) : Beside may r r := elsewhere rfl rfl rfl rfl rfl rfl rfl

theorem trans {r₁ r₂ r₃ : Runner} (h : Beside may r₁ r₂) (k : Beside may r₂ r₃) :
    Beside may r₁ r₃ :=
  ⟨h.holders.trans k.holders, h.calls.trans (fun _ _ => h.holders.calls_iff.mp) k.calls,
    k.now.trans h.now⟩

theorem foldl {α : Type} {f : Runner → α → Runner} (h : ∀ r a, Beside may r (f r a)) (r : Runner)
    (l : List α) : Beside may r (l.foldl f r) := by
  induction l generalizing r with
  | nil => exact refl r
  | cons a l ih => exact (h r a).trans (ih (f r a))

theorem modifyBoard (r : Runner) (key : String) (executor : Nat) (f : Board → Board) :
    Beside may r (r.modifyBoard key executor f) := ⟨.modifyBoard r .., .elsewhere rfl, rfl⟩

theorem push (r : Runner) (executor : Nat) {t : Task} (hs : t.isStamp = false)
    (hr : t.isTurn = false) : Beside may r (r.push executor t) := by
  refine ⟨.push r executor t, .push r hs ?_, rfl⟩
  rintro id rfl
  cases hr

end Beside

namespace SameRecord

theorem elsewhere {r r' : Runner} (hl : r'.loops = r.loops) (hi : r'.instances = r.instances)
    (hg : r'.groups = r.groups) (hf : r'.fences = r.fences) (hs : r'.surveys = r.surveys)
    (hp : r'.pruneQueue = r.pruneQueue) (hn : r'.listening = r.listening)
    (hj : r'.journal = r.journal) : SameRecord r r' where
  size := by rw [hl]
  running := by rw [hl]; exact id
  states := by rw [hi]; exact fun _ => rfl
  groups := by rw [hg]
  records := by rw [hg]; exact fun _ => rfl
  fences := hf
  surveys := hs
  pruneQueue := hp
  listening := hn
  notices := by rw [Runner.notices, hj]; rfl
  orders := by simp only [Runner.orders, hl, implies_true]
  prompt := by simp only [Prompt, hl, imp_self]

theorem refl (r : Runner) : SameRecord r r := elsewhere rfl rfl rfl rfl rfl rfl rfl rfl

theorem boards {r r' : Runner} (h : SameRecord r r') (key : String) :
    (r'.groups.get? key).map Group.boards = (r.groups.get? key).map Group.boards := by
  have hr := congrArg (Option.map Prod.snd) (h.records key)
  rw [Option.map_map, Option.map_map] at hr
  exact hr

theorem trans {r₁ r₂ r₃ : Runner} (h : SameRecord r₁ r₂) (k : SameRecord r₂ r₃) :
    SameRecord r₁ r₃ where
  size := k.size.trans h.size
  running := k.running ∘ h.running
  states := fun name => (k.states name).trans (h.states name)
  groups := k.groups.trans h.groups
  records := fun key => (k.records key).trans (h.records key)
  fences := k.fences.trans h.fences
  surveys := k.surveys.trans h.surveys
  pruneQueue := k.pruneQueue.trans h.pruneQueue
  listening := k.listening.trans h.listening
  notices := k.notices.trans h.notices
  orders := fun loop => (k.orders loop).trans (h.orders loop)
  prompt := k.prompt ∘ h.prompt

theorem modifyInstance (r : Runner) {phase : String} {f : Instance → Instance}
    (h : ∀ i, r.instances.get? phase = some i → (f i).state = i.state) :
    SameRecord r (r.modifyInstance phase f) :=
  { refl r with states := Dict.map_get?_modify h }

theorem modifyGroup (r : Runner) {key : String} {f : Group → Group}
    (h : ∀ g, r.groups.get? key = some g → (f g).record = g.record) :
    SameRecord r (r.modifyGroup key f) :=
  { refl r with
    groups := Dict.keys_modify ..
    records := Dict.map_get?_modify h }

theorem modifySession (r : Runner) (id : Nat) (f : Session → Session) :
    SameRecord r (r.modifySession id f) := elsewhere rfl rfl rfl rfl rfl rfl rfl rfl

theorem onLoops (r : Runner) {loops : LoopGroup Task} (h : LoopGroup.Quiet r.loops loops)
    (ht : ∀ loop, ∀ t ∈ loops.timed loop,
      t.isOrder = false ∨ ∃ other, t ∈ r.loops.timed other) :
    SameRecord r { r with loops := loops } :=
  { refl r with
    size := h.size
    running := h.running
    orders := fun loop => by simp only [Runner.orders, h.posted]
    prompt := by
      intro hr loop t hm
      rcases ht loop t hm with hn | ⟨other, ho⟩
      · exact hn
      · exact hr other t ho }

theorem push (r : Runner) (executor : Nat) {t : Task} (h : t.isOrder = false) :
    SameRecord r (r.push executor t) :=
  { refl r with
    size := LoopGroup.size_push ..
    running := fun hr => LoopGroup.running_push hr executor t
    orders := by
      intro loop
      simp only [Runner.orders, Runner.push]
      rcases LoopGroup.posted_push_or r.loops executor t loop with he | he
      · rw [he]
      · rw [he, List.filter_append]
        simp [h]
    prompt := fun hr loop u hu => hr loop u (LoopGroup.timed_push hu) }

theorem log (r : Runner) {e : Entry} (h : e.notice? = none) : SameRecord r (r.log e) :=
  { refl r with
    notices := by simp [Runner.notices, Runner.log, h] }

end SameRecord

namespace Aside
variable {may : Nat → Prop}

theorem elsewhere {r r' : Runner} (hl : r'.loops = r.loops) (hi : r'.instances = r.instances)
    (hg : r'.groups = r.groups) (he : r'.sessions = r.sessions) (hr : r'.runs = r.runs)
    (hc : r'.runCount = r.runCount) (hf : r'.fences = r.fences) (hs : r'.surveys = r.surveys)
    (hp : r'.pruneQueue = r.pruneQueue) (hn : r'.listening = r.listening)
    (hj : r'.journal = r.journal) (hw : r'.now = r.now) : Aside may r r' :=
  ⟨.elsewhere hl hi hg he hr hc, .elsewhere hl hi hg hf hs hp hn hj, .elsewhere hl, hw⟩

theorem refl (r : Runner) : Aside may r r := ⟨.refl r, .refl r, .refl r, rfl⟩

theorem beside {r r' : Runner} (h : Aside may r r') : Beside may r r' :=
  ⟨h.holders, h.calls, h.now⟩

theorem trans {r₁ r₂ r₃ : Runner} (h : Aside may r₁ r₂) (k : Aside may r₂ r₃) : Aside may r₁ r₃ :=
  ⟨h.holders.trans k.holders, h.record.trans k.record, (h.beside.trans k.beside).calls,
    k.now.trans h.now⟩

theorem foldl {α : Type} {f : Runner → α → Runner} (h : ∀ r a, Aside may r (f r a)) (r : Runner)
    (l : List α) : Aside may r (l.foldl f r) := by
  induction l generalizing r with
  | nil => exact refl r
  | cons a l ih => exact (h r a).trans (ih (f r a))

theorem modifyRequest (r : Runner) (id : Nat) (f : Request → Request) :
    Aside may r (r.modifyRequest id f) := 
  elsewhere rfl rfl rfl rfl rfl rfl rfl rfl rfl rfl rfl rfl

theorem modifyInstance (r : Runner) {phase : String} {f : Instance → Instance}
    (h : ∀ i, (f i).core = i.core) : Aside may r (r.modifyInstance phase f) where
  holders := .modifyInstance r fun i _ => h i
  record := .modifyInstance r fun i _ => by
    rw [Instance.state, Instance.state, Instance.core_phase (h i), Instance.core_status (h i),
      Instance.core_terminatedAt (h i)]
  calls := .elsewhere rfl
  now := rfl

theorem modifyGroup (r : Runner) {key : String} {f : Group → Group}
    (hs : ∀ g, (f g).stock = g.stock) (hb : ∀ g, (f g).record = g.record) :
    Aside may r (r.modifyGroup key f) :=
  ⟨.modifyGroup r fun g _ => hs g, .modifyGroup r fun g _ => hb g, .elsewhere rfl, rfl⟩

theorem modifySession (r : Runner) {id : Nat} {f : Session → Session}
    (hp : ∀ s, (f s).place = s.place) (hc : ∀ s, s.Calm → (f s).Calm ∨ r.AtWork id) :
    Aside may r (r.modifySession id f) :=
  ⟨.modifySession r hp hc, .modifySession r id f, .elsewhere rfl, rfl⟩

theorem onLoops (r : Runner) {loops : LoopGroup Task} (h : LoopGroup.Quiet r.loops loops)
    (ht : ∀ loop, ∀ t ∈ loops.timed loop,
      (t.isOrder = false ∧ ∀ id, t = .resume id → may id) ∨ ∃ other, t ∈ r.loops.timed other) :
    Aside may r { r with loops := loops } where
  holders := .onLoops r h.size h.running
  record := .onLoops r h fun loop t hm => (ht loop t hm).imp_left (·.1)
  calls := .onLoops r h.posted fun loop id hm => (ht loop _ hm).imp_left (·.2 id rfl)
  now := rfl

theorem push (r : Runner) (executor : Nat) {t : Task} (h : t.isOrder = false)
    (hr : t.isTurn = false) : Aside may r (r.push executor t) := by
  have beside : Beside may r (r.push executor t) := by
    apply Beside.push r executor _ hr
    cases t <;> first | rfl | cases h
  exact ⟨beside.holders, .push r executor h, beside.calls, rfl⟩

theorem call {r : Runner} {id executor : Nat} (h : r.Calls id executor) :
    Aside may r (r.push executor (.resume id)) where
  holders := .push r executor (.resume id)
  record := .push r executor rfl
  calls := by
    apply SameCalls.push r rfl
    intro other he
    cases he
    exact h
  now := rfl

theorem log (r : Runner) {e : Entry} (h : e.notice? = none) : Aside may r (r.log e) :=
  ⟨.elsewhere rfl rfl rfl rfl rfl rfl, .log r h, .elsewhere rfl, rfl⟩

theorem setPoint (r : Runner) (run : Run) (p : Point) : Aside may r (r.setPoint run p) :=
  ⟨.setPoint r run p, .elsewhere rfl rfl rfl rfl rfl rfl rfl rfl, .elsewhere rfl, rfl⟩

theorem arm (r : Runner) (executor : Nat) (delay : Duration) {t : Task} (h : t.isOrder = false)
    (hr : ∀ id, t = .resume id → may id) :
    Aside may r { r with loops := (r.loops.arm executor delay t).2 } := by
  apply onLoops r (LoopGroup.quiet_arm ..)
  intro loop u hu
  rcases LoopGroup.timed_arm hu with rfl | ho
  · exact .inl ⟨h, hr⟩
  · exact .inr ho

theorem armAt (r : Runner) (executor : Nat) (due : Duration) {t : Task} (h : t.isOrder = false)
    (hr : ∀ id, t = .resume id → may id) :
    Aside may r { r with loops := r.loops.armAt executor due t } := by
  apply onLoops r (LoopGroup.quiet_armAt ..)
  intro loop u hu
  rcases LoopGroup.timed_armAt hu with rfl | ho
  · exact .inl ⟨h, hr⟩
  · exact .inr ho

theorem disarm (r : Runner) (executor id : Nat) :
    Aside may r { r with loops := r.loops.disarm executor id } :=
  onLoops r (LoopGroup.quiet_disarm ..) fun _ _ hu => .inr (LoopGroup.timed_disarm hu)

theorem advance (r : Runner) (executor : Nat) (time : Duration) :
    Aside may r { r with loops := r.loops.advance executor time } :=
  onLoops r (LoopGroup.quiet_advance ..) fun _ _ hu => .inr (LoopGroup.timed_advance hu)

theorem take {r : Runner} {executor : Nat} {t : Task} {loops : LoopGroup Task}
    (h : r.loops.next? executor = some (t, loops)) (ht : t.isOrder = false) :
    Aside may r { r with loops := loops } := by
  have took := LoopGroup.took_of_next? h
  refine ⟨.onLoops r took.size took.running, { SameRecord.refl r with
    size := took.size
    running := took.running
    orders := fun loop => ?_
    prompt := fun hr loop u hu => hr loop u (took.timed loop u hu) }, .take h, rfl⟩
  simp only [orders]
  by_cases he : loop = executor
  · subst he
    rcases took.first with hf | ⟨_, hf⟩
    · rw [hf]
      simp [ht]
    · rw [hf]
  · rw [took.others loop he]

end Aside

end Runner
end LoadGen
