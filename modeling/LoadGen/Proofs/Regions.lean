import LoadGen.Proofs.Admission
import LoadGen.Proofs.Tracking

namespace LoadGen

/-- A part of a runner: some groups with their sessions, and some phases. -/
structure Region where
  keys : String → Prop
  phases : String → Prop

namespace Region
variable {home : String → Option String}

def everything : Region := ⟨fun _ => True, fun _ => True⟩

def nothing : Region := ⟨fun _ => False, fun _ => False⟩

/-- A group, and all phases that are at home in it. -/
def group (home : String → Option String) (key : String) : Region :=
  ⟨(· = key), fun phase => home phase = some key⟩

def own (home : String → Option String) (phase : String) : Region :=
  ⟨fun key => home phase = some key,
    fun other => other = phase ∨ ∃ key, home phase = some key ∧ home other = some key⟩

/-- A phase with all that is shared by the phases of its key. -/
structure Covers (R : Region) (home : String → Option String) (phase : String) : Prop where
  self : R.phases phase
  keys : ∀ key, home phase = some key → R.keys key
  others : ∀ key other, R.keys key → home other = some key → R.phases other

theorem Covers.own (home : String → Option String) (phase : String) :
    (own home phase).Covers home phase :=
  ⟨.inl rfl, fun _ hk => hk, fun key _ hk ho => .inr ⟨key, hk, ho⟩⟩

theorem Covers.group {phase key : String} (h : home phase = some key) :
    (group home key).Covers home phase :=
  ⟨h, fun _ hk => Option.some.inj (hk.symm.trans h), fun _ _ hk ho => hk ▸ ho⟩

theorem Covers.everything (home : String → Option String) (phase : String) :
    everything.Covers home phase := ⟨trivial, fun _ _ => trivial, fun _ _ _ _ => trivial⟩

end Region

/-- A pool that hands something out keeps its bound and its record, and makes nothing beyond the
bound. -/
theorem Pool.acquire_lends {α : Type} {p : Pool α} {make : Nat → α} {a : α}
    (h : (p.acquire make).1 = some a) : (p.acquire make).2.max = p.max ∧
      (p.acquire make).2.depletions = p.depletions ∧ (p.free = [] → p.created < p.max) := by
  cases asked : p.acquire make with
  | mk o q =>
    rw [asked] at h
    cases acquired asked with
    | again free => exact ⟨rfl, rfl, fun none => by simp [free] at none⟩
    | anew _ room => exact ⟨rfl, rfl, fun _ => room⟩
    | never => cases h

/-- A group at work. Its pool has what it had, and its boards take up phases of the group alone. -/
structure Group.Kept (mine : String → Prop) (g g' : Group) : Prop where
  free : g'.pool.free = g.pool.free
  created : g'.pool.created = g.pool.created
  max : g'.pool.max = g.pool.max
  current : ∀ phase, g'.current = some phase → g.current = some phase ∨ mine phase
  boards : g'.boards.length = g.boards.length
  board : ∀ (loop : Nat) b', g'.boards[loop]? = some b' → ∃ b, g.boards[loop]? = some b ∧
    b'.executor = b.executor ∧ ∀ phase ∈ b'.phaseNames, phase ∈ b.phaseNames ∨ mine phase
  queues : g'.queues.length = g.queues.length

theorem Group.Kept.refl (mine : String → Prop) (g : Group) : g.Kept mine g :=
  ⟨rfl, rfl, rfl, fun _ => .inl, rfl, fun _ b hb => ⟨b, hb, rfl, fun _ => .inl⟩, rfl⟩

/-- A phase moves, and nobody joins or leaves it. -/
structure Instance.Kept (i i' : Instance) : Prop where
  phase : i'.phase = i.phase
  active : i'.standing.active = i.standing.active
  started : i'.standing.status = .notStarted → i.standing.status = .notStarted

/-- A session stays where it is, and takes up requests of its own alone. -/
structure Session.Kept (mine : Nat → Prop) (s s' : Session) : Prop where
  group : s'.group = s.group
  executor : s'.executor = s.executor
  phase : s'.phase = s.phase
  inFlight : ∀ request ∈ s'.inFlight, request ∈ s.inFlight ∨ mine request

/-- A request stays with its session, and is measured in buckets of its own group alone. -/
structure Request.Kept (mine : BucketRef → Prop) (q q' : Request) : Prop where
  session : q'.session = q.session
  bucket : ∀ b, q'.bucket = some b → q.bucket = some b ∨ mine b

/-- A task that would enter a phase into a board is about a phase of the group. -/
def Task.Homed (home : String → Option String) : Task → Prop
  | .stamp group phase _ => home phase = some group
  | _ => True

theorem Run.ids_core (l : List Run) : (l.map Run.core).map (·.id) = l.map (·.id) := by
  rw [List.map_map]
  rfl

theorem Run.sessions_core (l : List Run) : (l.map Run.core).map (·.session) = l.map (·.session) := by
  rw [List.map_map]
  rfl

theorem Run.core_map {l : List Run} {f : Run → Run} (h : ∀ run ∈ l, (f run).core = run.core) :
    (l.map f).map Run.core = l.map Run.core := by
  rw [List.map_map]
  exact List.map_congr_left h

namespace Runner

/-- A task waits on a loop, or will come up there. -/
def Pending (r : Runner) (t : Task) : Prop :=
  ∃ loop, t ∈ r.loops.posted loop ∨ t ∈ r.loops.timed loop

/-- The bucket is one of the group of a session. -/
def Measures (r : Runner) (home : String → Option String) (session : Nat) (b : BucketRef) : Prop :=
  home b.phase = some b.group ∧ session ∈ r.members b.group

/-- The session is one of a group of the region. -/
def Inside (r : Runner) (R : Region) (session : Nat) : Prop :=
  ∃ key, R.keys key ∧ session ∈ r.members key

/-- Neither groups, phases, sessions, requests nor runs change. -/
structure Apart (home : String → Option String) (R : Region) (r r' : Runner) : Prop where
  instances : r'.instances = r.instances
  groups : r'.groups = r.groups
  sessions : r'.sessions = r.sessions
  requests : r'.requests = r.requests
  runs : r'.runs = r.runs
  runCount : r'.runCount = r.runCount
  phases : r'.phases = r.phases
  destinations : r'.destinations = r.destinations
  size : r'.loops.size = r.loops.size
  pacers : ∀ phase, ¬ R.phases phase → r'.pacers.get? phase = r.pacers.get? phase
  fences : ∀ f ∈ r'.fences, (∃ f₀ ∈ r.fences, f.phase = f₀.phase ∧ f.group = f₀.group) ∨
    home f.phase = some f.group
  tasks : ∀ t, r'.Pending t → r.Pending t ∨ t.Homed home

/-- A session is out of its pool: one that was free, or the next one, if none was. -/
inductive Drawn (r : Runner) (key : String) (session : Nat) (r' : Runner) : Prop
  | again {g : Group} {pool : Pool Nat} : r.groups.get? key = some g →
      g.pool.free = session :: pool.free → pool.created = g.pool.created →
        pool.max = g.pool.max → pool.depletions = g.pool.depletions →
          r' = r.modifyGroup key (fun g => { g with pool := pool }) → Drawn r key session r'
  | anew {g : Group} {pool : Pool Nat} : r.groups.get? key = some g → g.pool.free = [] →
      pool.free = [] → g.pool.created < g.pool.max → pool.created = g.pool.created + 1 →
        pool.max = g.pool.max → pool.depletions = g.pool.depletions →
          session = r.sessions.length →
            r' = { r.modifyGroup key (fun g => { g with pool := pool }) with
              sessions := r.sessions ++
                [{ group := key, executor := g.pool.created % r.loops.size }] } →
              Drawn r key session r'

/-- A runner, with the sessions that somebody has by hand. -/
abbrev Scene := Runner × List Nat

/-- A session works for a phase, and the phase counts it. -/
def engage (r : Runner) (session : Nat) (phase : String) : Runner :=
  (r.modifyInstance phase fun i => { i with standing := i.standing.join }).modifySession session
    fun s => { s with phase := some phase }

/-- One write inside a region, true to the keys of the phases. -/
inductive Touch (home : String → Option String) (R : Region) : Scene → Scene → Prop
  | apart {r r' : Runner} {held : List Nat} : Apart home R r r' → Touch home R (r, held) (r', held)
  | phase {r : Runner} {held : List Nat} {f : Instance → Instance} (phase : String) :
      R.phases phase → (∀ i, r.instances.get? phase = some i → i.Kept (f i)) →
        Touch home R (r, held) (r.modifyInstance phase f, held)
  | group {r : Runner} {held : List Nat} {f : Group → Group} (key : String) : R.keys key →
      (∀ g, r.groups.get? key = some g → g.Kept (home · = some key) (f g)) →
        Touch home R (r, held) (r.modifyGroup key f, held)
  | groups {r : Runner} {held : List Nat} {f : Group → Group} : (∀ key, R.keys key) →
      (∀ key g, r.groups.get? key = some g → g.Kept (home · = some key) (f g)) →
        Touch home R (r, held) ({ r with groups := r.groups.map f }, held)
  | session {r : Runner} {held : List Nat} {f : Session → Session} (id : Nat) : r.Inside R id →
      (∀ s, r.session? id = some s → s.Kept (fun request => r.owner? request = some id) (f s)) →
        Touch home R (r, held) (r.modifySession id f, held)
  | request {r : Runner} {held : List Nat} {f : Request → Request} (id : Nat) :
      (∀ q, r.request? id = some q → r.Inside R q.session ∧
        q.Kept (r.Measures home q.session) (f q)) →
        Touch home R (r, held) (r.modifyRequest id f, held)
  /-- A request is made. -/
  | wish {r : Runner} {held : List Nat} {q : Request} : r.Inside R q.session → q.bucket = none →
      Touch home R (r, held) ({ r with requests := r.requests ++ [q] }, held)
  /-- Runs of the region get to other points. -/
  | points {r : Runner} {held : List Nat} {f : Run → Run} :
      (∀ run ∈ r.runs, (f run).core = run.core ∧ (f run = run ∨ R.phases run.phase)) →
        Touch home R (r, held) ({ r with runs := r.runs.map f }, held)
  /-- A session is taken out of its pool. -/
  | take {r r' : Runner} {held : List Nat} {key : String} {session : Nat} : R.keys key →
      Drawn r key session r' → Touch home R (r, held) (r', session :: held)
  /-- A session is put back into its pool. -/
  | give {r : Runner} {held : List Nat} {key : String} {session : Nat} : R.keys key →
      session ∈ held → session ∈ r.members key →
        Touch home R (r, held) (r.giveBack key session, held.erase session)
  /-- A session goes to work. -/
  | hire {r : Runner} {held : List Nat} {session : Nat} {phase key : String} :
      R.Covers home phase → home phase = some key → session ∈ r.members key →
        r.status? phase = some .running →
          Touch home R (r, session :: held) (r.hire session phase, held)
  /-- A session goes to work on a loop that is gone. -/
  | lose {r : Runner} {held : List Nat} {session : Nat} {phase key : String} :
      R.Covers home phase → home phase = some key → session ∈ r.members key →
        r.status? phase = some .running →
          Touch home R (r, session :: held) (r.engage session phase, held)
  /-- A run ends, and its phase counts it out. -/
  | part {r : Runner} {held : List Nat} {f : Instance → Instance} {run : Run} : run ∈ r.runs →
      R.phases run.phase → (∀ i, r.instances.get? run.phase = some i → (f i).phase = i.phase ∧
        (f i).standing.active = i.standing.active - 1 ∧
          ((f i).standing.status = .notStarted → i.standing.status = .notStarted)) →
        Touch home R (r, held) ({ r.modifyInstance run.phase f with
          runs := r.runs.filter (·.id != run.id) }, run.session :: held)
  /-- All runs are dropped, wherever they are. -/
  | drop {r : Runner} {held : List Nat} : (∀ phase, R.phases phase) →
      Touch home R (r, held) ({ r with runs := [], pacers := .empty }, held)

/-- Any number of writes, one after the other. -/
abbrev Touches (home : String → Option String) (R : Region) : Scene → Scene → Prop :=
  Relation.ReflTransGen (Touch home R)

section Drawn
variable {r r' : Runner} {key : String} {session : Nat}

theorem groups_repool {g : Group} (hg : r.groups.get? key = some g) {pool : Pool Nat}
    {other : String} {g' : Group}
    (h : (r.modifyGroup key fun g => { g with pool := pool }).groups.get? other = some g') :
    (other = key ∧ g' = { g with pool := pool }) ∨ (other ≠ key ∧ r.groups.get? other = some g') := by
  rcases Dict.eq_of_get?_modify h with ⟨same, g₀, hg₀, rfl⟩ | before
  · cases hg.symm.trans hg₀
    exact .inl ⟨same, rfl⟩
  · exact .inr before

theorem drawn_of_acquire
    (made : ∀ g, r.groups.get? key = some g → ∀ id ∈ g.pool.free, id < r.sessions.length)
    (h : r.acquire key = (some session, r')) : Drawn r key session r' := by
  cases acquires h with
  | @anew g group got =>
    obtain ⟨hmax, hdep, hroom⟩ := Pool.acquire_lends got
    rcases Pool.acquire_some got with ⟨hf, hc⟩ | ⟨hf, he, _, hc⟩
    · exact absurd (made g group _ (hf ▸ List.mem_cons_self)) (Nat.lt_irrefl _)
    · exact .anew group hf he (hroom hf) hc hmax hdep rfl rfl
  | again group got old =>
    obtain ⟨hmax, hdep, _⟩ := Pool.acquire_lends got
    rcases Pool.acquire_some got with ⟨hf, hc⟩ | ⟨_, _, new, _⟩
    · exact .again group hf hc hmax hdep rfl
    · exact absurd new old

theorem Drawn.rest (h : Drawn r key session r') :
    r'.instances = r.instances ∧ r'.runs = r.runs ∧ r'.loops = r.loops := by
  cases h with
  | again _ _ _ _ _ he | anew _ _ _ _ _ _ _ _ he =>
    rw [he]
    exact ⟨rfl, rfl, rfl⟩

theorem Drawn.stock (h : Drawn r key session r') : ∃ g pool, r.groups.get? key = some g ∧
    (∀ other g', r'.groups.get? other = some g' →
      (other = key ∧ g' = { g with pool := pool }) ∨
        (other ≠ key ∧ r.groups.get? other = some g')) ∧
    List.Sublist pool.free g.pool.free ∧ pool.max = g.pool.max ∧
    pool.created + g.pool.free.length = g.pool.created + pool.free.length + 1 ∧
    (g.pool.created ≤ g.pool.max → pool.created ≤ g.pool.max) := by
  cases h with
  | again hg hf hc hm _ he =>
    subst he
    refine ⟨_, _, hg, fun _ _ => groups_repool hg, ?_, hm, ?_, fun fits => hc.symm ▸ fits⟩
    · rw [hf]
      exact List.sublist_cons_self ..
    · rw [hf, hc, List.length_cons]
      omega
  | anew hg hf hp room hc hm _ _ he =>
    subst he
    refine ⟨_, _, hg, fun _ _ => groups_repool hg, ?_, hm, ?_, fun _ => hc.symm ▸ room⟩
    · rw [hp]
      exact List.nil_sublist _
    · rw [hf, hp, hc]
      rfl

end Drawn

end Runner

/-- The group of a session and its loop, which it has for good. -/
def Session.seat (s : Session) : String × Nat := (s.group, s.executor)

namespace Runner

def seats (r : Runner) : List (String × Nat) := r.sessions.map Session.seat

def owners (r : Runner) : List Nat := r.requests.map (·.session)

/-- What no write changes: the phases are declared as they were, and sessions and requests that were
made are there for good. -/
structure Abides (r r' : Runner) : Prop where
  cast : ∀ name, (r'.instances.get? name).map (·.phase) = (r.instances.get? name).map (·.phase)
  names : r'.instances.keys = r.instances.keys
  keys : r'.groups.keys = r.groups.keys
  phases : r'.phases = r.phases
  destinations : r'.destinations = r.destinations
  size : r'.loops.size = r.loops.size
  seats : r.seats <+: r'.seats
  owners : r.owners <+: r'.owners

section Abides
variable {r r₁ r' : Runner}

theorem Abides.refl (r : Runner) : Abides r r :=
  ⟨fun _ => rfl, rfl, rfl, rfl, rfl, rfl, List.prefix_rfl, List.prefix_rfl⟩

theorem Abides.trans (h : Abides r r₁) (k : Abides r₁ r') : Abides r r' where
  cast := fun name => (k.cast name).trans (h.cast name)
  names := k.names.trans h.names
  keys := k.keys.trans h.keys
  phases := k.phases.trans h.phases
  destinations := k.destinations.trans h.destinations
  size := k.size.trans h.size
  seats := h.seats.trans k.seats
  owners := h.owners.trans k.owners

theorem Abides.keyOf (h : Abides r r') (name : String) : r'.keyOf name = r.keyOf name := by
  have view : ∀ q : Runner, q.keyOf name =
      ((q.instances.get? name).map (·.phase)).bind (·.key) := by
    intro q
    rw [Runner.keyOf]
    cases q.instances.get? name <;> rfl
  rw [view, view, h.cast]

theorem mem_members_iff_seats {key : String} {id : Nat} :
    id ∈ r.members key ↔ ∃ loop, r.seats[id]? = some (key, loop) := by
  simp only [mem_members, seats, List.getElem?_map, Option.map_eq_some_iff, Session.seat,
    Prod.mk.injEq]
  constructor
  · intro held
    obtain ⟨s, hs, hg⟩ := held
    exact ⟨s.executor, s, hs, hg, rfl⟩
  · intro held
    obtain ⟨_, s, hs, hg, _⟩ := held
    exact ⟨s, hs, hg⟩

theorem lt_of_mem_members {key : String} {id : Nat} (h : id ∈ r.members key) :
    id < r.sessions.length := by
  obtain ⟨s, hs, _⟩ := mem_members.mp h
  exact (List.getElem?_eq_some_iff.mp hs).1

theorem length_seats (r : Runner) : r.seats.length = r.sessions.length := List.length_map ..

theorem Abides.length_le (h : Abides r r') : r.sessions.length ≤ r'.sessions.length := by
  rw [← length_seats, ← length_seats]
  exact h.seats.length_le

theorem key_unique {key other : String} {id : Nat} (h : id ∈ r.members key)
    (k : id ∈ r.members other) : other = key := by
  obtain ⟨s, hs, rfl⟩ := mem_members.mp h
  obtain ⟨t, ht, rfl⟩ := mem_members.mp k
  cases hs.symm.trans ht
  rfl

theorem Abides.member (h : Abides r r') {key : String} {id : Nat} (hm : id ∈ r.members key) :
    id ∈ r'.members key := by
  obtain ⟨loop, hs⟩ := mem_members_iff_seats.mp hm
  obtain ⟨rest, he⟩ := h.seats
  have hlt : id < r.seats.length := (List.getElem?_eq_some_iff.mp hs).1
  exact mem_members_iff_seats.mpr ⟨loop, by rw [← he, List.getElem?_append_left hlt, hs]⟩

theorem Abides.member_iff (h : Abides r r') {key : String} {id : Nat}
    (hid : id < r.sessions.length) : id ∈ r'.members key ↔ id ∈ r.members key := by
  obtain ⟨rest, he⟩ := h.seats
  have there : id < r.seats.length := r.length_seats ▸ hid
  rw [mem_members_iff_seats, mem_members_iff_seats, ← he, List.getElem?_append_left there]

theorem Abides.inside (h : Abides r r') {R : Region} {session : Nat} (hs : r.Inside R session) :
    r'.Inside R session := by
  obtain ⟨key, hk, hm⟩ := hs
  exact ⟨key, hk, h.member hm⟩

theorem Inside.keys {R : Region} {session : Nat} (hi : r.Inside R session) {key : String}
    (hm : session ∈ r.members key) : R.keys key := by
  obtain ⟨other, hk, ho⟩ := hi
  exact key_unique hm ho ▸ hk

theorem Abides.owner? (h : Abides r r') {id session : Nat} (ho : r.owner? id = some session) :
    r'.owner? id = some session := by
  have view : ∀ q : Runner, q.owner? id = q.owners[id]? := fun q => by
    rw [Runner.owner?, request?, Runner.owners, List.getElem?_map]
  rw [view] at ho ⊢
  obtain ⟨rest, he⟩ := h.owners
  rw [← he, List.getElem?_append_left (List.getElem?_eq_some_iff.mp ho).1, ho]

end Abides

section Lists
variable {α β : Type}

/-- What a change of one entry leaves alone there is the same all along the list. -/
theorem map_modify_of_entry {g : α → β} {f : α → α} {l : List α} {i : Nat}
    (h : ∀ a, l[i]? = some a → g (f a) = g a) : (l.modify i f).map g = l.map g := by
  apply List.ext_getElem?
  intro j
  simp only [List.getElem?_map, List.getElem?_modify]
  split
  · rename_i he
    subst he
    cases ha : l[i]? with
    | none => rfl
    | some a => simp [h a ha]
  · simp

end Lists

section Abiding
variable {home : String → Option String} {R : Region} {x y : Scene}

theorem abides_modifyInstance (r : Runner) (phase : String) {f : Instance → Instance}
    (h : ∀ i, r.instances.get? phase = some i → (f i).phase = i.phase) :
    Abides r (r.modifyInstance phase f) :=
  { Abides.refl r with
    cast := Dict.map_get?_modify h
    names := Dict.keys_modify .. }

theorem abides_modifyGroup (r : Runner) (key : String) (f : Group → Group) :
    Abides r (r.modifyGroup key f) :=
  { Abides.refl r with keys := Dict.keys_modify .. }

theorem abides_modifySession (r : Runner) (id : Nat) {f : Session → Session}
    (h : ∀ s, r.session? id = some s → (f s).seat = s.seat) : Abides r (r.modifySession id f) :=
  { Abides.refl r with
    seats := by
      have same : (r.modifySession id f).seats = r.seats := map_modify_of_entry h
      exact ⟨[], by rw [same, List.append_nil]⟩ }

theorem abides_engage (r : Runner) (session : Nat) (phase : String) :
    Abides r (r.engage session phase) :=
  (abides_modifyInstance r phase (f := fun i => { i with standing := i.standing.join })
    fun _ _ => rfl).trans (abides_modifySession _ session fun _ _ => rfl)

theorem Drawn.abides {r r' : Runner} {key : String} {session : Nat} (h : Drawn r key session r') :
    Abides r r' := by
  cases h with
  | again _ _ _ _ _ he =>
    rw [he]
    exact abides_modifyGroup ..
  | @anew g pool _ _ _ _ _ _ _ _ he =>
    have lent := abides_modifyGroup r key fun g => { g with pool := pool }
    rw [he]
    exact { lent with
      seats := ⟨[(key, g.pool.created % r.loops.size)], by simp [seats, Session.seat]⟩ }

theorem Touch.abides (h : Touch home R x y) : Abides x.1 y.1 := by
  cases h with
  | apart h =>
    exact ⟨fun _ => by rw [h.instances], by rw [h.instances], by rw [h.groups], h.phases,
      h.destinations, h.size, by simp [seats, h.sessions], by simp [owners, h.requests]⟩
  | phase name _ h => exact abides_modifyInstance _ name fun i hi => (h i hi).phase
  | group key => exact abides_modifyGroup ..
  | groups => exact { Abides.refl _ with keys := Dict.keys_map .. }
  | session id _ h =>
    exact abides_modifySession _ id fun s hs => by
      rw [Session.seat, Session.seat, (h s hs).group, (h s hs).executor]
  | @request r held f id h =>
    exact { Abides.refl r with
      owners := by
        have same : (r.modifyRequest id f).owners = r.owners :=
          map_modify_of_entry fun q hq => (h q hq).2.session
        exact ⟨[], by rw [same, List.append_nil]⟩ }
  | @wish r held q => exact { Abides.refl r with owners := ⟨[q.session], by simp [owners]⟩ }
  | points => exact { Abides.refl _ with }
  | take _ h => exact h.abides
  | give => exact abides_modifyGroup ..
  | hire | lose => exact { abides_engage .. with }
  | part _ _ h => exact { abides_modifyInstance _ _ fun i hi => (h i hi).1 with }
  | drop => exact { Abides.refl _ with }

theorem Touches.abides (h : Touches home R x y) : Abides x.1 y.1 := by
  induction h with
  | refl => exact .refl _
  | tail _ h ih => exact ih.trans h.abides

end Abiding

end Runner
end LoadGen
