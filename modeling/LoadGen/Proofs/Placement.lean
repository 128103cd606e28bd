import LoadGen.Proofs.Separation
import Mathlib.Data.Int.CardIntervalMod

namespace LoadGen

/-- How many sessions a group has made, and the loops that it keeps something for. -/
def Group.shape (g : Group) : Nat × List Nat × Nat :=
  (g.pool.created, g.boards.map (·.executor), g.queues.length)

theorem Group.Kept.shape {mine : String → Prop} {g g' : Group} (h : g.Kept mine g') :
    g'.shape = g.shape := by
  have executors : g'.boards.map (·.executor) = g.boards.map (·.executor) := by
    refine List.ext_getElem (by simp [h.boards]) fun n hn hn' => ?_
    rw [List.length_map] at hn hn'
    obtain ⟨b, hb, he, _⟩ := h.board n _ (List.getElem?_eq_getElem hn)
    rw [List.getElem?_eq_getElem hn'] at hb
    cases hb
    simp [he]
  simp only [Group.shape, h.created, h.queues, executors]

/-- Of so many things that are dealt out to some places in turn, each place has its share. -/
theorem count_dealt {places place : Nat} (h : place < places) (n : Nat) :
    ((List.range n).map (· % places)).count place =
      if place < n % places then (n + places - 1) / places else n / places := by
  have pos : 0 < places := Nat.zero_lt_of_lt h
  have dealt : ((List.range n).map (· % places)).count place = n.count (· ≡ place [MOD places]) := by
    rw [Nat.count, List.count, List.countP_map]
    refine List.countP_congr fun j _ => ?_
    simp [Nat.ModEq, Nat.mod_eq_of_lt h]
  rw [dealt, Nat.count_modEq_card n pos, Nat.mod_eq_of_lt h]
  split
  · rename_i hlt
    have split : n + places - 1 = places * (n / places) + (n % places + places - 1) := by
      have := Nat.div_add_mod n places
      omega
    have once : (n % places + places - 1) / places = 1 := by
      rw [Nat.div_eq_iff pos]
      have := Nat.mod_lt n pos
      omega
    rw [split, Nat.mul_add_div pos, once]
  · rfl

namespace Runner
variable {home : String → Option String} {R : Region} {held held' : List Nat} {r r₀ r' : Runner}
  {x y : Scene} {key : String} {session : Nat}

/-- A group has something for every loop, and its sessions are on the loops in turn. -/
structure Placed (r : Runner) : Prop where
  kept : ∀ key g, r.groups.get? key = some g →
    g.boards.map (·.executor) = List.range r.loops.size ∧ g.queues.length = r.loops.size
  turns : ∀ key g, r.groups.get? key = some g →
    (r.members key).map r.executorOf = (List.range g.pool.created).map (· % r.loops.size)
  grouped : ∀ seat ∈ r.seats, seat.1 ∈ r.groups.keys

section Seats

theorem executorOf_seats (r : Runner) (id : Nat) :
    r.executorOf id = ((r.seats[id]?).map (·.2)).getD 0 := by
  rw [executorOf, session?, seats, List.getElem?_map, Option.map_map]
  rfl

theorem members_of_seats (h : r'.seats = r.seats) (key : String) :
    r'.members key = r.members key := by
  have view : ∀ (q : Runner) (id : Nat), (q.sessions[id]?).map (·.group) =
      (q.seats[id]?).map (·.1) := fun q id => by
    rw [seats, List.getElem?_map, Option.map_map]
    rfl
  have length : r'.sessions.length = r.sessions.length := by rw [← length_seats, h, length_seats]
  exact members_congr length fun id => by rw [view, view, h]

theorem executorOf_append {s : Session} (h : r'.sessions = r.sessions ++ [s]) {id : Nat}
    (hid : id < r.sessions.length) : r'.executorOf id = r.executorOf id := by
  rw [executorOf, executorOf, session?, session?, h, List.getElem?_append_left hid]

end Seats

section Writes

theorem Placed.still (p : Placed r) (abides : Abides r r') (seats : r'.seats = r.seats)
    (shapes : ∀ key, (r'.groups.get? key).map Group.shape = (r.groups.get? key).map Group.shape) :
    Placed r' := by
  have before : ∀ {key : String} {g' : Group}, r'.groups.get? key = some g' →
      ∃ g, r.groups.get? key = some g ∧ g'.pool.created = g.pool.created ∧
        g'.boards.map (·.executor) = g.boards.map (·.executor) ∧
          g'.queues.length = g.queues.length := by
    intro key g' hg'
    have same := shapes key
    rw [hg'] at same
    obtain ⟨g, hg, he⟩ := Option.map_eq_some_iff.mp same.symm
    simp only [Group.shape, Prod.mk.injEq] at he
    exact ⟨g, hg, he.1.symm, he.2.1.symm, he.2.2.symm⟩
  have executors : r'.executorOf = r.executorOf := funext fun id => by
    rw [executorOf_seats, executorOf_seats, seats]
  exact {
    kept := by
      intro key g' hg'
      obtain ⟨g, hg, _, boards, queues⟩ := before hg'
      rw [boards, queues, abides.size]
      exact p.kept key g hg
    turns := by
      intro key g' hg'
      obtain ⟨g, hg, created, _⟩ := before hg'
      rw [created, abides.size, executors, members_of_seats seats]
      exact p.turns key g hg
    grouped := by
      rw [seats, abides.keys]
      exact p.grouped }

/-- A session is taken out of its pool. If it is new, it is on the next loop. -/
theorem Placed.drawn (p : Placed r) (h : Drawn r key session r') : Placed r' := by
  have abides := h.abides
  cases h with
  | again hg _ hc _ _ he =>
    subst he
    refine p.still abides rfl (Dict.map_get?_modify fun g' hg' => ?_)
    cases hg.symm.trans hg'
    simp only [Group.shape, hc]
  | @anew g pool hg _ _ _ hc _ _ _ he =>
    have grown : r'.sessions = r.sessions ++ [⟨key, g.pool.created % r.loops.size, none, .empty,
      none, none, []⟩] := by rw [he]
    have lookup : ∀ {other : String} {g' : Group}, r'.groups.get? other = some g' →
        (other = key ∧ g' = { g with pool := pool }) ∨
          (other ≠ key ∧ r.groups.get? other = some g') := by
      intro other g' hg'
      rw [he] at hg'
      exact groups_repool hg hg'
    have earlier : ∀ other, (r.members other).map r'.executorOf =
        (r.members other).map r.executorOf := fun other =>
      List.map_congr_left fun id hm => executorOf_append grown (lt_of_mem_members hm)
    exact {
      kept := by
        intro other g' hg'
        rw [abides.size]
        rcases lookup hg' with ⟨rfl, rfl⟩ | ⟨_, hg'⟩
        · exact p.kept other g hg
        · exact p.kept other g' hg'
      turns := by
        intro other g' hg'
        rw [members_append grown, List.map_append, earlier, abides.size]
        rcases lookup hg' with ⟨rfl, rfl⟩ | ⟨ne, hg'⟩
        · have new : r'.executorOf r.sessions.length = g.pool.created % r.loops.size := by
            simp [executorOf, session?, grown]
          simp only [hc, if_true, List.range_succ, List.map_append, List.map_cons, List.map_nil, new]
          rw [p.turns other g hg]
        · simp only [Ne.symm ne, if_false, List.map_nil, List.append_nil]
          exact p.turns other g' hg'
      grouped := by
        intro seat hm
        rw [seats, grown, List.map_append] at hm
        rw [abides.keys]
        rcases List.mem_append.mp hm with old | new
        · exact p.grouped seat old
        · rw [List.mem_singleton.mp new]
          exact Dict.mem_keys_of_get? hg }

theorem Touch.placed (p : Placed x.1) (h : Touch home R x y) : Placed y.1 := by
  have abides := h.abides
  cases h with
  | apart h =>
    exact p.still abides (by rw [seats, seats, h.sessions]) fun _ => by rw [h.groups]
  | group key _ h => exact p.still abides rfl (Dict.map_get?_modify fun g hg => (h g hg).shape)
  | @groups r held f _ h =>
    refine p.still abides rfl fun key => ?_
    rw [Dict.get?_map]
    cases hg : r.groups.get? key with
    | none => rfl
    | some g => exact congrArg some (h key g hg).shape
  | session id _ h =>
    refine p.still abides (map_modify_of_entry fun s hs => ?_) fun _ => rfl
    rw [Session.seat, Session.seat, (h s hs).group, (h s hs).executor]
  | take _ h => exact p.drawn h
  | give => exact p.still abides rfl (Dict.map_get?_modify fun _ _ => rfl)
  | hire | lose => exact p.still abides (map_modify_of_entry fun _ _ => rfl) fun _ => rfl
  | phase | request | wish | points | part | drop => exact p.still abides rfl fun _ => rfl

theorem Touches.placed (p : Placed x.1) (h : Touches home R x y) : Placed y.1 := by
  induction h with
  | refl => exact p
  | tail _ h ih => exact h.placed ih

theorem Fresh.placed (h : r.Fresh) : Placed r where
  kept := by
    intro key g hg
    rw [h.groups key g hg]
    exact ⟨by simp [newGroup, Function.comp_def], by simp [newGroup]⟩
  turns := by
    intro key g hg
    rw [h.groups key g hg]
    simp [newGroup, members, h.sessions]
  grouped := by simp [seats, h.sessions]

end Writes

section Seating

/-- A session is on a loop, and works with what its group and the runner have for this loop. -/
structure Housed (r : Runner) (key : String) (g : Group) (session loop : Nat) : Prop where
  seat : ∃ s, r.session? session = some s ∧ s.group = key ∧ s.executor = loop
  board : ∃ b, g.boards[loop]? = some b ∧ b.executor = loop
  measures : ∀ metric b r', r.bucketFor session metric = .ok (b, r') →
    b.group = key ∧ b.executor = loop ∧
      r' = r.modifyBoard key loop (·.ensure b.phase metric r.now)
  queues : g.queues[loop]? = some (r.queues session)
  shares : ∀ f, r.modifyQueuesOf session f = r.modifyQueues key loop f
  sends : ∀ target, r.destination? session target =
    (r.destinations[loop]?).bind fun d => d.get? target

/-- How the sessions are spread over the loops. The sessions of a group are listed in the order in
which they were made. -/
structure Spread (r : Runner) : Prop where
  size : 0 < r.loops.size
  count : ∀ key g, r.groups.get? key = some g → (r.members key).length = g.pool.created
  /-- Each session is on the loop whose turn it was. -/
  seated : ∀ key g j session, r.groups.get? key = some g →
    (r.members key)[j]? = some session → r.Housed key g session (j % r.loops.size)
  /-- The first loops have the greater share, if there is one. -/
  share : ∀ key g loop, r.groups.get? key = some g → loop < r.loops.size →
    ((r.members key).map r.executorOf).count loop =
      if loop < g.pool.created % r.loops.size then
        (g.pool.created + r.loops.size - 1) / r.loops.size
      else g.pool.created / r.loops.size
  /-- The sessions of all groups have the first numbers, each of them once. -/
  numbers : (r.groups.keys.flatMap r.members).Perm (List.range r.sessions.length)
  /-- What a pool hands out is free there, or has the next number and is on the next loop. -/
  next : ∀ key session r', r.acquire key = (some session, r') →
    (∃ g, r.groups.get? key = some g ∧ session ∈ g.pool.free ∧ r'.sessions = r.sessions) ∨
      (session = r.sessions.length ∧ ∃ s : Session, s.group = key ∧
        s.executor = (r.members key).length % r.loops.size ∧ r'.sessions = r.sessions ++ [s])

theorem Placed.seat (p : Placed r) {g : Group} {j : Nat} (hg : r.groups.get? key = some g)
    (hm : (r.members key)[j]? = some session) :
    ∃ s, r.session? session = some s ∧ s.group = key ∧ s.executor = j % r.loops.size := by
  obtain ⟨s, hs, hk⟩ := mem_members.mp (List.mem_of_getElem? hm)
  refine ⟨s, hs, hk, ?_⟩
  have turn := congrArg (·[j]?) (p.turns key g hg)
  simp only [List.getElem?_map, hm, Option.map_some] at turn
  obtain ⟨i, hi, he⟩ := Option.map_eq_some_iff.mp turn.symm
  obtain ⟨hlt, rfl⟩ := List.getElem?_eq_some_iff.mp hi
  rw [List.getElem_range] at he
  rw [he, executorOf, show r.session? session = some s from hs]
  rfl

theorem Placed.seated (p : Placed r) (size : 0 < r.loops.size) {g : Group} {j : Nat}
    (hg : r.groups.get? key = some g) (hm : (r.members key)[j]? = some session) :
    r.Housed key g session (j % r.loops.size) := by
  obtain ⟨s, hs, rfl, he⟩ := p.seat hg hm
  have hlt : j % r.loops.size < r.loops.size := Nat.mod_lt _ size
  obtain ⟨boards, queues⟩ := p.kept s.group g hg
  exact {
    seat := ⟨s, hs, rfl, he⟩
    board := by
      have entry := congrArg (·[j % r.loops.size]?) boards
      simpa [hlt] using entry
    measures := by
      intro metric b r' h
      simp only [bucketFor, hs] at h
      split at h
      · cases h
      · cases h
        rw [← he]
        exact ⟨rfl, rfl, rfl⟩
    queues := by
      rw [Runner.queues, hs, Option.bind_some, hg, Option.bind_some, he,
        List.getElem?_eq_getElem (queues ▸ hlt)]
      rfl
    shares := fun f => by rw [modifyQueuesOf, hs, ← he]
    sends := fun target => by rw [destination?, hs, Option.bind_some, he] }

theorem Placed.numbers (p : Placed r) (distinct : r.groups.keys.Nodup) :
    (r.groups.keys.flatMap r.members).Perm (List.range r.sessions.length) := by
  have once : (r.groups.keys.flatMap r.members).Nodup := by
    refine List.nodup_flatMap.mpr ⟨fun key _ => r.members_nodup key, distinct.imp ?_⟩
    intro key other ne id hm ho
    exact ne (key_unique ho hm)
  refine (List.perm_ext_iff_of_nodup once List.nodup_range).mpr fun id => ?_
  rw [List.mem_flatMap, List.mem_range]
  constructor
  · intro there
    obtain ⟨key, _, hm⟩ := there
    exact lt_of_mem_members hm
  · intro hlt
    have hs : r.sessions[id]? = some r.sessions[id] := List.getElem?_eq_getElem hlt
    have seat : r.sessions[id].seat ∈ r.seats := List.mem_map_of_mem (List.getElem_mem hlt)
    exact ⟨_, p.grouped _ seat, mem_members.mpr ⟨_, hs, rfl⟩⟩

theorem Placed.spread (p : Placed r) (k : Keyed home r) (size : 0 < r.loops.size) : Spread r := by
  have count : ∀ key g, r.groups.get? key = some g → (r.members key).length = g.pool.created := by
    intro key g hg
    simpa using congrArg List.length (p.turns key g hg)
  exact {
    size := size
    count := count
    seated := fun _ _ _ _ hg hm => p.seated size hg hm
    share := by
      intro key g loop hg hl
      rw [p.turns key g hg]
      exact count_dealt hl _
    numbers := p.numbers k.distinct
    next := by
      intro key session r' h
      cases drawn_of_acquire (fun _ => k.made) h with
      | again hg hf _ _ _ he =>
        subst he
        exact .inl ⟨_, hg, by rw [hf]; exact List.mem_cons_self, rfl⟩
      | anew hg _ _ _ _ _ _ hn he =>
        subst he
        refine .inr ⟨hn, _, rfl, ?_, rfl⟩
        rw [count key _ hg] }

end Seating

section Turns

theorem tables_of_initial (h : r.Initial) : ∃ default?,
    r.destinations = (List.range r.loops.size).map (destinationsOn r.clients default?) := by
  obtain ⟨name, agent, now, processors, settings, phases, plans, listening, made, hc, hi⟩ := h
  have tables : ∃ default?, made.destinations =
      (List.range made.loops.size).map (destinationsOn made.clients default?) := by
    unfold create at hc
    split at hc
    · cases hc
    · obtain ⟨default?, _, hc⟩ := bind_eq_ok.mp hc
      obtain ⟨loops, _, hc⟩ := bind_eq_ok.mp hc
      obtain ⟨clients, _, hc⟩ := bind_eq_ok.mp hc
      cases hc
      exact ⟨default?, rfl⟩
  obtain ⟨instances, q, hm, rfl⟩ := init_made hi
  obtain ⟨groups, rfl⟩ := (makeInstances_made hm List.nodup_nil).1.rest
  exact tables

/-- What is so of the sessions, whatever has happened, and what stays so. -/
structure Dealt (r₀ r : Runner) (held : List Nat) : Prop where
  spread : Spread r
  tables : ∃ default?, r.destinations =
    (List.range r.loops.size).map (destinationsOn r₀.clients default?)
  /-- Sessions that were made are there for good, in their places. -/
  lasting : ∀ r' held', Reaches (r, held) (r', held') → r.seats <+: r'.seats

/-- However sessions are made, lent and given back in all the groups, each group has its sessions on
the loops in turn, and all of them are numbered as they are made. -/
theorem sessions_dealt_in_turn (h₀ : r₀.Initial) (h : Reaches (r₀, []) (r, held)) :
    Dealt r₀ r held := by
  have k := keyed_of_initial h₀
  have fresh := fresh_of_initial h₀
  have touches := h.touches (x := (r₀, [])) k
  have abides := touches.abides
  have placed : Placed r := touches.placed fresh.placed
  exact {
    spread := placed.spread (h.keyed h₀) (abides.size ▸ fresh.size)
    tables := by
      obtain ⟨default?, tables⟩ := tables_of_initial h₀
      exact ⟨default?, by rw [abides.destinations, tables, abides.size]⟩
    lasting := fun r' held' later =>
      ((later.touches (x := (r, held)) (h.keyed h₀)).abides).seats }

/-- Three sessions for one phase and one for the other, made in between. -/
theorem twins_dealt_in_turn : ∃ r held, Reaches (twinRunner, []) (r, held) ∧
    r.seats = [("store", 0), ("log", 0), ("store", 1), ("store", 0)] ∧ Dealt twinRunner r held := by
  have h : Reaches (twinRunner, []) (_, [0]) :=
    .single (.takes (show Runner.acquire _ "store" = (some 0, _) from rfl))
  have h := h.tail (.orders "writes" .start)
  have h := h.tail (.takes (show Runner.acquire _ "store" = (some 2, _) from rfl))
  have h := h.tail (.takes (show Runner.acquire _ "store" = (some 3, _) from rfl))
  exact ⟨_, _, h, rfl, sessions_dealt_in_turn twinRunner_initial h⟩

end Turns

end Runner
end LoadGen
