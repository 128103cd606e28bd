import LoadGen.Proofs.Attribution
import LoadGen.Proofs.Completion

namespace LoadGen

/-- What can be done with the requests of sessions, in any order. -/
inductive Handling
  | create (session : Nat) (recovery : Recovery)
  /-- A request is started, to be measured in some bucket. -/
  | start (request : Nat) (sequence : Sequence) (bucket : BucketRef)
  | command (request : Nat) (c : Runner.RequestCommand)
  /-- The timer of a request fires. -/
  | fires (request : Nat)
  /-- A session gives up what it has in flight. -/
  | stop (session : Nat)

/-- What a handling can be to a request. -/
inductive Mark
  | started
  /-- Completed or released, by itself or with its session. -/
  | ended
  deriving DecidableEq, Repr

namespace Request

theorem complete_complete (q : Request) : q.complete.complete = q.complete := by
  unfold complete
  dsimp only
  split <;> simp_all

theorem active_of_isCompleted {q : Request} (h : q.isCompleted = false) :
    q.progress = .running ∨ q.progress = .completing := by
  cases hp : q.progress <;> simp_all [isCompleted]

theorem progress_complete {q : Request} (h : q.isCompleted = false) :
    q.complete.progress = .completed := by
  have started : q.progress ≠ .idle := by rintro he; simp [isCompleted, he] at h
  exact if_neg started

end Request

namespace Runner

/-- Handles requests. What is refused, or is about something that is not there, changes nothing. -/
def handle (r : Runner) : Handling → Runner
  | .create session recovery =>
    if session < r.sessions.length then (r.createRequest session recovery).2 else r
  | .start id sequence b => if (r.request? id).isSome then r.startRequest id sequence b else r
  | .command id c =>
    if (r.request? id).isSome then (r.applyCommand id c).toOption.getD r else r
  | .fires id => r.expire id
  | .stop session => r.stopSession session

/-- Whether a session runs for a phase, or ran for one. -/
def isBound (r : Runner) (session : Nat) : Bool := ((r.session? session).bind (·.phase)).isSome

/-- What a recovery is to the request of a session. -/
def recoveryMark? (r : Runner) (session : Nat) : Recovery → Option Mark
  | .complete | .release => some .ended
  | .restart .. => if r.isBound session then some .started else none
  | .leave | .markInvalid => none

def commandMark? (r : Runner) (q : Request) : RequestCommand → Option Mark
  | .begin .. => if r.isBound q.session then some .started else none
  | .complete | .release => some .ended
  | .timeOut => if q.isCompleted then none else r.recoveryMark? q.session q.recovery
  | _ => none

def mark? (r : Runner) (id : Nat) (h : Handling) : Option Mark :=
  (r.request? id).bind fun q => match h with
    | .create .. => none
    | .start other .. => if other = id then some .started else none
    | .command other c => if other = id then r.commandMark? q c else none
    | .fires other =>
      if other = id then (if r.isKept other q then r.commandMark? q .timeOut else none) else none
    | .stop session => if q.session = session then some .ended else none

/-- The latest mark of a request in a run of handlings. -/
def latest? (id : Nat) : List Handling → Runner → Option Mark
  | [], _ => none
  | h :: hs, r => (latest? id hs (r.handle h)).or (r.mark? id h)

/-- What the stop of a session makes of requests: those in flight are completed, have no connection
and no timer; the others stay. -/
structure Halted (r r' : Runner) (session : Nat) (inFlight : List Nat) : Prop where
  empty : ∃ s, r'.session? session = some s ∧ s.inFlight = []
  completed : ∀ id ∈ inFlight, ∃ q, r'.request? id = some q ∧
    q.progress = .completed ∧ q.connection = none ∧ q.timer = none
  others : ∀ id, id ∉ inFlight → r'.request? id = r.request? id

/-- What the sessions have in flight, where the latest marks of the requests are known. -/
structure Tracks (r : Runner) (latest : Nat → Option Mark) : Prop where
  once : ∀ i s, r.session? i = some s → s.inFlight.Nodup
  mem_iff : ∀ i s, r.session? i = some s → ∀ id, id ∈ s.inFlight ↔
    (∃ q, r.request? id = some q ∧ q.session = i) ∧ latest id = some .started
  active : ∀ i s, r.session? i = some s → ∀ id ∈ s.inFlight, ∃ q, r.request? id = some q ∧
    q.session = i ∧ (q.progress = .running ∨ q.progress = .completing)
  stops : ∀ i s, r.session? i = some s → Halted r (r.stopSession i) i s.inFlight

/-- The session that a request was made for. -/
def owner? (r : Runner) (id : Nat) : Option Nat := (r.request? id).map (·.session)

def inFlight? (r : Runner) (session : Nat) : Option (List Nat) :=
  (r.session? session).map (·.inFlight)

/-- The sessions and the requests agree on the requests that are started. -/
structure InStep (r : Runner) (started : Nat → Prop) : Prop where
  placed : ∀ id i, r.owner? id = some i → (r.inFlight? i).isSome
  nodup : ∀ i l, r.inFlight? i = some l → l.Nodup
  mem_iff : ∀ i l, r.inFlight? i = some l → ∀ id, id ∈ l ↔ r.owner? id = some i ∧ started id
  active : ∀ id, started id → ∃ q, r.request? id = some q ∧ q.isCompleted = false

/-- What is in flight stays, and no request completes. -/
structure Spins (r r' : Runner) : Prop where
  inFlight : ∀ i, r'.inFlight? i = r.inFlight? i
  owner : ∀ id, r'.owner? id = r.owner? id
  active : ∀ id q, r.request? id = some q → q.isCompleted = false →
    ∃ q', r'.request? id = some q' ∧ q'.isCompleted = false

variable {r r' r₁ : Runner} {started : Nat → Prop} {id : Nat} {q : Request}

section Lookups

theorem mem_track {s : Session} {other : Nat} :
    other ∈ (s.track id).inFlight ↔ other ∈ s.inFlight ∨ other = id := by
  unfold Session.track
  split
  · rename_i hm
    constructor
    · exact .inl
    · rintro (ho | rfl)
      · exact ho
      · exact hm
  · simp

theorem nodup_track {s : Session} (h : s.inFlight.Nodup) : (s.track id).inFlight.Nodup := by
  unfold Session.track
  split
  · exact h
  · rename_i hn
    simpa [List.nodup_append, h] using fun other ho (he : other = id) => hn (he ▸ ho)

theorem request?_modifyRequest (r : Runner) (id other : Nat) (f : Request → Request) :
    (r.modifyRequest id f).request? other =
      if id = other then (r.request? other).map f else r.request? other := by
  simp only [request?, Runner.modifyRequest, List.getElem?_modify]
  split <;> simp

theorem inFlight?_modifySession (r : Runner) (id other : Nat) (f : Session → Session) :
    (r.modifySession id f).inFlight? other =
      if id = other then (r.session? other).map fun s => (f s).inFlight else r.inFlight? other := by
  simp only [inFlight?, session?, Runner.modifySession, List.getElem?_modify]
  split <;> simp [Function.comp_def]

theorem owner?_modifyRequest (r : Runner) (id other : Nat) {f : Request → Request}
    (hf : ∀ q, (f q).session = q.session) :
    (r.modifyRequest id f).owner? other = r.owner? other := by
  rw [owner?, owner?, request?_modifyRequest]
  split
  · simp [Function.comp_def, hf]
  · rfl

theorem requests_disarmRequest (r : Runner) (q : Request) :
    (r.disarmRequest q).requests = r.requests ∧ (r.disarmRequest q).sessions = r.sessions := by
  unfold disarmRequest
  split <;> exact ⟨rfl, rfl⟩

theorem request?_completeRequest (r : Runner) (id other : Nat) :
    (r.completeRequest id).request? other =
      if id = other then (r.request? other).map (·.complete) else r.request? other := by
  unfold completeRequest
  split
  · rename_i hq
    split
    · rename_i he
      subst he
      simp [hq]
    · rfl
  · rename_i q _
    have same : (r.disarmRequest q).request? other = r.request? other := by
      rw [request?, (requests_disarmRequest r q).1]
      rfl
    change ((r.disarmRequest q).modifyRequest id (·.complete)).request? other = _
    rw [request?_modifyRequest, same]

theorem owner?_completeRequest (r : Runner) (id other : Nat) :
    (r.completeRequest id).owner? other = r.owner? other := by
  rw [owner?, owner?, request?_completeRequest]
  split
  · simp [Function.comp_def, Request.complete]
  · rfl

theorem inFlight?_completeRequest (hq : r.request? id = some q) (i : Nat) :
    (r.completeRequest id).inFlight? i =
      if q.session = i then (r.inFlight? i).map (·.filter (· != id)) else r.inFlight? i := by
  have same : ∀ i, ((r.disarmRequest q).modifyRequest id (·.complete)).session? i =
      r.session? i := by
    intro i
    change (r.disarmRequest q).sessions[i]? = _
    rw [(requests_disarmRequest r q).2]
    rfl
  simp only [completeRequest, hq]
  rw [inFlight?_modifySession, inFlight?, inFlight?, same]
  split
  · rw [Option.map_map]
    rfl
  · rfl

theorem stopSession_of_gone {session : Nat} (hs : r.session? session = none) :
    r.stopSession session = r := by
  have gone : ∀ f, r.modifySession session f = r := by
    intro f
    simp only [Runner.modifySession, List.modify_eq_self (List.getElem?_eq_none_iff.mp hs)]
  simp only [Runner.stopSession, hs, Option.map_none, Option.getD_none, gone, List.foldl_nil]

end Lookups

namespace Spins

theorem refl (r : Runner) : Spins r r := ⟨fun _ => rfl, fun _ => rfl, fun _ q hq hc => ⟨q, hq, hc⟩⟩

theorem trans (h : Spins r r₁) (k : Spins r₁ r') : Spins r r' where
  inFlight := fun i => (k.inFlight i).trans (h.inFlight i)
  owner := fun id => (k.owner id).trans (h.owner id)
  active := by
    intro id q hq hc
    obtain ⟨q₁, hq₁, hc₁⟩ := h.active id q hq hc
    exact k.active id q₁ hq₁ hc₁

theorem elsewhere (hr : r'.requests = r.requests) (hs : r'.sessions = r.sessions) :
    Spins r r' := by
  have requests : ∀ id, r'.request? id = r.request? id := fun id => by rw [request?, hr]; rfl
  refine ⟨fun i => ?_, fun id => ?_, fun id q hq hc => ⟨q, ?_, hc⟩⟩
  · rw [inFlight?, session?, hs]
    rfl
  · rw [owner?, requests]
    rfl
  · rw [requests]
    exact hq

theorem modifyRequest (r : Runner) (id : Nat) {f : Request → Request}
    (hs : ∀ q, (f q).session = q.session)
    (hc : ∀ q, r.request? id = some q → q.isCompleted = false → (f q).isCompleted = false) :
    Spins r (r.modifyRequest id f) := by
  refine ⟨fun _ => rfl, fun other => owner?_modifyRequest r id other hs, fun other q hq ha => ?_⟩
  rw [request?_modifyRequest, hq]
  split
  · rename_i he
    exact ⟨f q, rfl, hc q (he ▸ hq) ha⟩
  · exact ⟨q, rfl, ha⟩

theorem modifySession (r : Runner) (id : Nat) {f : Session → Session}
    (hf : ∀ s, (f s).inFlight = s.inFlight) : Spins r (r.modifySession id f) := by
  refine ⟨fun i => ?_, fun _ => rfl, fun _ q hq hc => ⟨q, hq, hc⟩⟩
  rw [inFlight?_modifySession, inFlight?]
  simp only [hf]
  split <;> rfl

end Spins

namespace InStep

theorem congr {started' : Nat → Prop} (h : InStep r started) (hs : ∀ id, started' id ↔ started id) :
    InStep r started' := by
  have same : started' = started := funext fun id => propext (hs id)
  rw [same]
  exact h

theorem spins (h : InStep r started) (k : Spins r r') : InStep r' started where
  placed := by simpa only [k.owner, k.inFlight] using h.placed
  nodup := by simpa only [k.inFlight] using h.nodup
  mem_iff := by simpa only [k.owner, k.inFlight] using h.mem_iff
  active := by
    intro id hs
    obtain ⟨q, hq, hc⟩ := h.active id hs
    exact k.active id q hq hc

theorem update {started' : Nat → Prop} {l : List Nat} (h : InStep r started) (session : Nat)
    (owners : ∀ id, r'.owner? id = r.owner? id)
    (others : ∀ i, i ≠ session → r'.inFlight? i = r.inFlight? i)
    (own : r'.inFlight? session = some l) (nodup : l.Nodup)
    (mem : ∀ id, id ∈ l ↔ r.owner? id = some session ∧ started' id)
    (same : ∀ id, r.owner? id ≠ some session → (started' id ↔ started id))
    (active : ∀ id, started' id → ∃ q, r'.request? id = some q ∧ q.isCompleted = false) :
    InStep r' started' where
  placed := by
    intro id i ho
    by_cases hi : i = session
    · rw [hi, own]
      rfl
    · rw [others i hi]
      exact h.placed id i ((owners id).symm.trans ho)
  nodup := by
    intro i l' hl
    by_cases hi : i = session
    · subst hi
      cases own.symm.trans hl
      exact nodup
    · rw [others i hi] at hl
      exact h.nodup i l' hl
  mem_iff := by
    intro i l' hl id
    rw [owners]
    by_cases hi : i = session
    · subst hi
      cases own.symm.trans hl
      exact mem id
    · rw [others i hi] at hl
      rw [h.mem_iff i l' hl id]
      refine and_congr_right fun ho => (same id fun he => hi ?_).symm
      exact Option.some.inj (ho.symm.trans he)
  active := active

theorem startRequest (h : InStep r started) (hq : r.request? id = some q) (sequence : Sequence)
    (b : BucketRef) :
    InStep (r.startRequest id sequence b) fun other => other = id ∨ started other := by
  have owned : r.owner? id = some q.session := by rw [owner?, hq]; rfl
  obtain ⟨l, hl⟩ := Option.isSome_iff_exists.mp (h.placed id q.session owned)
  have mem := h.mem_iff q.session l hl
  have tracked : ∀ i, (r.startRequest id sequence b).inFlight? i =
      if q.session = i then (r.session? i).map (fun s => (s.track id).inFlight)
      else r.inFlight? i := by
    intro i
    simp only [Runner.startRequest, hq, Option.map_some, Option.getD_some]
    exact inFlight?_modifySession ..
  obtain ⟨s, hs, rfl⟩ := Option.map_eq_some_iff.mp hl
  refine h.update q.session (l := (s.track id).inFlight) (fun other => ?_)
    (fun i hi => ?_) ?_ ?_ (fun other => ?_) (fun other ho => ?_) (fun other ho => ?_)
  · exact owner?_modifyRequest r id other fun _ => rfl
  · rw [tracked, if_neg (Ne.symm hi)]
  · rw [tracked, if_pos rfl, hs]
    rfl
  · exact nodup_track (h.nodup _ _ hl)
  · rw [mem_track, mem other]
    constructor
    · rintro (⟨ho, hs⟩ | rfl)
      · exact ⟨ho, .inr hs⟩
      · exact ⟨owned, .inl rfl⟩
    · rintro ⟨ho, rfl | hs⟩
      · exact .inr rfl
      · exact .inl ⟨ho, hs⟩
  · constructor
    · rintro (rfl | hs)
      · exact absurd owned ho
      · exact hs
    · exact .inr
  · change ∃ q', (r.modifyRequest id _).request? other = some q' ∧ _
    rw [request?_modifyRequest]
    split
    · rename_i he
      subst he
      exact ⟨_, by rw [hq]; rfl, rfl⟩
    · rename_i hn
      exact h.active other (ho.resolve_left (Ne.symm hn))

theorem completeRequest (h : InStep r started) (id : Nat) :
    InStep (r.completeRequest id) fun other => started other ∧ other ≠ id := by
  cases hq : r.request? id with
  | none =>
    rw [show r.completeRequest id = r by simp only [Runner.completeRequest, hq]]
    refine h.congr fun other => and_iff_left_of_imp fun hs he => ?_
    obtain ⟨q, hq', _⟩ := h.active other hs
    rw [he, hq] at hq'
    cases hq'
  | some q =>
    have owned : r.owner? id = some q.session := by rw [owner?, hq]; rfl
    obtain ⟨l, hl⟩ := Option.isSome_iff_exists.mp (h.placed id q.session owned)
    refine h.update q.session (l := l.filter (· != id))
      (owner?_completeRequest r id) (fun i hi => ?_) ?_ ((h.nodup _ l hl).filter _) (fun other => ?_)
      (fun other ho => ?_) fun other hs => ?_
    · rw [inFlight?_completeRequest hq, if_neg (Ne.symm hi)]
    · rw [inFlight?_completeRequest hq, if_pos rfl, hl]
      rfl
    · rw [List.mem_filter, h.mem_iff _ l hl other, bne_iff_ne, and_assoc]
    · exact and_iff_left fun he => ho (he ▸ owned)
    · obtain ⟨q', hq', hc⟩ := h.active other hs.1
      exact ⟨q', by rw [request?_completeRequest, if_neg (Ne.symm hs.2), hq'], hc⟩

theorem foldl_completeRequest (h : InStep r started) (l : List Nat) :
    InStep (l.foldl Runner.completeRequest r) fun id => started id ∧ id ∉ l := by
  induction l generalizing r started with
  | nil => exact h.congr fun id => by simp
  | cons id l ih =>
    refine (ih (h.completeRequest id)).congr fun other => ?_
    rw [List.mem_cons, not_or, and_assoc]

theorem stopSession (h : InStep r started) (session : Nat) :
    InStep (r.stopSession session) fun id => started id ∧ r.owner? id ≠ some session := by
  cases hs : r.session? session with
  | none =>
    rw [stopSession_of_gone hs]
    refine h.congr fun id => and_iff_left fun ho => ?_
    have there := h.placed id session ho
    rw [inFlight?, hs] at there
    cases there
  | some s =>
    have hl : r.inFlight? session = some s.inFlight := by rw [inFlight?, hs]; rfl
    have dropped : InStep (r.modifySession session fun s => { s with inFlight := [] })
        fun id => started id ∧ r.owner? id ≠ some session := by
      refine h.update session (l := []) (fun _ => rfl) (fun i hi => ?_) ?_
        List.nodup_nil (fun id => ?_) (fun id ho => ?_) fun id ha => h.active id ha.1
      · rw [inFlight?_modifySession, if_neg (Ne.symm hi)]
      · rw [inFlight?_modifySession, if_pos rfl, hs]
        rfl
      · simpa using fun ho _ => ho
      · exact and_iff_left ho
    have completed := dropped.foldl_completeRequest s.inFlight
    simp only [Runner.stopSession, hs, Option.map_some, Option.getD_some]
    have forgets : ∀ r : Runner, Spins r (r.modifySession session fun s =>
        { s with sequence := none, current := none }) := fun r => .modifySession r _ fun _ => rfl
    refine (completed.spins (forgets _)).congr fun id => ?_
    refine (and_iff_left_of_imp fun ha hm => ?_).symm
    exact ha.2 ((h.mem_iff session _ hl id).mp hm).1

theorem createRequest (h : InStep r started) {session : Nat} (hs : (r.inFlight? session).isSome)
    (recovery : Recovery) : InStep (r.createRequest session recovery).2 started := by
  have old : ∀ id, (∃ q, r.request? id = some q) →
      (r.createRequest session recovery).2.request? id = r.request? id := by
    intro id there
    obtain ⟨q, hq⟩ := there
    exact List.getElem?_append_left (List.getElem?_eq_some_iff.mp hq).1
  have owner : ∀ id, started id → (r.createRequest session recovery).2.owner? id = r.owner? id := by
    intro id ha
    obtain ⟨q, hq, _⟩ := h.active id ha
    rw [owner?, owner?, old id ⟨q, hq⟩]
  refine ⟨fun id i ho => ?_, h.nodup, fun i l hl id => ?_, fun id ha => ?_⟩
  · obtain ⟨q, hq, hi⟩ := Option.map_eq_some_iff.mp ho
    rcases List.mem_append.mp (List.mem_of_getElem? hq) with hm | hm
    · obtain ⟨n, hn⟩ := List.mem_iff_getElem?.mp hm
      exact h.placed n i (Option.map_eq_some_iff.mpr ⟨q, hn, hi⟩)
    · rw [List.mem_singleton] at hm
      rw [← hi, hm]
      exact hs
  · rw [h.mem_iff i l hl id]
    exact and_congr_left fun ha => by rw [owner id ha]
  · obtain ⟨q, hq, hc⟩ := h.active id ha
    exact ⟨q, by rw [old id ⟨q, hq⟩, hq], hc⟩

end InStep

/-- What is started after a request got a mark, or none. -/
def marked (started : Nat → Prop) (id : Nat) (m : Option Mark) (other : Nat) : Prop :=
  if other = id then m.elim (started id) (· = .started) else started other

theorem marked_none (started : Nat → Prop) (id other : Nat) :
    marked started id none other ↔ started other := by
  unfold marked
  split
  · rename_i he
    rw [he]
    rfl
  · rfl

theorem marked_started (started : Nat → Prop) (id other : Nat) :
    marked started id (some .started) other ↔ other = id ∨ started other := by
  unfold marked
  split <;> simp_all

theorem marked_ended (started : Nat → Prop) (id other : Nat) :
    marked started id (some .ended) other ↔ started other ∧ other ≠ id := by
  unfold marked
  split <;> simp_all

theorem Routine.spins {moves : Prop} (h : Routine moves r r') : Spins r r' := by
  induction h with
  | notes _ _ _ hs hq => exact .elsewhere hq hs
  | push | arm | modifyGroup | modifyInstance => exact .elsewhere rfl rfl
  | modifySession r id hf => exact .modifySession r id fun s => (hf s).2
  | trans _ _ ih later => exact ih.trans later

section Operations

theorem spins_timedOut (r : Runner) (id : Nat) (q : Request) : Spins r (r.timedOut id q) := by
  have forgot : Spins r (r.modifyRequest id fun q => { q with timer := none }) :=
    .modifyRequest r id (fun _ => rfl) fun _ _ hc => hc
  refine .trans (forgot.trans ?_) (routine_measureIn ..).spins
  exact .modifyRequest _ id (fun _ => rfl) fun _ _ hc => hc

theorem spins_setTimeout (r : Runner) (id : Nat) (delay : Duration) :
    Spins r (r.setTimeout id delay) := by
  unfold setTimeout
  split
  · exact .refl r
  · split
    · exact .refl r
    · rename_i q _ _ s _
      have armed : Spins r
          { r with loops := (r.loops.arm s.executor delay (.expire id)).2 } := .elsewhere rfl rfl
      have replaced := armed.trans (.elsewhere (requests_disarmRequest _ q).1
        (requests_disarmRequest _ q).2)
      exact replaced.trans (.modifyRequest _ id (fun _ => rfl) fun _ _ hc => hc)

namespace InStep

theorem unmarked (h : InStep r started) (k : Spins r r') :
    InStep r' (marked started id none) := (h.spins k).congr (marked_none started id)

/-- A request begins if its session is bound to a phase; else that is refused. -/
theorem beginRequest (h : InStep r started) (hq : r.request? id = some q) (sequence : Sequence)
    (metric : String) : InStep ((r.beginRequest id sequence metric).toOption.getD r)
      (marked started id (if r.isBound q.session then some .started else none)) := by
  split
  · rename_i hb
    obtain ⟨phase, hp⟩ := Option.isSome_iff_exists.mp hb
    obtain ⟨s, hs, hp⟩ := Option.bind_eq_some_iff.mp hp
    rw [beginRequest_eq hq hs hp]
    have made : Spins r (r.modifyBoard s.group s.executor (·.ensure phase metric r.now)) :=
      .elsewhere rfl rfl
    exact ((h.spins made).startRequest hq sequence _).congr (marked_started started id)
  · rename_i hb
    cases hr : r.beginRequest id sequence metric with
    | error => exact h.unmarked (.refl r)
    | ok r' =>
      obtain ⟨⟨b, r₁⟩, hf, _⟩ := bind_eq_ok.mp hr
      rw [hq] at hf
      obtain ⟨s, phase, hs, hp, _⟩ := bucketFor_ok hf
      have hs : r.session? q.session = some s := hs
      exact absurd (by simp [isBound, hs, hp]) hb

theorem releaseRequest (h : InStep r started) (hq : r.request? id = some q) :
    InStep (r.releaseRequest id) (marked started id (some .ended)) := by
  refine ((h.completeRequest id).congr (marked_ended started id)).spins
    (.modifyRequest _ id (fun _ => rfl) fun q' hq' hc => ?_)
  rw [request?_completeRequest, if_pos rfl, hq] at hq'
  cases hq'
  rw [q.isCompleted_complete] at hc
  cases hc

theorem recover (h : InStep r started) (hq : r.request? id = some q) (recovery : Recovery) :
    InStep (r.recover id recovery) (marked started id (r.recoveryMark? q.session recovery)) := by
  cases recovery with
  | complete => exact (h.completeRequest id).congr (marked_ended started id)
  | leave => exact h.unmarked (.refl r)
  | release => exact h.releaseRequest hq
  | markInvalid => exact h.unmarked (.modifyRequest r id (fun _ => rfl) fun _ _ hc => hc)
  | restart sequence metric =>
    have begun := h.beginRequest hq sequence metric
    simp only [Runner.recover]
    cases hr : r.beginRequest id sequence metric <;> rw [hr] at begun <;> exact begun

theorem timeOut (h : InStep r started) (hq : r.request? id = some q) :
    InStep (r.timeOut id) (marked started id (r.commandMark? q .timeOut)) := by
  unfold commandMark?
  dsimp only
  split
  · rename_i hc
    simp only [Runner.timeOut, hq, hc, if_true]
    exact h.unmarked (.modifyRequest r id (fun _ => rfl) fun _ _ hc => hc)
  · rename_i hc
    rw [timeOut_eq hq (by simpa using hc)]
    have bound : (r.timedOut id q).isBound q.session = r.isBound q.session := by
      simp only [isBound, session?, (sessions_timedOut r id q).1]
    have mark : (r.timedOut id q).recoveryMark? q.session q.recovery =
        r.recoveryMark? q.session q.recovery := by
      simp only [recoveryMark?, bound]
    rw [← mark]
    exact ((h.spins (spins_timedOut r id q)).recover (request?_timedOut hq) q.recovery).spins
      (routine_notifyConnection ..).spins

theorem applyCommand (h : InStep r started) (hq : r.request? id = some q) (c : RequestCommand) :
    InStep ((r.applyCommand id c).toOption.getD r) (marked started id (r.commandMark? q c)) := by
  cases c with
  | begin metric sequence => exact h.beginRequest hq sequence metric
  | timeOut => exact h.timeOut hq
  | complete => exact (h.completeRequest id).congr (marked_ended started id)
  | release => exact h.releaseRequest hq
  | attach | sent | invalidate =>
    exact h.unmarked (.modifyRequest r id (fun _ => rfl) fun _ _ hc => hc)
  | completing => exact h.unmarked (.modifyRequest r id (fun _ => rfl) fun _ _ _ => rfl)
  | setTimeout delay => exact h.unmarked (spins_setTimeout r id delay)
  | respond => exact h.unmarked (routine_respond r id).spins
  | enter => exact h.unmarked (routine_enterRequest r id).spins
  | exit => exact h.unmarked (routine_exitRequest r id).spins
  | look => exact h.unmarked (.refl r)

theorem expire (h : InStep r started) (hq : r.request? id = some q) :
    InStep (r.expire id)
      (marked started id (if r.isKept id q then r.commandMark? q .timeOut else none)) := by
  simp only [Runner.expire, hq]
  split
  · exact h.timeOut hq
  · exact h.unmarked (.refl r)

theorem about {m : Nat → Option Mark} {f : Request → Option Mark} {other : Nat}
    (h : InStep r started)
    (hm : ∀ id, m id = (r.request? id).bind fun q => if other = id then f q else none)
    (there : ∀ q, r.request? other = some q → InStep r' (marked started other (f q)))
    (gone : r.request? other = none → r' = r) :
    InStep r' fun id => (m id).elim (started id) (· = .started) := by
  have others : ∀ id, id ≠ other → m id = none := by
    intro id hn
    rw [hm]
    simp [Ne.symm hn]
  cases hq : r.request? other with
  | none =>
    rw [gone hq]
    refine h.congr fun id => ?_
    have unmarked : m id = none := by
      by_cases he : id = other
      · rw [hm, he, hq]
        rfl
      · exact others id he
    rw [unmarked]
    rfl
  | some q =>
    refine (there q hq).congr fun id => ?_
    unfold marked
    split
    · rename_i he
      rw [he, hm, hq]
      simp
    · rename_i hn
      rw [others id hn]
      rfl

theorem handle (h : InStep r started) (e : Handling) :
    InStep (r.handle e) fun id => (r.mark? id e).elim (started id) (· = .started) := by
  cases e with
  | create session recovery =>
    have unmarked : ∀ id, r.mark? id (.create session recovery) = none :=
      fun id => Option.bind_fun_none ..
    simp only [Runner.handle, unmarked]
    split
    · rename_i hs
      refine h.createRequest ?_ recovery
      simpa [inFlight?, session?] using hs
    · exact h
  | start other sequence b =>
    refine h.about (f := fun _ => some .started) (fun _ => rfl) (fun q hq => ?_) fun hq => ?_
    · simp only [Runner.handle, hq, Option.isSome_some, if_true]
      exact (h.startRequest hq sequence b).congr (marked_started started other)
    · simp [Runner.handle, hq]
  | command other c =>
    refine h.about (fun _ => rfl) (fun q hq => ?_) fun hq => ?_
    · simp only [Runner.handle, hq, Option.isSome_some, if_true]
      exact h.applyCommand hq c
    · simp [Runner.handle, hq]
  | fires other =>
    refine h.about (fun _ => rfl) (fun q hq => h.expire hq) fun hq => ?_
    simp only [Runner.handle, Runner.expire, hq]
  | stop session =>
    refine (h.stopSession session).congr fun id => ?_
    simp only [mark?, owner?]
    cases hq : r.request? id with
    | none => simp
    | some q => by_cases hs : q.session = session <;> simp [hs]

end InStep
end Operations

theorem InStep.handleAll (h : InStep r started) (es : List Handling) :
    InStep (es.foldl Runner.handle r) fun id =>
      (latest? id es r).elim (started id) (· = .started) := by
  induction es generalizing r started with
  | nil => exact h
  | cons e es ih =>
    refine (ih (h.handle e)).congr fun id => ?_
    simp only [latest?]
    cases latest? id es (r.handle e) <;> rfl

section Stop

theorem request?_foldl_completeRequest (l : List Nat) (r : Runner) (id : Nat) :
    (l.foldl completeRequest r).request? id =
      if id ∈ l then (r.request? id).map (·.complete) else r.request? id := by
  induction l generalizing r with
  | nil => simp
  | cons other l ih =>
    rw [List.foldl_cons, ih, request?_completeRequest]
    by_cases he : other = id
    · subst he
      simp [Function.comp_def, Request.complete_complete]
    · simp [he, Ne.symm he]

theorem inFlight?_foldl_completeRequest (l : List Nat) {session : Nat}
    (h : r.inFlight? session = some []) :
    (l.foldl completeRequest r).inFlight? session = some [] := by
  induction l generalizing r with
  | nil => exact h
  | cons id l ih =>
    refine ih ?_
    cases hq : r.request? id with
    | none => simpa only [completeRequest, hq] using h
    | some q =>
      rw [inFlight?_completeRequest hq, h]
      split <;> rfl

/-- The stop of a session completes what it has in flight, and nothing else. -/
theorem InStep.halted (h : InStep r started) {session : Nat} {s : Session}
    (hs : r.session? session = some s) : Halted r (r.stopSession session) session s.inFlight := by
  have hl : r.inFlight? session = some s.inFlight := by rw [inFlight?, hs]; rfl
  have found : ∀ id, (r.stopSession session).request? id =
      if id ∈ s.inFlight then (r.request? id).map (·.complete) else r.request? id := by
    intro id
    simp only [Runner.stopSession, hs, Option.map_some, Option.getD_some]
    exact request?_foldl_completeRequest ..
  refine ⟨?_, fun id hm => ?_, fun id hn => ?_⟩
  · have dropped : (r.modifySession session fun s => { s with inFlight := [] }).inFlight? session =
        some [] := by
      rw [inFlight?_modifySession, if_pos rfl, hs]
      rfl
    have empty : (r.stopSession session).inFlight? session = some [] := by
      simp only [Runner.stopSession, hs, Option.map_some, Option.getD_some]
      rw [inFlight?_modifySession, if_pos rfl]
      exact inFlight?_foldl_completeRequest s.inFlight dropped
    exact Option.map_eq_some_iff.mp empty
  · obtain ⟨q, hq, hc⟩ := h.active id ((h.mem_iff session _ hl id).mp hm).2
    refine ⟨q.complete, ?_, ?_, rfl, rfl⟩
    · rw [found, if_pos hm, hq]
      rfl
    · exact Request.progress_complete hc
  · rw [found, if_neg hn]

end Stop

/-- A session has each request in flight once, and it has a request in flight if and only if it was
started after it was completed, released or stopped last. What is in flight is at work, and a stop
of the session ends that, and nothing else. -/
theorem in_flight_tracks_starts (h : ∀ s ∈ r.sessions, s.inFlight = [])
    (hp : ∀ q ∈ r.requests, q.session < r.sessions.length) (es : List Handling) :
    (es.foldl handle r).Tracks fun id => latest? id es r := by
  have idle : InStep r fun _ => False := by
    refine ⟨fun id i ho => ?_, fun i l hl => ?_, fun i l hl id => ?_, fun _ no => no.elim⟩
    · obtain ⟨q, hq, rfl⟩ := Option.map_eq_some_iff.mp ho
      simpa [inFlight?, session?] using hp q (List.mem_of_getElem? hq)
    all_goals
      obtain ⟨s, hs, rfl⟩ := Option.map_eq_some_iff.mp hl
      simp [h s (List.mem_of_getElem? hs)]
  have step : InStep (es.foldl handle r) fun id => latest? id es r = some .started := by
    refine (idle.handleAll es).congr fun id => ?_
    cases latest? id es r <;> simp
  have flight : ∀ {i s}, (es.foldl handle r).session? i = some s →
      (es.foldl handle r).inFlight? i = some s.inFlight := fun hs => by rw [inFlight?, hs]; rfl
  have owner : ∀ id i, (es.foldl handle r).owner? id = some i ↔
      ∃ q, (es.foldl handle r).request? id = some q ∧ q.session = i :=
    fun _ _ => Option.map_eq_some_iff
  refine ⟨fun i s hs => step.nodup i _ (flight hs), fun i s hs id => ?_, fun i s hs id hm => ?_,
    fun i s hs => step.halted hs⟩
  · rw [step.mem_iff i _ (flight hs) id, owner]
  · obtain ⟨ho, ha⟩ := (step.mem_iff i _ (flight hs) id).mp hm
    obtain ⟨q, hq, hi⟩ := (owner id i).mp ho
    obtain ⟨q', hq', hc⟩ := step.active id ha
    cases hq.symm.trans hq'
    exact ⟨q, hq, hi, Request.active_of_isCompleted hc⟩

/-- Two visits of a session: the first one times out, which completes it, and is started twice more;
the other one has a timer and is released. -/
def visits : List Handling :=
  [.create 0 .complete, .create 0 .leave,
    .command 0 (.begin "page" ⟨"visit", 0⟩), .command 1 (.begin "page" ⟨"visit", 1⟩),
    .command 1 (.setTimeout ⟨1⟩), .command 0 .timeOut,
    .command 0 (.begin "page" ⟨"visit", 2⟩), .command 0 (.begin "page" ⟨"visit", 3⟩),
    .command 1 .completing, .command 1 .release]

/-- The session of these visits has the first one in flight. -/
theorem restarted_visit_in_flight : ∃ r es, Course gateRunner es r ∧
    (∀ s ∈ r.sessions, s.inFlight = []) ∧ (∀ q ∈ r.requests, q.session < r.sessions.length) ∧
      (visits.foldl handle r).Tracks (fun id => latest? id visits r) ∧
        latest? 0 visits r = some .started ∧ latest? 1 visits r = some .ended ∧
          (visits.foldl handle r).inFlight? 0 = some [0] := by
  have h := Course.one (r := gateRunner) (e := .deed none (.begin "login")) trivial rfl
  have h := h.next (e := .deed none (.enroll "login")) trivial rfl
  have idle : ∀ l : List Session, l = [⟨"users", 0, some "login", .empty, none, none, []⟩] →
      ∀ s ∈ l, s.inFlight = [] := by
    rintro _ rfl s hs
    rw [List.mem_singleton.mp hs]
  have none : ∀ (l : List Request) (n : Nat), l = [] → ∀ q ∈ l, q.session < n := by
    rintro _ _ rfl q hq
    cases hq
  exact ⟨_, _, h, idle _ rfl, none _ _ rfl,
    in_flight_tracks_starts (idle _ rfl) (none _ _ rfl) visits, rfl, rfl, rfl⟩

end Runner
end LoadGen
