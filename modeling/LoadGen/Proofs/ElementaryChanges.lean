import LoadGen.Proofs.Frames
import LoadGen.Proofs.Hiring
import Mathlib.Logic.Relation

namespace LoadGen.Runner

/-- What a piece of work may do: to the phases, the runs for which it may set timers, the sessions
for which it may make buckets, and whether it may move the clock. -/
structure Remit where
  deeds : Deed → Prop := fun _ => False
  calls : Nat → Prop := fun _ => False
  buckets : Nat → Prop := fun _ => False
  clock : Prop := False

/-- A run may act, and wait. -/
structure Remit.Hosts (m : Remit) (run : Run) : Prop where
  calls : m.calls run.id
  buckets : m.buckets run.session

/-- A run may have its turn: it may fail its phase, and end. -/
structure Remit.Serves (m : Remit) (run : Run) : Prop extends Remit.Hosts m run where
  fails : ∀ f, m.deeds (.fail run.phase f)
  completes : m.deeds (.complete run.id)

def ownerOf (r : Runner) (id : Nat) : Nat := ((r.request? id).map (·.session)).getD 0

/-- What the turn of a task may do, if the task is no order. -/
def turnRemit (r : Runner) : Task → Remit
  | .resume id => {
      deeds := fun d => ∃ run ∈ r.runs, run.id = id ∧ (d = .complete id ∨ ∃ f, d = .fail run.phase f)
      calls := (· = id)
      buckets := fun session => ∃ run ∈ r.runs, run.id = id ∧ run.session = session }
  | .pace name => {
      deeds := fun d => ∃ i schedule most, r.instances.get? name = some i ∧
        i.phase.model = .paced schedule most ∧ d = .enroll i.phase.name }
  | .expire id => { buckets := fun session => r.Restarts id ∧ session = r.ownerOf id }
  | _ => {}

def remit (r : Runner) : Happening → Remit
  | .deed _ d => { deeds := (· = d) }
  | .turn loop => (r.loops.next? loop).elim {} fun (t, _) => r.turnRemit t
  | .clock _ => { clock := True }
  | .command id (.begin ..) => { buckets := (· = r.ownerOf id) }
  | .command id .timeOut => { buckets := fun session => r.Restarts id ∧ session = r.ownerOf id }
  | _ => {}

theorem remit_turn (r : Runner) (loop : Nat) : r.remit (.turn loop) = {} ∨ ∃ t loops,
    r.loops.next? loop = some (t, loops) ∧ r.remit (.turn loop) = r.turnRemit t := by
  simp only [remit]
  cases r.loops.next? loop with
  | none => exact .inl rfl
  | some next => exact .inr ⟨next.1, next.2, rfl, rfl⟩

/-- A change that a runner makes at once while it works. -/
inductive Shift (m : Remit) (r : Runner) : Runner → Prop
  | aside {r' : Runner} : Aside m.calls r r' → Shift m r r'
  /-- There is a bucket from now on for the phase of a session at work. -/
  | ensure {session : Nat} {s : Session} {phase : String} (metric : String) :
      m.buckets session → r.AtWork session → r.session? session = some s → s.phase = some phase →
        Shift m r (r.modifyBoard s.group s.executor (·.ensure phase metric r.now))
  | record (b : BucketRef) (stamp : Nat) (e : Event) : Shift m r (r.measure b stamp e)
  | clock (now : Nat) : m.clock → Shift m r { r with now := now }
  /-- A deed to a phase that has begun, or that will not begin. -/
  | deed {r' : Runner} (here : Option Nat) (d : Deed) :
      m.deeds d → (∀ phase, d ≠ .begin phase) → r.carryOut here d = .ok r' → Shift m r r'

/-- Any number of changes, one after the other. -/
abbrev Shifts (m : Remit) : Runner → Runner → Prop := Relation.ReflTransGen (Shift m)

variable {m : Remit} {may : Nat → Prop}

theorem Aside.shifts {r r' : Runner} (h : Aside m.calls r r') : Shifts m r r' := .single (.aside h)

section Requests

theorem aside_disarmRequest (r : Runner) (q : Request) : Aside may r (r.disarmRequest q) := by
  unfold disarmRequest
  split
  · exact .disarm r ..
  · exact .refl r

theorem aside_untrack (r : Runner) (session request : Nat) :
    Aside may r (r.modifySession session (·.untrack request)) :=
  .modifySession r (fun _ => rfl) fun s h =>
    .inl ⟨by simp [Session.untrack, h.inFlight], h.current, h.sequence⟩

theorem aside_completeRequest (r : Runner) (id : Nat) : Aside may r (r.completeRequest id) := by
  unfold completeRequest
  split
  · exact .refl r
  · rename_i q _
    exact (aside_disarmRequest r q).trans ((Aside.modifyRequest ..).trans (aside_untrack ..))

theorem aside_releaseRequest (r : Runner) (id : Nat) : Aside may r (r.releaseRequest id) :=
  (aside_completeRequest r id).trans (Aside.modifyRequest ..)

theorem aside_notifyConnection (r : Runner) (c : Option Nat) :
    Aside may r (r.notifyConnection c) := by
  cases c with
  | none => exact .refl r
  | some c => exact .elsewhere rfl rfl rfl rfl rfl rfl rfl rfl rfl rfl rfl rfl

theorem aside_setTimeout (r : Runner) (id : Nat) (delay : Duration) :
    Aside may r (r.setTimeout id delay) := by
  unfold setTimeout
  split
  · exact .refl r
  · rename_i q _
    split
    · exact .refl r
    · rename_i s _
      apply (Aside.arm r s.executor delay (t := .expire id) rfl (fun _ => nofun)).trans
      exact (aside_disarmRequest _ q).trans (Aside.modifyRequest ..)

theorem aside_enterRequest (r : Runner) (id : Nat) (h : r.InIteration id) :
    Aside may r (r.enterRequest id) := by
  obtain ⟨q, hq, work⟩ := h
  simp only [enterRequest, hq]
  exact .modifySession r (fun _ => rfl) fun _ _ => .inr work

theorem aside_forget (r : Runner) (session : Nat) :
    Aside may r (r.modifySession session fun s => { s with sequence := none, current := none }) :=
  .modifySession r (fun _ => rfl) fun _ h => .inl ⟨h.inFlight, rfl, rfl⟩

theorem aside_exitRequest (r : Runner) (id : Nat) : Aside may r (r.exitRequest id) := by
  unfold exitRequest
  split
  · exact .refl r
  · exact aside_forget r _

theorem aside_stopSession (r : Runner) (session : Nat) : Aside may r (r.stopSession session) := by
  have drop : Aside may r (r.modifySession session fun s => { s with inFlight := [] }) :=
    .modifySession r (fun _ => rfl) fun _ h => .inl ⟨rfl, h.current, h.sequence⟩
  exact drop.trans ((Aside.foldl aside_completeRequest _ _).trans (aside_forget ..))

theorem bucketFor_ok {r r' : Runner} {session : Nat} {metric : String} {b : BucketRef}
    (h : r.bucketFor session metric = .ok (b, r')) :
    ∃ s phase, r.session? session = some s ∧ s.phase = some phase ∧
      b = ⟨s.group, s.executor, phase, metric⟩ ∧
      r' = r.modifyBoard s.group s.executor (·.ensure phase metric r.now) := by
  unfold bucketFor at h
  split at h
  · cases h
  · rename_i s hs
    split at h
    · cases h
    · rename_i phase hp
      cases h
      exact ⟨s, phase, hs, hp, rfl, rfl⟩

theorem shifts_bucketFor {r r' : Runner} {session : Nat} {metric : String} {b : BucketRef}
    (hm : m.buckets session) (work : r.AtWork session)
    (h : r.bucketFor session metric = .ok (b, r')) : Shifts m r r' := by
  obtain ⟨s, phase, hs, hp, _, rfl⟩ := bucketFor_ok h
  exact .single (.ensure metric hm work hs hp)

theorem InIteration.atWork {r : Runner} {id : Nat} (h : r.InIteration id) :
    r.AtWork (r.ownerOf id) := by
  obtain ⟨q, hq, work⟩ := h
  simpa [ownerOf, hq] using work

theorem shifts_startRequest (r : Runner) (id : Nat) (sequence : Sequence) (b : BucketRef)
    (work : r.AtWork (r.ownerOf id)) : Shifts m r (r.startRequest id sequence b) := by
  have start : Aside m.calls r (r.modifyRequest id (·.start r.now r.instant sequence b)) :=
    .modifyRequest ..
  refine (start.shifts.tail (.record b r.now .request)).tail (.aside ?_)
  refine .modifySession _ (fun s => ?_) fun _ _ => .inr work
  unfold Session.track
  split <;> rfl

theorem shifts_beginRequest {r r' : Runner} {id : Nat} {sequence : Sequence} {metric : String}
    (hm : m.buckets (r.ownerOf id)) (work : r.AtWork (r.ownerOf id))
    (h : r.beginRequest id sequence metric = .ok r') : Shifts m r r' := by
  obtain ⟨⟨b, r₁⟩, hb, hr⟩ := bind_eq_ok.mp h
  cases hr
  obtain ⟨s, phase, hs, hp, _, rfl⟩ := bucketFor_ok hb
  exact (Relation.ReflTransGen.single (.ensure metric hm work hs hp)).trans
    (shifts_startRequest _ id sequence b work)

theorem shifts_recover (r : Runner) (id : Nat) (recovery : Recovery)
    (work : ∀ sequence metric, recovery = .restart sequence metric →
      m.buckets (r.ownerOf id) ∧ r.AtWork (r.ownerOf id)) :
    Shifts m r (r.recover id recovery) := by
  cases recovery with
  | complete => exact (aside_completeRequest r id).shifts
  | leave => exact .refl
  | release => exact (aside_releaseRequest r id).shifts
  | markInvalid => exact (Aside.modifyRequest ..).shifts
  | restart sequence metric =>
    simp only [recover]
    split
    · rename_i r' h
      obtain ⟨hm, work⟩ := work sequence metric rfl
      exact shifts_beginRequest hm work h
    · exact .refl

theorem shifts_measureIn (r : Runner) (bucket : Option BucketRef) (stamp : Nat) (e : Event) :
    Shifts m r (r.measureIn bucket stamp e) := by
  cases bucket with
  | none => exact .refl
  | some b => exact .single (.record b stamp e)

theorem shifts_timeOut (r : Runner) (id : Nat)
    (hm : r.Restarts id → m.buckets (r.ownerOf id)) (h : r.Restarts id → r.InIteration id) :
    Shifts m r (r.timeOut id) := by
  unfold timeOut
  split
  · exact .refl
  · rename_i q hq
    dsimp only
    split
    · exact (Aside.modifyRequest ..).shifts
    · rename_i hc
      refine .tail ?_ (.aside (aside_notifyConnection ..))
      refine .trans (.trans ?_ (shifts_measureIn ..)) (shifts_recover _ id q.recovery ?_)
      · exact ((Aside.modifyRequest ..).trans (.modifyRequest ..)).shifts
      · intro sequence metric hr
        have again : r.Restarts id := ⟨q, hq, by simpa using hc, sequence, metric, hr⟩
        have hm := hm again
        have work := (h again).atWork
        constructor
        · cases q.bucket <;>
            simpa [ownerOf, request?, measureIn, measure, modifyBoard, Runner.modifyGroup,
              Runner.modifyRequest, List.getElem?_modify, Function.comp_def] using hm
        · cases q.bucket <;>
            simpa [ownerOf, request?, measureIn, measure, modifyBoard, Runner.modifyGroup, AtWork,
              Runner.modifyRequest, List.getElem?_modify, Function.comp_def] using work

theorem shifts_expire (r : Runner) (id : Nat) (h : r.Restarts id → r.InIteration id) :
    Shifts (r.turnRemit (.expire id)) r (r.expire id) := by
  unfold expire
  split
  · exact .refl
  · split
    · exact shifts_timeOut r id (fun again => ⟨again, rfl⟩) h
    · exact .refl

theorem shifts_respond (r : Runner) (id : Nat) : Shifts m r (r.respond id) := by
  unfold respond
  split
  · exact .refl
  · split
    · exact .single (.record ..)
    · exact .refl

theorem shifts_applyCommand {r r' : Runner} {id : Nat} {c : RequestCommand}
    (ha : r.Allowed (.command id c)) (h : r.applyCommand id c = .ok r') :
    Shifts (r.remit (.command id c)) r r' := by
  cases c with
  | begin metric sequence => exact shifts_beginRequest rfl (InIteration.atWork ha) h
  | attach connection => cases h; exact (Aside.modifyRequest ..).shifts
  | setTimeout delay => cases h; exact (aside_setTimeout ..).shifts
  | timeOut => cases h; exact shifts_timeOut r id (fun again => ⟨again, rfl⟩) ha
  | sent => cases h; exact (Aside.modifyRequest ..).shifts
  | respond => cases h; exact shifts_respond r id
  | complete => cases h; exact (aside_completeRequest ..).shifts
  | completing => cases h; exact (Aside.modifyRequest ..).shifts
  | invalidate => cases h; exact (Aside.modifyRequest ..).shifts
  | release => cases h; exact (aside_releaseRequest ..).shifts
  | enter => cases h; exact (aside_enterRequest r id ha).shifts
  | exit => cases h; exact (aside_exitRequest ..).shifts
  | look => cases h; exact .refl

theorem shifts_command {r r' : Runner} {id : Nat} {c : RequestCommand}
    (ha : r.Allowed (.command id c)) (h : r.command id c = .ok r') :
    Shifts (r.remit (.command id c)) r r' := by
  unfold command at h
  split at h
  · split at h
    · exact shifts_applyCommand ha h
    · cases h
  · exact shifts_applyCommand ha h

end Requests

section Sessions

theorem shifts_startSession (r : Runner) {phase : String} (hm : m.deeds (.enroll phase)) :
    Shifts m r (r.startSession phase).2 := by
  cases hi : r.instances.get? phase with
  | none =>
    simp only [startSession, hi]
    exact .refl
  | some i =>
    refine .single (.deed none (.enroll phase) hm (fun _ h => by cases h) ?_)
    simp only [carryOut, instance?, hi]
    rfl

theorem aside_pacers (r : Runner) (pacers : Dict Pacer) :
    Aside may r { r with pacers := pacers } :=
  .elsewhere rfl rfl rfl rfl rfl rfl rfl rfl rfl rfl rfl rfl

theorem shifts_hires {name : String} {log : List Occurrence} {r r' : Runner}
    (hm : m.deeds (.enroll name)) (h : Hires name r log r') : Shifts m r r' := by
  induction h with
  | refl => exact .refl
  | asks => exact shifts_startSession _ hm
  | sets => exact (aside_pacers ..).shifts
  | calls => exact (Aside.push _ 0 rfl rfl).shifts
  | arms due => exact (Aside.armAt _ 0 due rfl fun _ => nofun).shifts
  | trans _ _ ih later => exact ih.trans later

theorem shifts_paces {phase : String} {log : List Occurrence} {r r' : Runner}
    (h : Paces phase r log r') : Shifts (r.turnRemit (.pace phase)) r r' := by
  cases h with
  | idle => exact .refl
  | stops => exact (aside_pacers ..).shifts
  | @hires i schedule most _ _ hi hm h => exact shifts_hires ⟨i, schedule, most, hi, hm, rfl⟩ h

theorem aside_startPacer (r : Runner) (phase : String) : Aside may r (r.startPacer phase) := by
  unfold startPacer
  split
  · exact .push _ 0 rfl rfl
  · exact .refl r

end Sessions

section Notices

theorem beside_deliver (r : Runner) (phase : String) (n : Notice) :
    Beside nobody r (r.deliver phase n) := by
  unfold deliver
  split <;> split <;> exact .elsewhere rfl rfl rfl rfl rfl rfl rfl

theorem beside_sealOn (here : Option Nat) (fence : Nat) (f : Fence) (r : Runner)
    (executor : Nat) : Beside nobody r (sealOn here fence f r executor) := by
  unfold sealOn
  split
  · exact .modifyBoard r ..
  · split
    · exact (Beside.push r executor (t := .seal fence) rfl rfl).trans
        (.elsewhere rfl rfl rfl rfl rfl rfl rfl)
    · exact .elsewhere rfl rfl rfl rfl rfl rfl rfl

theorem beside_raiseFence (here : Option Nat) (f : Fence) (r : Runner) :
    Beside nobody r (raiseFence here f r) := by
  have noted : Beside nobody r { r with fences := r.fences ++ [f] } :=
    .elsewhere rfl rfl rfl rfl rfl rfl rfl
  refine noted.trans (.trans ?_ (.push _ 0 (t := .announce r.fences.length) rfl rfl))
  exact .foldl (beside_sealOn here r.fences.length f) _ _

theorem beside_tell (here : Option Nat) (phase : String) (r : Runner) :
    Beside nobody r (r.tell here phase) := by
  unfold tell
  split
  · exact .refl r
  · dsimp only
    split
    · exact beside_deliver ..
    · split
      · exact beside_raiseFence ..
      · exact beside_deliver ..

theorem aside_wake (phase : String) (r : Runner) : Aside may r (r.wake phase) := by
  unfold wake
  have under : ∀ run ∈ r.runs.filter fun run => run.phase = phase ∧ Point.isWaiting run.point,
      run ∈ r.runs := fun _ hm => (List.mem_filter.mp hm).1
  generalize r.runs.filter _ = waiting at under ⊢
  induction waiting generalizing r with
  | nil => exact .refl r
  | cons run rest ih =>
    have called : Aside may r (r.push (r.executorOf run.session) (.resume run.id)) :=
      .call ⟨run, under run List.mem_cons_self, rfl, rfl⟩
    exact called.trans (ih _ fun other hm => under other (List.mem_cons_of_mem _ hm))

/-- A move changes where the phase stands. What comes after that changes no holder. -/
theorem beside_move (here : Option Nat) (phase : String) (s : Standing) (r : Runner) :
    Beside nobody (r.modifyInstance phase fun i => { i with standing := s })
      (r.move here phase s) := by
  unfold move
  dsimp only
  split
  · exact (aside_wake phase _).beside.trans (beside_tell ..)
  · exact beside_tell ..

theorem holders_move (here : Option Nat) (phase : String) (s : Standing) (r : Runner) :
    SameHolders (r.modifyInstance phase fun i => { i with standing := s })
      (r.move here phase s) := (beside_move here phase s r).holders

theorem runs_moveIf (here : Option Nat) (phase : String) (r : Runner) (s? : Option Standing) :
    (r.moveIf here phase s?).runs.map Run.core = r.runs.map Run.core := by
  cases s? with
  | none => rfl
  | some s => exact (holders_move here phase s r).runs

theorem runs_failPhase (here : Option Nat) (phase : String) (f : Failure) (r : Runner) :
    (r.failPhase here phase f).runs.map Run.core = r.runs.map Run.core := by
  unfold failPhase
  dsimp only
  split
  · rfl
  · exact runs_moveIf ..

end Notices

end LoadGen.Runner
