import LoadGen.Proofs.CourseLogs
import LoadGen.Proofs.Termination

namespace LoadGen.Runner

section Stops

/-- Where the failures among what comes to pass lead at first. -/
def failuresIn (here : Option Nat) (log : List Occurrence) : List Runner :=
  log.filterMap fun
    | .comes ⟨run, .fails f, r⟩ => some (r.failPhase here run.phase f)
    | _ => none

def stops (r : Runner) (e : Happening) : List Runner :=
  failuresIn e.place (r.occurrences e) ++ (r.after? e).toList

/-- Where happenings lead, one after the other, step by step. -/
def path : Runner → List Happening → List Runner
  | _, [] => []
  | r, e :: es => r.stops e ++ ((r.after? e).map fun r => path r es).getD []

end Stops

/-- Changes that move no phase, and of which the listener hears nothing. -/
structure Lull (r r' : Runner) : Prop extends SameLedger r r' where
  stages : Stages r r'
  notices : r'.notices = r.notices
  listening : r'.listening = r.listening

/-- One step on the way, with one move of a phase at most. -/
inductive Stride (r : Runner) : Runner → Prop
  | lull {r' : Runner} : Lull r r' → Stride r r'
  | move (here : Option Nat) {phase : String} {i : Instance} {s : Standing} :
      r.instances.get? phase = some i → i.standing.status.rank < s.status.rank →
        (∀ key, r.keyOf phase = some key → (r.groups.get? key).isSome) →
        (s.status = .terminated → s.terminatedAt = some r.now) → Stride r (r.move here phase s)
  | survey (recent : Option Nat) : Stride r (r.beginSurvey recent).2
  | pruning : Stride r r.beginPruning.2
  | order {loop : Nat} {t : Task} {loops : LoopGroup Task} :
      r.loops.next? loop = some (t, loops) → t.isOrder = true →
        Stride r ({ r with loops := loops }.perform loop t)

/-- A way through some stops. There may be lulls in between. -/
inductive Route : Runner → List Runner → Runner → Prop
  | refl {r : Runner} : Route r [] r
  | rest {r q r' : Runner} {stops : List Runner} :
      Lull r q → Route q stops r' → Route r stops r'
  | head {r q r' : Runner} {stops : List Runner} :
      Stride r q → Route q stops r' → Route r (q :: stops) r'

variable {r q r' : Runner}

theorem Route.one (h : Stride r r') : Route r [r'] r' := .head h .refl

theorem Lull.route (h : Lull r r') : Route r [r'] r' := .one (.lull h)

theorem Route.trans {l l' : List Runner} (h : Route r l q) (k : Route q l' r') :
    Route r (l ++ l') r' := by
  induction h with
  | refl => exact k
  | rest h _ ih => exact .rest h (ih k)
  | head h _ ih => exact .head h (ih k)

section Lulls

theorem SameRecord.lull (h : SameRecord r r') : Lull r r' :=
  { h.ledger with
    stages := h.stages
    notices := h.notices
    listening := h.listening }

theorem Lull.refl (r : Runner) : Lull r r := (SameRecord.refl r).lull

theorem Lull.trans (h : Lull r q) (k : Lull q r') : Lull r r' :=
  { h.toSameLedger.trans k.toSameLedger with
    stages := h.stages.trans k.stages
    notices := k.notices.trans h.notices
    listening := k.listening.trans h.listening }

theorem record_answers {phase : String} {a : Answer} (h : Answers r phase a r') :
    SameRecord r r' := by
  cases h with
  | refused => exact .refl r
  | short _ _ _ ha => exact (aside_acquire ha).record
  | granted _ _ _ ha => exact (record_acquire ha).trans (record_employ ..)

theorem record_enroll {here : Option Nat} {phase : String}
    (h : r.carryOut here (.enroll phase) = .ok r') : SameRecord r r' := by
  obtain ⟨i, _, h⟩ := bind_eq_ok.mp h
  cases h
  exact record_answers (answers r phase)

/-- Work that does nothing to the phases, except that it admits sessions. -/
theorem Shifts.lull {m : Remit} (hm : ∀ d, m.deeds d → ∃ phase, d = .enroll phase) (o : r.Owned)
    (h : Shifts m r r') : Lull r r' := by
  have step : ∀ {q q' : Runner}, Shift m q q' → SameLedger q q' ∧ q'.notices = q.notices ∧
      q'.listening = q.listening := by
    intro q q' h
    cases h with
    | aside h => exact ⟨h.record.ledger, h.record.notices, h.record.listening⟩
    | ensure => exact ⟨ledger_modifyGroup .., rfl, rfl⟩
    | record => exact ⟨ledger_modifyGroup .., rfl, rfl⟩
    | clock => exact ⟨ledger_elsewhere rfl rfl rfl rfl rfl, rfl, rfl⟩
    | deed here d hd _ h =>
      obtain ⟨phase, rfl⟩ := hm d hd
      have same := record_enroll h
      exact ⟨same.ledger, same.notices, same.listening⟩
  have whole : SameLedger r r' ∧ r'.notices = r.notices ∧ r'.listening = r.listening := by
    clear o
    induction h with
    | refl => exact ⟨.refl r, rfl, rfl⟩
    | tail _ h ih =>
      obtain ⟨ledger, notices, listening⟩ := step h
      exact ⟨ih.1.trans ledger, notices.trans ih.2.1, listening.trans ih.2.2⟩
  exact { whole.1 with
    stages := h.stages o
    notices := whole.2.1
    listening := whole.2.2 }

end Lulls

section Turns

theorem Upshot.route {here : Option Nat} (o : r.Owned) (h : Upshot r here r') :
    Route r [r'] r' := by
  cases h with
  | same h => exact h.lull.route
  | @move r₁ phase i s h hi hs ht =>
    refine .rest h.lull
      (.one (.move here hi hs (fun key hk => h.grouped (o.grouped phase key ?_)) ht))
    rw [← h.keyOf_eq]
    exact hk

theorem route_failPhase (here : Option Nat) (phase : String) (f : Failure) (o : r.Owned) :
    Route r [r.failPhase here phase f] (r.failPhase here phase f) := by
  rcases @failPhase_cases nobody here phase f r with h | h
  · exact h.record.lull.route
  · exact (effect_of_deed (fun _ h => by cases h) h).upshot.route o

theorem route_unwind (here : Option Nat) (run : Run) (o : r.Owned) :
    Route r [r.unwind here run] (r.unwind here run) := (upshot_unwind here run r).route o

theorem route_fails (here : Option Nat) (run : Run) (f : Failure) (o : r.Owned) :
    Route r [r.failPhase here run.phase f, (r.failPhase here run.phase f).unwind here run]
      ((r.failPhase here run.phase f).unwind here run) := by
  have failed : Shifts { deeds := fun _ => True } r (r.failPhase here run.phase f) :=
    shifts_failPhase here r trivial
  exact (route_failPhase here run.phase f o).trans (route_unwind here run (o.shifts failed))

theorem shifts_host {run : Run} {actions : List Action} {e : TurnEnd}
    (h : Acts run actions r e q) :
    Shifts { calls := (· = run.id), buckets := (· = run.session) } r q :=
  shifts_acts ⟨rfl, rfl⟩ h

theorem lull_acts {run : Run} {actions : List Action} {e : TurnEnd} (o : r.Owned)
    (h : Acts run actions r e q) : Lull r q :=
  (shifts_host h).lull (fun _ hd => by cases hd) o

theorem lull_reset (r : Runner) (session : Nat) :
    Lull r (r.modifySession session (·.reset)) := (@aside_reset nobody r session).record.lull

theorem Owned.reset (o : r.Owned) (session : Nat) :
    (r.modifySession session (·.reset)).Owned := o.same (@aside_reset nobody r session).holders

theorem route_works {here : Option Nat} {run : Run} {early : Bool} {actions : List Action}
    {log : List Occurrence} (o : r.Owned) (h : Works here run early actions r log r') :
    Route r (failuresIn here log ++ [r']) r' := by
  induction h with
  | @waits _ _ _ q p h =>
    have waits : Aside nobody q (q.setPoint run p) := .setPoint q run p
    exact .rest (lull_acts o h) waits.record.lull.route
  | fails h => exact .rest (lull_acts o h) (route_fails here run _ (o.shifts (shifts_host h)))
  | ends h => exact .rest (lull_acts o h) (route_unwind here run (o.shifts (shifts_host h)))
  | putsOff h =>
    exact .rest (lull_acts o h) (@aside_putOff nobody _ run h.after.has).record.lull.route
  | again h _ _ ih =>
    have acted := o.shifts (shifts_host h)
    exact .rest (lull_acts o h) (.rest (lull_reset ..) (ih (acted.reset run.session)))

theorem route_resumes {here : Option Nat} {id : Nat} {log : List Occurrence} (o : r.Owned)
    (h : Resumes here id r log r') : Route r (failuresIn here log ++ [r']) r' := by
  cases h with
  | nobody => exact (Lull.refl r).route
  | stays => exact (Lull.refl r).route
  | @interrupted run =>
    have broken := @aside_breakOff nobody r run
    exact .rest broken.record.lull (route_unwind here run (o.same broken.holders))
  | @begins run _ _ _ _ _ _ h =>
    have works := route_works (o.reset run.session) h
    exact .rest (lull_reset r run.session) works
  | carriesOn _ _ h => exact route_works o h
  | fails => exact route_fails here _ _ o

end Turns

section Happenings

theorem route_begin (o : r.Owned) {phase : String} (h : r.begin phase = .ok r') :
    Route r [r'] r' := by
  obtain ⟨i, s, r₁, hi, hs, hr, rfl⟩ := begin_cases h
  have lawful := o.lawful phase i hi
  obtain ⟨_, _, hn, _⟩ := Standing.start_lawful lawful hs
  have rank := Standing.start_rank lawful hs
  have ends : ∀ {q : Runner}, s.status = .terminated → s.terminatedAt = some q.now :=
    fun he => absurd he (Standing.start_ne_terminated lawful hs)
  rcases hr with ⟨key, hk, rfl⟩ | rfl
  · have key_eq : r.keyOf phase = some key := by rw [keyOf, hi]; exact hk
    have idle : r.status? phase = some .notStarted := by rw [status?, hi]; exact congrArg some hn
    have entered := holders_enterGroup r key phase
    obtain ⟨j, hj, he⟩ := entered.instance_to hi
    obtain ⟨loops, rest⟩ := enterGroup_eq r key phase
    have w : Lull r (r.enterGroup key phase) := { ledger_enterGroup r key phase with
      stages := .single (.enter key_eq idle)
      notices := by rw [rest]; rfl
      listening := by rw [rest]; rfl }
    refine .rest w (.one (.move none hj ?_ ((o.same entered).grouped phase) ends))
    rw [Instance.core_status he]
    exact rank
  · exact .one (.move none hi rank (o.grouped phase) ends)

/-- The deeds of a happening are admissions, unless it is a deed itself or the turn of a run. -/
theorem remit_enrolls {e : Happening} (hd : ∀ here d, e ≠ .deed here d)
    (hr : ∀ loop id loops, e = .turn loop → r.loops.next? loop ≠ some (.resume id, loops)) :
    ∀ d, (r.remit e).deeds d → ∃ phase, d = .enroll phase := by
  intro d h
  cases e with
  | deed here d => exact absurd rfl (hd here d)
  | turn loop =>
    rcases r.remit_turn loop with nothing | ⟨t, loops, hn, may⟩
    · rw [nothing] at h
      cases h
    · rw [may] at h
      cases t with
      | resume id => exact absurd hn (hr loop id loops rfl)
      | pace name =>
        obtain ⟨i, _, _, _, _, rfl⟩ := h
        exact ⟨_, rfl⟩
      | _ => cases h
  | command id c => cases c <;> cases h
  | _ => cases h

theorem failuresIn_paces {here : Option Nat} {phase : String} {log : List Occurrence}
    (h : Paces phase r log r') : failuresIn here log = [] := by
  refine List.filterMap_eq_nil_iff.mpr fun o ho => ?_
  obtain ⟨_, _, rfl⟩ := h.mem o ho
  rfl

theorem stops_of_ne {e : Happening}
    (hr : ∀ loop id loops, e = .turn loop → r.loops.next? loop ≠ some (.resume id, loops))
    (h : r.after? e = some r') : r.stops e = [r'] := by
  have silent : failuresIn e.place (r.occurrences e) = [] := by
    cases e with
    | deed here d =>
      cases d with
      | complete id =>
        simp only [occurrences]
        cases r.runs.find? (·.id == id) <;> rfl
      | _ => rfl
    | turn loop =>
      obtain ⟨t, loops, hn, _⟩ := step?_eq_some h
      rw [occurrences_of_next hn]
      cases t with
      | resume id => exact absurd hn (hr loop id loops rfl)
      | pace phase => exact failuresIn_paces (paces phase _)
      | _ => rfl
    | _ => rfl
  rw [stops, silent, h]
  rfl

theorem route_of_after {e : Happening} (o : r.Owned) (ha : r.Allowed e)
    (h : r.after? e = some r') : Route r (r.stops e) r' := by
  by_cases hr : ∃ loop id loops, e = .turn loop ∧ r.loops.next? loop = some (.resume id, loops)
  · obtain ⟨loop, id, loops, rfl, hn⟩ := hr
    have taken : Aside nobody r { r with loops := loops } := .take hn rfl
    have came := resumes (some loop) id { r with loops := loops }
    have result : { r with loops := loops }.resume (some loop) id = r' :=
      Option.some.inj ((step?_of_next hn).symm.trans h)
    rw [result] at came
    rw [stops, occurrences_of_next hn, h]
    exact .rest taken.record.lull (route_resumes (o.same taken.holders) came)
  · have hr : ∀ loop id loops, e = .turn loop → r.loops.next? loop ≠ some (.resume id, loops) :=
      fun loop id loops he hn => hr ⟨loop, id, loops, he, hn⟩
    rw [stops_of_ne hr h]
    by_cases hd : ∃ here d, e = .deed here d ∧ ∀ phase, d ≠ .begin phase
    · obtain ⟨here, d, rfl, hb⟩ := hd
      exact (effect_of_deed hb (toOption_eq_some.mp h)).upshot.route o
    · cases change_of_after ha h with
      | begin h => exact route_begin o h
      | survey recent => exact .one (.survey recent)
      | pruning => exact .one .pruning
      | order hn ht => exact .one (.order hn ht)
      | work hb _ hs =>
        refine (hs.lull (remit_enrolls (fun here d he => ?_) hr) o).route
        exact hd ⟨here, d, he, fun phase same => hb here phase (by rw [he, same])⟩

theorem path_eq (r : Runner) (es : List Happening) : r.path es = r.trail stops es := by
  induction es generalizing r with
  | nil => rfl
  | cons e es ih => simp only [path, trail, ih]

theorem Course.route {r₀ : Runner} {es : List Happening} (h₀ : r₀.Initial) (h : Course r₀ es r) :
    Route r₀ (r₀.path es) r := by
  rw [path_eq]
  induction h with
  | refl => exact .refl
  | next hc ha he ih =>
    rw [hc.trail_next stops he]
    exact ih.trans (route_of_after (hc.owned h₀) ha he)

end Happenings

end LoadGen.Runner
