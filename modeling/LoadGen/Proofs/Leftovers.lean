import LoadGen.Proofs.Accounts

namespace LoadGen.Runner

/-- The session has no variables, no sequence and no current request. -/
def Blank (r : Runner) (session : Nat) : Prop :=
  ∃ s, r.session? session = some s ∧ s.vars = .empty ∧ s.sequence = none ∧ s.current = none

/-- Nothing of the request is left where an iteration begins, and no timer of it that was armed
before waits at a later time. -/
structure Isolated (id : Nat) (m : Milestone) (later : Runner) : Prop where
  idle : ¬ m.runner.Carries m.run.session id
  silent : m.runner.owner? id = some m.run.session → m.runner.timersOf id = []
  since : m.runner.owner? id = some m.run.session → ∀ loop timer, (loop, timer) ∈ later.timersOf id →
    ∃ t, timer = some t ∧ m.runner.loops.armed loop ≤ t

variable {r r₀ : Runner} {es : List Happening} {log earlier later pre : List Milestone}
  {m : Milestone} {id : Nat} {started : Nat → Prop}

/-- A milestone that comes up in the end came up before, or in the last happening. -/
theorem split_concat {l l' : List Milestone} (h : l ++ l' = earlier ++ m :: later) :
    (∃ rest, l = earlier ++ m :: rest) ∨ ∃ pre, earlier = l ++ pre ∧ l' = pre ++ m :: later := by
  rcases List.append_eq_append_iff.mp h with ⟨pre, he, hl⟩ | ⟨rest, hl, hm⟩
  · exact .inr ⟨pre, he, hl⟩
  · cases rest with
    | nil => exact .inr ⟨[], by simpa using hl.symm, by simpa using hm.symm⟩
    | cons a rest =>
      obtain ⟨rfl, _⟩ := List.cons.inj hm
      exact .inl ⟨rest, hl⟩

theorem Onset.blank {q : Runner} (h : Onset r pre m q) (o : r.Owned) :
    m.runner.Blank m.run.session := by
  obtain ⟨s, hs, _⟩ := o.bound m.run h.there
  have there : m.run.session < q.sessions.length :=
    Nat.lt_of_lt_of_le (List.getElem?_eq_some_iff.mp hs).1 h.time.length_le
  rw [h.reset]
  refine ⟨(q.sessions[m.run.session]).reset, ?_, rfl, rfl, rfl⟩
  simp [session?, Runner.modifySession, there]

/-- An iteration begins on a session that was reset, however the last one on it ended. -/
theorem Course.blank (h₀ : r₀.Initial) (h : Course r₀ es r) (hm : m ∈ r₀.trail milestones es)
    (hj : m.juncture = .begins) : m.runner.Blank m.run.session := by
  induction h with
  | refl => cases hm
  | @next es e r₁ r₂ hc _ he ih =>
    rw [hc.trail_next milestones he] at hm
    rcases List.mem_append.mp hm with hm | hm
    · exact ih hm
    · obtain ⟨pre, post, hl⟩ := List.append_of_mem hm
      obtain ⟨_, _, _, onset, _⟩ := onset_of_milestones he hl hj
      exact onset.blank (hc.owned h₀)

/-- Where an iteration begins, a traced request is not in flight unless it was left behind. -/
theorem Onset.idle {q : Runner} (h : Onset r pre m q) (o : r.Owned)
    (t : Traced log id started r) (hn : ¬ LeftBy (log ++ pre) m.run id) :
    ¬ r.Carries m.run.session id := by
  intro hc
  rcases h.before with ⟨rfl, fresh⟩ | rfl
  · obtain ⟨ho, hs⟩ := t.inStep.carries_iff.mp hc
    obtain ⟨run, there, hsession, acc⟩ := t.accounted hs _ ho
    cases o.run_of_session there h.there hsession
    rw [List.append_nil] at hn
    exact acc.elim (absurd fresh) hn
  · obtain ⟨l, hl, hm⟩ := hc
    exact hn (leftBy_concat ⟨l, (h.work.inFlight _).trans hl, hm⟩)

/-- What is left of a request after an iteration began without it. -/
structure Cleared (id : Nat) (m : Milestone) (r : Runner) : Prop where
  idle : ¬ m.runner.Carries m.run.session id
  silent : m.runner.owner? id = some m.run.session → m.runner.timersOf id = [] ∧
    Minded id (fun loop => m.runner.loops.armed loop) True True r

theorem Onset.cleared {q r' : Runner} {here : Option Nat} {actions : List Action}
    {told : List Occurrence} (h : Onset r pre m q) (o : r.Owned) (t : Traced log id started r)
    (k : Minded id base True (started id) r) (hn : ¬ LeftBy (log ++ pre) m.run id)
    (works : Works here m.run false actions m.runner told r') : Cleared id m r' := by
  have gone := h.idle o t hn
  have reset : KeepsWork q m.runner := by
    rw [h.reset]
    exact .modifySession q _ fun _ => rfl
  have work := h.work.trans reset
  refine ⟨fun ⟨l, hl, hm⟩ => gone ⟨l, (work.inFlight _).symm.trans hl, hm⟩, fun ho => ?_⟩
  have owner : r.owner? id = some m.run.session := (work.spins.owner id).symm.trans ho
  have off : ¬ started id := fun hs => gone (t.inStep.carries_iff.mpr ⟨owner, hs⟩)
  have silent : r.Untimed id := by
    intro q hq
    cases ht : q.timer with
    | none => rfl
    | some t => exact absurd (k.late q t hq ht).2 off
  have minded := (h.time.minded k).untimed (h.time.untimed silent)
  have same : m.runner.loops = q.loops := by rw [h.reset]; rfl
  have rest := minded_works (h.reset ▸ minded_reset minded m.run.session) works
  rw [same]
  refine ⟨?_, rest.mono False.elim⟩
  have none := (h.time.minded k).silent (h.time.untimed silent)
  rw [timersOf] at none ⊢
  simpa only [waits, same] using none

theorem Used.cleared (h₀ : r₀.Initial) (h : Used id r₀ es r)
    (hl : r₀.trail milestones es = earlier ++ m :: later) (hj : m.juncture = .begins)
    (hn : ¬ LeftBy earlier m.run id) : Cleared id m r := by
  induction h generalizing later with
  | refl => simp [trail] at hl
  | @next es e r₁ r₂ hu ha huse he ih =>
    rw [hu.course.trail_next milestones he] at hl
    obtain ⟨started, traced, minded⟩ := hu.traced h₀
    rcases split_concat hl with ⟨rest, old⟩ | ⟨pre, rfl, new⟩
    · have cleared := ih old
      exact ⟨cleared.idle, fun ho => (cleared.silent ho).imp_right fun since =>
        huse.minded (traced.guarded minded) since he (fun _ => trivial) fun _ => trivial⟩
    · obtain ⟨here, q, _, onset, works⟩ := onset_of_milestones he new hj
      exact onset.cleared (hu.course.owned h₀) traced minded hn works

/-- Only a run that repeats its iterations can leave anything to the next one. -/
theorem Course.leftBy_repeated (h₀ : r₀.Initial) (h : Course r₀ es r)
    (hl : r₀.trail milestones es = earlier ++ m :: later) (hj : m.juncture = .begins)
    (left : LeftBy earlier m.run id) : repeated r₀.phases m.run.phase = true := by
  obtain ⟨last, hlast, returned, _⟩ := left
  obtain ⟨last', hlast', _, admitted | ⟨_, _, again⟩⟩ := h.previous h₀ hl hj
  · cases hlast.symm.trans hlast'
    rw [returned] at admitted
    cases admitted
  · exact again

/-- Whatever happens to a runner, an iteration begins on a session without variables, sequence and
current request. A request that is used by iterations only is not in flight then and has no timer,
unless the phase repeats its iterations and the last one of the run has returned with the request in
flight. From then on only timers fire that are set from then on. -/
theorem iterations_start_clean (h₀ : r₀.Initial) (h : Course r₀ es r) :
    ∀ earlier m later, r₀.trail milestones es = earlier ++ m :: later → m.juncture = .begins →
      m.runner.Blank m.run.session ∧ ∀ id, Used id r₀ es r →
        (repeated r₀.phases m.run.phase = true → ¬ LeftBy earlier m.run id) → Isolated id m r := by
  intro earlier m later hl hj
  have there : m ∈ r₀.trail milestones es := by
    rw [hl]
    exact List.mem_append_right _ List.mem_cons_self
  refine ⟨h.blank h₀ there hj, fun id used hn => ?_⟩
  have cleared := used.cleared h₀ hl hj fun left => hn (h.leftBy_repeated h₀ hl hj left) left
  refine ⟨cleared.idle, fun ho => (cleared.silent ho).1, fun ho loop timer hm => ?_⟩
  obtain ⟨t, ht, since, _⟩ := (cleared.silent ho).2.late_of_mem hm
  exact ⟨t, ht, since⟩

/-- A visit is completed before its iteration returns, and begun again by the next one, which sets it
another timer. -/
theorem completed_visit_isolated : ∃ es r earlier m later, Course gateRunner es r ∧
    gateRunner.trail milestones es = earlier ++ m :: later ∧ m.juncture = .begins ∧
      earlier.map (·.juncture) = [.admitted, .begins, .succeeds] ∧ Used 0 gateRunner es r ∧
        m.runner.owner? 0 = some m.run.session ∧ r.timersOf 0 = [(0, some 1)] ∧
          m.runner.Blank m.run.session ∧ Isolated 0 m r := by
  have u := @Used.refl 0 gateRunner
  have u := u.next (e := .deed none (.begin "login")) trivial trivial rfl
  have u := u.next (e := .deed none (.enroll "login")) trivial trivial rfl
  have u := u.next (e := .turn 0) (fun _ _ hl => by cases hl) trivial rfl
  have u := u.next (e := .turn 0) (fun _ _ hl => by cases hl) trivial rfl
  have u := u.next (e := .createRequest 0 .complete) trivial Nat.one_pos rfl
  have u := u.next (e := .command 0 (.begin "page" ⟨"visit", 0⟩))
    ⟨_, rfl, _, List.mem_singleton_self _, rfl⟩
    (fun _ => ⟨_, List.mem_singleton_self _, rfl, nofun⟩) rfl
  have u := u.next (e := .command 0 (.setTimeout ⟨1000⟩)) trivial
    (fun _ => ⟨0, _, rfl, List.mem_singleton_self _⟩) rfl
  have u := u.next (e := .command 0 .complete) trivial trivial rfl
  have u := u.next (e := .openGate 0 none) trivial trivial rfl
  have u := u.next (e := .turn 0) (fun _ _ hl => by cases hl) trivial rfl
  have u := u.next (e := .command 0 (.begin "page" ⟨"visit", 1⟩))
    ⟨_, rfl, _, List.mem_singleton_self _, rfl⟩
    (fun _ => ⟨_, List.mem_singleton_self _, rfl, nofun⟩) rfl
  have u := u.next (e := .command 0 (.setTimeout ⟨1000⟩)) trivial
    (fun _ => ⟨0, _, rfl, List.mem_singleton_self _⟩) rfl
  obtain ⟨blank, isolated⟩ := iterations_start_clean gateRunner_initial u.course
    [_, _, _] _ [] rfl rfl
  refine ⟨_, _, [_, _, _], _, [], u.course, rfl, rfl, rfl, u, rfl, rfl, blank,
    isolated 0 u fun _ left => ?_⟩
  obtain ⟨last, hlast, _, l, hl, hm⟩ := left
  cases hlast
  cases hl
  cases hm

/-- A visit is in flight when its iteration returns. The next one begins with the visit in flight,
and the timer ends the visit while the next one is under way. -/
theorem visit_left_in_flight : ∃ es r r' earlier m, Course gateRunner es r ∧
    Used 0 gateRunner es r ∧ gateRunner.trail milestones es = earlier ++ [m] ∧
      m.juncture = .begins ∧ ¬ Isolated 0 m r ∧ r.timersOf 0 = [(0, some 0)] ∧
        m.runner.timersOf 0 = [(0, some 0)] ∧
          r.doAll [.happens (.advance 0 ⟨2000⟩), .happens (.turn 0)] = some r' ∧ r'.UnderWay 0 ∧
            (r'.request? 0).map (·.sequence) = some (some ⟨"visit", 0⟩) ∧
              (r'.request? 0).map (·.verdict) = some .timedOut := by
  have u := @Used.refl 0 gateRunner
  have u := u.next (e := .deed none (.begin "login")) trivial trivial rfl
  have u := u.next (e := .deed none (.enroll "login")) trivial trivial rfl
  have u := u.next (e := .turn 0) (fun _ _ hl => by cases hl) trivial rfl
  have u := u.next (e := .turn 0) (fun _ _ hl => by cases hl) trivial rfl
  have u := u.next (e := .createRequest 0 .complete) trivial Nat.one_pos rfl
  have u := u.next (e := .command 0 (.begin "page" ⟨"visit", 0⟩))
    ⟨_, rfl, _, List.mem_singleton_self _, rfl⟩
    (fun _ => ⟨_, List.mem_singleton_self _, rfl, nofun⟩) rfl
  have u := u.next (e := .command 0 (.setTimeout ⟨1000⟩)) trivial
    (fun _ => ⟨0, _, rfl, List.mem_singleton_self _⟩) rfl
  have u := u.next (e := .openGate 0 none) trivial trivial rfl
  have u := u.next (e := .turn 0) (fun _ _ hl => by cases hl) trivial rfl
  refine ⟨_, _, ?later, [_, _, _], _, u.course, u, rfl, rfl, fun isolated => ?left, rfl, rfl, ?fired,
    ?ended⟩
  case left => exact isolated.idle ⟨_, rfl, List.mem_singleton_self 0⟩
  case fired =>
    refine (doAll_advance rfl (EventLoop.advance_of_timers_eq rfl rfl ?passed) _).trans ?turns
    case passed => decide
    case turns => rfl
  case ended => exact ⟨⟨_, List.mem_singleton_self _, rfl, nofun⟩, rfl, rfl⟩

end LoadGen.Runner
