import LoadGen.Proofs.Refusals
import LoadGen.Proofs.SessionWrites

namespace LoadGen.Runner

variable {home : String → Option String} {R : Region} {held : List Nat} {r r₁ r' : Runner}

section Regions

def ofSession (r : Runner) (home : String → Option String) (session : Nat) : Region :=
  match r.session? session with
  | some s => .group home s.group
  | none => .nothing

def ofRequest (r : Runner) (home : String → Option String) (request : Nat) : Region :=
  match r.owner? request with
  | some session => r.ofSession home session
  | none => .nothing

def ofRun (r : Runner) (home : String → Option String) (id : Nat) : Region :=
  match r.runs.find? (·.id == id) with
  | some run => .own home run.phase
  | none => .nothing

def ofFence (r : Runner) (home : String → Option String) (fence : Nat) : Region :=
  match r.fences[fence]? with
  | some f => .own home f.phase
  | none => .nothing

/-- What a task may write to. Pruning goes through all groups, but is about one phase. -/
def ofTask (r : Runner) (home : String → Option String) : Task → Region
  | .stamp key _ _ => .group home key
  | .seal fence => r.ofFence home fence
  | .announce fence => r.ofFence home fence
  | .resume run => r.ofRun home run
  | .pace phase => .own home phase
  | .read _ _ key => .group home key
  | .prune _ phase => .own home phase
  | .expire request => r.ofRequest home request

def ofDeed (r : Runner) (home : String → Option String) : Deed → Region
  | .begin phase => .own home phase
  | .finish phase => .own home phase
  | .tryTerminate phase => .own home phase
  | .terminate phase => .own home phase
  | .fail phase _ => .own home phase
  | .enroll phase => .own home phase
  | .complete run => r.ofRun home run

/-- What a happening may write to. Only a look at all pools at once is about all groups. -/
def region (r : Runner) (home : String → Option String) : Happening → Region
  | .deed _ d => r.ofDeed home d
  | .pace phase => .own home phase
  | .exceedLimit phase => .own home phase
  | .phasePoolStats phase => .own home phase
  | .turn loop =>
    match r.loops.next? loop with
    | some (t, _) => r.ofTask home t
    | none => .nothing
  | .openGate session _ => r.ofSession home session
  | .createRequest session _ => r.ofSession home session
  | .command request _ => r.ofRequest home request
  | .letGo request => r.ofRequest home request
  | .poolStats => .everything
  | .advance .. | .clock _ | .openConnections | .addConnection _ | .beginSurvey _ | .beginPruning =>
    .nothing

/-- Requests are made for sessions that there are, and it is with such requests that something is
done. -/
def Sensible (r : Runner) : Happening → Prop
  | .createRequest session _ => session < r.sessions.length
  | .command request _ => request < r.requests.length
  | _ => True

theorem inside_ofSession {session : Nat} (h : session < r.sessions.length) :
    r.Inside (r.ofSession home session) session := by
  have hs : r.session? session = some r.sessions[session] := List.getElem?_eq_getElem h
  rw [ofSession, hs]
  exact ⟨_, rfl, mem_members.mpr ⟨_, hs, rfl⟩⟩

theorem inside_ofRequest (k : Keyed home r) {request session : Nat}
    (ho : r.owner? request = some session) : r.Inside (r.ofRequest home request) session := by
  rw [ofRequest, ho]
  apply inside_ofSession
  obtain ⟨q, hq, rfl⟩ := Option.map_eq_some_iff.mp ho
  exact k.owned _ (List.mem_map_of_mem (List.mem_of_getElem? hq))

end Regions

section Tasks

theorem writes_read (loop survey slot : Nat) {key : String} (hk : R.keys key) (r : Runner) :
    Writes home R held r (r.read loop survey slot key) := by
  have answered : ∀ (q : Runner) snapshots,
      Writes home R held q (q.answerSurvey survey slot snapshots) := fun _ _ =>
    writes_notes rfl rfl rfl rfl rfl rfl rfl rfl rfl rfl rfl
  unfold read
  split
  · rename_i s b _ hb
    split
    · exact answered ..
    · rename_i now _
      obtain ⟨g, hg, hb⟩ := Option.bind_eq_some_iff.mp hb
      refine Writes.trans (writes_modifyBoard r loop hk fun g' b' hg' hb' => ?_) (answered ..)
      cases hg.symm.trans hg'
      cases hb.symm.trans hb'
      exact ⟨rfl, fun _ hm => .inl (Board.phaseNames_of_dates (b.dates_takeRecent now) ▸ hm)⟩
  · exact .refl

theorem modifyBoard_prune_foreign (k : Keyed home r) {key phase : String}
    (hn : home phase ≠ some key) (loop : Nat) :
    r.modifyBoard key loop (·.prune phase) = r := by
  have same : ∀ b : Board, phase ∉ b.phaseNames → b.prune phase = b := by
    intro b hb
    rw [Board.prune, List.filter_eq_self.mpr]
    intro p hp
    simp only [bne_iff_ne, ne_eq]
    exact fun he => hb (he ▸ List.mem_map_of_mem hp)
  have groups : r.groups.modify key (fun g =>
      { g with boards := g.boards.modify loop (·.prune phase) }) = r.groups := by
    rw [Dict.modify]
    have entries : r.groups.entries.map (fun p => if p.1 = key then
        (p.1, { p.2 with boards := p.2.boards.modify loop (·.prune phase) }) else (p.1, p.2)) =
        r.groups.entries := by
      rw [List.map_congr_left, List.map_id]
      intro p hp
      split
      · rename_i he
        have hg : r.groups.get? key = some p.2 := Dict.get?_of_mem_entries k.distinct (he ▸ hp)
        have boards : p.2.boards.modify loop (·.prune phase) = p.2.boards := by
          apply List.ext_getElem?
          intro n
          rw [List.getElem?_modify]
          split
          · cases hb : p.2.boards[n]? with
            | none => rfl
            | some b =>
              have clean : phase ∉ b.phaseNames := fun hm =>
                hn (k.boards key p.2 hg b (List.mem_of_getElem? hb) phase hm)
              simp [same b clean]
          · simp
        rw [boards]
        rfl
      · rfl
    exact congrArg Dict.mk entries
  unfold Runner.modifyBoard Runner.modifyGroup
  rw [groups]

theorem writes_perform (loop : Nat) (t : Task) (k : Keyed home r) (ht : t.Homed home) :
    Writes home (r.ofTask home t) held r (r.perform loop t) := by
  cases t with
  | stamp key phase time =>
    refine writes_modifyBoard r loop rfl fun _ b _ _ => ⟨rfl, fun other hm => ?_⟩
    rcases Board.mem_phaseNames_startPhase.mp hm with old | rfl
    · exact .inl old
    · exact .inr ht
  | «seal» fence =>
    refine writes_sealed loop fence r fun f hm hf => ?_
    simp only [ofTask, ofFence, hf]
    exact k.fences f hm
  | announce fence => exact writes_announce fence r
  | resume run =>
    refine writes_resumes k (fun found hf => ?_) (resumes (some loop) run r)
    simp only [ofTask, ofRun, hf]
    exact .own home found.phase
  | pace phase => exact writes_paces (.own home phase) k (paces phase r)
  | read survey slot key => exact writes_read loop survey slot rfl r
  | prune key phase =>
    by_cases homed : home phase = some key
    · exact writes_modifyBoard r loop homed fun _ b _ _ =>
        ⟨rfl, fun other hm => .inl (Board.mem_phaseNames_prune.mp hm).1⟩
    · -- pruning comes to the boards of all groups, also of those that the phase is not of
      have same := modifyBoard_prune_foreign k homed loop
      simp only [perform, Telling.perform, same]
      exact .refl
  | expire request =>
    cases hq : r.request? request with
    | none =>
      simp only [perform, Telling.perform, Runner.expire, hq]
      exact .refl
    | some q =>
      have ho : r.owner? request = some q.session := by rw [owner?, hq]; rfl
      exact writes_expire k ho (inside_ofRequest k ho)

theorem writes_turn {loop : Nat} (k : Keyed home r) (h : r.step? loop = some r') :
    Writes home (r.region home (.turn loop)) held r r' := by
  obtain ⟨t, loops, hn, rfl⟩ := step?_eq_some h
  obtain ⟨taken, pending⟩ :
      Writes home (r.region home (.turn loop)) held r { r with loops := loops } ∧ r.Pending t :=
    writes_next hn
  have done : Writes home (r.ofTask home t) held { r with loops := loops }
      ({ r with loops := loops }.perform loop t) :=
    writes_perform loop t (taken.keyed k) (k.tasks t pending)
  simp only [region, hn] at taken ⊢
  exact taken.trans done

end Tasks

section Deeds

theorem writes_carryOut {here : Option Nat} {d : Deed} (k : Keyed home r)
    (h : r.carryOut here d = .ok r') : Writes home (r.ofDeed home d) held r r' := by
  cases does h with
  | begin h => exact writes_begin (.own home _) k h
  | finish hi ends | tryTerminate hi ends | terminate hi ends =>
    exact writes_moveIf here (.own home _) k hi fun _ => ends.onward
  | fail => exact writes_failPhase here _ (.own home _) k
  | enroll phase => exact writes_answers (.own home phase) k (answers r phase)
  | @complete run found =>
    have own : r.ofDeed home (.complete run.id) = .own home run.phase := by
      simp only [ofDeed, ofRun, found]
    rw [own]
    exact writes_unwind here k (.own home run.phase) found.mem

theorem writes_attemptFinish {name : String} (hc : R.Covers home name) (k : Keyed home r) :
    Writes home R held r (r.attemptFinish name).2 := by
  unfold attemptFinish
  split
  · exact .refl
  · rename_i i hi
    split
    · exact .refl
    · rename_i s? hs
      refine writes_moveIf none hc k hi fun s he => ?_
      rw [he] at hs
      exact Standing.finish_onward hs

theorem writes_attemptLaunch {name : String} (hc : R.Covers home name) (k : Keyed home r)
    (model : Model) : Writes home R held r (r.attemptLaunch name model).2 := by
  have admitted : ∀ users, Writes home R held r (startSessions name users r) := fun users =>
    writes_hires hc k (hires_startSessions name users r)
  cases model with
  | noop => exact .refl
  | atOnce users =>
    exact (admitted users).trans (writes_attemptFinish hc ((admitted users).keyed k))
  | always users => exact admitted users
  | paced => exact writes_startPacer r name

theorem writes_attemptRun {name : String} (hc : R.Covers home name) (k : Keyed home r) :
    Writes home R held r (r.attemptRun name).2 := by
  unfold attemptRun
  split
  · exact .refl
  · rename_i i hi
    split
    · exact .refl
    · rename_i s hs
      have begun : Writes home R held r (r.move none name s) := by
        refine writes_move none hc k fun j hj => ?_
        cases hi.symm.trans hj
        exact Standing.start_kept hs
      exact begun.trans (writes_attemptLaunch hc (begun.keyed k) i.phase.model)

/-- An order to a phase is about the phase and its group, whether it is refused or not. -/
theorem writes_order (k : Keyed home r) (name : String) (o : Order) :
    Writes home (.own home name) held r (r.order name o).2 := by
  have hc := Region.Covers.own home name
  cases o with
  | start =>
    simp only [order, attemptStart]
    split
    · exact .refl
    · rename_i i hi
      split
      · split
        · rename_i key g hg
          have homed := home_of_groupOf? k hi hg
          have entered : Writes home (.own home name) held r (r.enterGroup key name) :=
            writes_enterGroup (hc.keys key homed) homed r
          exact entered.trans (writes_attemptRun hc (entered.keyed k))
        · exact writes_attemptRun hc k
      · exact .refl
  | finish => exact writes_attemptFinish hc k
  | tryTerminate =>
    simp only [order, attemptTryTerminate]
    split
    · exact .refl
    · rename_i i hi
      split
      · rename_i s hs
        refine writes_move none hc k fun j hj => ?_
        cases hi.symm.trans hj
        exact (Standing.tryTerminate_onward hs).kept
      · exact .refl
  | terminate =>
    simp only [order, attemptTerminate]
    split
    · exact .refl
    · rename_i i hi
      exact writes_moveIf none hc k hi fun s => Standing.terminate_onward

end Deeds

section Happenings

theorem kept_resetMarks (mine : String → Prop) (g : Group) : g.Kept mine (resetMarks g) :=
  { Group.Kept.refl mine g with }

theorem writes_phasePoolStats {name : String} {stats : List (String × Nat × Nat)}
    (k : Keyed home r) (h : r.phasePoolStats name = .ok (stats, r')) :
    Writes home (.own home name) held r r' := by
  obtain ⟨i, hi, h⟩ := bind_eq_ok.mp h
  split at h
  · cases h
    exact .refl
  · rename_i key g hg
    cases h
    have homed := home_of_groupOf? k (instance?_eq_ok.mp hi) hg
    exact .single (.group key homed fun g _ => kept_resetMarks _ g)

theorem writes_openConnections (r : Runner) : Writes home R held r r.openConnections.2 := by
  have started : Writes home R held r { r with
      clients := r.clients.map fun c => { c with starts := c.starts + 1 } } :=
    writes_notes rfl rfl rfl rfl rfl rfl rfl rfl rfl rfl rfl
  unfold openConnections
  dsimp only
  split
  · exact started
  · exact started.trans (writes_report ..)

theorem writes_after {e : Happening} (k : Keyed home r) (hs : r.Sensible e)
    (h : r.after? e = some r') : Writes home (r.region home e) held r r' := by
  cases e with
  | deed here d => exact writes_carryOut k (toOption_eq_some.mp h)
  | pace phase =>
    cases h
    exact writes_startPacer r phase
  | exceedLimit phase =>
    exact writes_setLimit (Region.Covers.own home phase).self (toOption_eq_some.mp h)
  | turn loop => exact writes_turn k h
  | advance loop time =>
    cases h
    exact writes_advance r loop time
  | clock now =>
    cases h
    exact writes_notes rfl rfl rfl rfl rfl rfl rfl rfl rfl rfl rfl
  | openGate session f =>
    obtain ⟨run, hm, rfl, _⟩ := openGate_eq_some h
    obtain ⟨key, hk, there⟩ := k.staffed run hm
    obtain ⟨s, hs', rfl⟩ := mem_members.mp there
    simp only [region, ofSession, show r.session? run.session = some s from hs']
    exact writes_openGate k there h
  | openConnections =>
    cases h
    exact writes_openConnections r
  | createRequest session recovery =>
    cases h
    exact .single (.wish (inside_ofSession hs) rfl)
  | command request c =>
    have hq : r.request? request = some (r.requests.get ⟨request, hs⟩) :=
      List.getElem?_eq_getElem hs
    have ho : r.owner? request = some (r.requests.get ⟨request, hs⟩).session := by
      rw [owner?, hq]
      rfl
    exact writes_command k ho (inside_ofRequest k ho) (toOption_eq_some.mp h)
  | letGo request =>
    cases h
    refine .single (.request request fun q hq => ⟨inside_ofRequest k ?_, rfl, fun _ => .inl⟩)
    rw [owner?, hq]
    rfl
  | addConnection c =>
    cases h
    exact writes_notes rfl rfl rfl rfl rfl rfl rfl rfl rfl rfl rfl
  | beginSurvey recent =>
    cases h
    have asked : ∀ survey, Writes home (r.region home (.beginSurvey recent)) held r
        { r with surveys := r.surveys ++ [survey] } := fun _ =>
      writes_notes rfl rfl rfl rfl rfl rfl rfl rfl rfl rfl rfl
    exact (asked _).trans (writes_foldl_push (fun p : (String × Nat) × Nat => p.1.2)
      (fun p => .read r.surveys.length p.2 p.1.1) (fun _ => trivial) _ _)
  | beginPruning =>
    cases h
    have emptied : Writes home (r.region home .beginPruning) held r { r with pruneQueue := [] } :=
      writes_notes rfl rfl rfl rfl rfl rfl rfl rfl rfl rfl rfl
    exact emptied.trans (writes_foldl_push (fun p : String × String × Nat => p.2.2)
      (fun p => .prune p.2.1 p.1) (fun _ => trivial) _ _)
  | poolStats =>
    cases h
    refine .single (.groups (fun _ => trivial) fun key g _ => ?_)
    split
    · exact kept_resetMarks _ g
    · exact .refl _ g
  | phasePoolStats phase =>
    obtain ⟨⟨stats, r₁⟩, ho, rfl⟩ := Option.map_eq_some_iff.mp h
    exact writes_phasePoolStats k (toOption_eq_some.mp ho)

end Happenings

end LoadGen.Runner
