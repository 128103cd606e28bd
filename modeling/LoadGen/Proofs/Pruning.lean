import LoadGen.Proofs.Dates
import LoadGen.Proofs.Growth
import LoadGen.Runner.Shutdown

namespace LoadGen.Runner

/-- Phases are written down for their own group only. -/
structure Filed (r : Runner) : Prop where
  names : ∀ key loop b, r.board? key loop = some b → ∀ phase ∈ b.phaseNames,
    r.keyOf phase = some key
  stamps : ∀ loop key phase time, .stamp key phase time ∈ r.orders loop → r.keyOf phase = some key

/-- The loop has no entry for the phase, and has no order to make one. -/
structure Swept (r : Runner) (key : String) (loop : Nat) (phase : String) : Prop where
  names : ∀ b, r.board? key loop = some b → phase ∉ b.phaseNames
  stamps : ∀ time, .stamp key phase time ∉ r.orders loop

/-- The loop is about to prune the phase, and has no order to write it down after that. -/
def Sweeping (r : Runner) (key : String) (loop : Nat) (phase : String) : Prop :=
  ∃ before after, r.orders loop = before ++ .prune key phase :: after ∧
    ∀ time, .stamp key phase time ∉ after

/-- The phase begins nothing any more, and no bucket is made for it. -/
def Closed (r : Runner) (phase : String) : Prop :=
  ∀ key, r.keyOf phase = some key → r.status? phase = some .terminated

/-- The first loop has carried out the end of the phase. -/
def Over (r : Runner) (phase : String) : Prop :=
  ∀ key, r.keyOf phase = some key → ∃ time, r.EndedOn 0 phase time

section Steps
variable {r r' : Runner} {key : String} {loop : Nat} {phase : String}

theorem Over.lasting (h : r.Over phase) (hs : 0 < r.loops.size) (k : Lasting r r') :
    r'.Over phase := by
  intro key hk
  rw [k.keys] at hk
  obtain ⟨time, ended⟩ := h key hk
  exact ⟨time, k.endedOn 0 hs phase time ended⟩

theorem Closed.ne_ensured (c : r.Closed phase) {other k : String} (hk : r.keyOf other = some k)
    (h : r.status? other ≠ some .terminated) : phase ≠ other := by
  rintro rfl
  exact h (c k hk)

theorem Closed.ne_entered (c : r.Closed phase) {other k : String} (hk : r.keyOf other = some k)
    (h : r.status? other = some .notStarted) : phase ≠ other :=
  c.ne_ensured hk (by simp [h])

theorem board?_enterGroup (r : Runner) (key name key' : String) (loop : Nat) :
    (r.enterGroup key name).board? key' loop = r.board? key' loop := by
  obtain ⟨loops, he⟩ := enterGroup_eq r key name
  rw [he]
  simp only [board?, Runner.modifyGroup, Dict.get?_modify]
  split
  · cases r.groups.get? key' <;> rfl
  · rfl

theorem SameDates.name_of (h : SameDates r r') {b' : Board} (hb : r'.board? key loop = some b') :
    ∃ b, r.board? key loop = some b ∧ b'.phaseNames = b.phaseNames := by
  have hd := h.dates key loop
  rw [hb] at hd
  obtain ⟨b, hb, he⟩ := Option.map_eq_some_iff.mp hd.symm
  exact ⟨b, hb, Board.phaseNames_of_dates he.symm⟩

theorem SameDates.stamp_of (h : SameDates r r') {name : String} {time : Nat}
    (hm : .stamp key name time ∈ r'.orders loop) : .stamp key name time ∈ r.orders loop := by
  obtain ⟨more, he, hn⟩ := h.orders loop
  rw [he] at hm
  rcases List.mem_append.mp hm with hm | hm
  · exact hm
  · cases hn _ hm

namespace Filed

theorem same (d : r.Filed) (h : SameDates r r') : r'.Filed where
  names := by
    intro key loop b' hb name hm
    obtain ⟨b, hb, he⟩ := h.name_of hb
    rw [he] at hm
    rw [h.keys]
    exact d.names key loop b hb name hm
  stamps := by
    intro loop key name time hm
    rw [h.keys]
    exact d.stamps loop key name time (h.stamp_of hm)

theorem modifyBoard (d : r.Filed) {f : Board → Board} (hf : ∀ b, r.board? key loop = some b →
    ∀ name ∈ (f b).phaseNames, name ∈ b.phaseNames ∨ r.keyOf name = some key) :
    (r.modifyBoard key loop f).Filed where
  names := by
    intro key' loop' b' hb' name hm
    rcases board?_modifyBoard_cases hb' with ⟨rfl, rfl, b, hb, rfl⟩ | hb
    · exact (hf b hb name hm).elim (d.names key' loop' b hb name) id
    · exact d.names key' loop' b' hb name hm
  stamps := d.stamps

theorem dating (d : r.Filed) (hr : r.loops.Running) (h : Dating r r') : r'.Filed := by
  cases h with
  | same h => exact d.same h
  | ensure loop metric hk =>
    apply d.modifyBoard
    intro b _ name hm
    rcases Board.mem_phaseNames_ensure.mp hm with hm | rfl
    · exact .inl hm
    · exact .inr hk
  | @enter name key hk =>
    have keys := (holders_enterGroup r key name).keyOf_eq
    refine ⟨fun key' loop b hb other hm => ?_, fun loop key' other time hm => ?_⟩
    · rw [board?_enterGroup] at hb
      rw [keys]
      exact d.names key' loop b hb other hm
    · rw [orders_enterGroup hr] at hm
      rw [keys]
      rcases List.mem_append.mp hm with hm | hm
      · exact d.stamps loop key' other time hm
      · split at hm
        · cases List.mem_singleton.mp hm
          exact hk
        · cases hm

theorem passage (d : r.Filed) (o : r.Fenced) (hr : r.loops.Running) (hs : 0 < r.loops.size)
    {e : Happening} (h : Passage r e r') : r'.Filed := by
  cases h with
  | survey recent => exact d.same (.beginSurvey r recent)
  | pruning => exact d.same (.beginPruning r)
  | @order loop t loops hn ht =>
    have taken := taken_of_next? o.prompt hn ht
    have left : ({ r with loops := loops } : Runner).Filed :=
      ⟨d.names, fun other key name time hm => d.stamps other key name time (taken.mem hm)⟩
    by_cases hstamp : t.isStamp = true
    · cases t with
      | stamp key name time =>
        apply left.modifyBoard
        intro b _ other hm
        rcases Board.mem_phaseNames_startPhase.mp hm with hm | rfl
        · exact .inl hm
        · refine .inr (d.stamps loop key other time ?_)
          rw [taken.first]
          exact List.mem_cons_self
      | _ => cases hstamp
    · by_cases hprune : ∃ key name, t = .prune key name
      · obtain ⟨key, name, rfl⟩ := hprune
        apply left.modifyBoard
        exact fun b _ other hm => .inl (Board.mem_phaseNames_prune.mp hm).1
      · exact left.same (dates_perform loop _ ht (by simpa using hstamp) fun key name he =>
          hprune ⟨key, name, he⟩)
  | stages _ h => exact (h.keep hr hs d fun hr _ d h => d.dating hr h.dating).1

end Filed

namespace Swept

theorem same (w : r.Swept key loop phase) (h : SameDates r r') : r'.Swept key loop phase where
  names := by
    intro b' hb
    obtain ⟨b, hb, he⟩ := h.name_of hb
    rw [he]
    exact w.names b hb
  stamps := fun time hm => w.stamps time (h.stamp_of hm)

theorem modifyBoard (w : r.Swept key loop phase) {key' : String} {loop' : Nat} {f : Board → Board}
    (hf : ∀ b, phase ∈ (f b).phaseNames → phase ∈ b.phaseNames ∨ ¬ (key = key' ∧ loop = loop')) :
    (r.modifyBoard key' loop' f).Swept key loop phase where
  names := by
    intro b' hb' hm
    rcases board?_modifyBoard_cases hb' with ⟨rfl, rfl, b, hb, rfl⟩ | hb
    · rcases hf b hm with hm | hn
      · exact w.names b hb hm
      · exact hn ⟨rfl, rfl⟩
    · exact w.names b' hb hm
  stamps := w.stamps

theorem dating (w : r.Swept key loop phase) (c : r.Closed phase) (hr : r.loops.Running)
    (h : Dating r r') : r'.Swept key loop phase := by
  cases h with
  | same h => exact w.same h
  | @ensure other k loop' metric hk ht =>
    apply w.modifyBoard
    intro b hm
    exact .inl ((Board.mem_phaseNames_ensure.mp hm).resolve_right (c.ne_ensured hk ht))
  | @enter other k hk hn =>
    refine ⟨fun b hb => ?_, fun time hm => ?_⟩
    · rw [board?_enterGroup] at hb
      exact w.names b hb
    · rw [orders_enterGroup hr] at hm
      rcases List.mem_append.mp hm with hm | hm
      · exact w.stamps time hm
      · split at hm
        · have he := List.mem_singleton.mp hm
          simp only [Task.stamp.injEq] at he
          exact c.ne_entered hk hn he.2.1
        · cases hm

theorem order (w : r.Swept key loop phase) (hp : r.Prompt) {other : Nat} {t : Task}
    {loops : LoopGroup Task} (hn : r.loops.next? other = some (t, loops)) (ht : t.isOrder = true) :
    ({ r with loops := loops }.perform other t).Swept key loop phase := by
  have taken := taken_of_next? hp hn ht
  have left : ({ r with loops := loops } : Runner).Swept key loop phase :=
    ⟨w.names, fun time hm => w.stamps time (taken.mem hm)⟩
  cases t with
  | stamp k name time =>
    apply left.modifyBoard
    intro b hm
    rcases Board.mem_phaseNames_startPhase.mp hm with hm | rfl
    · exact .inl hm
    · refine .inr fun he => w.stamps time ?_
      rw [he.1, he.2, taken.first]
      exact List.mem_cons_self
  | prune k name =>
    apply left.modifyBoard
    exact fun b hm => .inl (Board.mem_phaseNames_prune.mp hm).1
  | «seal» fence => exact left.same (dates_perform other _ rfl rfl fun _ _ h => by cases h)
  | announce fence => exact left.same (dates_perform other _ rfl rfl fun _ _ h => by cases h)
  | read survey slot k => exact left.same (dates_perform other _ rfl rfl fun _ _ h => by cases h)
  | resume => cases ht
  | pace => cases ht
  | expire => cases ht

end Swept

namespace Sweeping

theorem same (w : r.Sweeping key loop phase) (h : SameDates r r') :
    r'.Sweeping key loop phase := by
  obtain ⟨before, after, he, hn⟩ := w
  obtain ⟨more, hm, hs⟩ := h.orders loop
  refine ⟨before, after ++ more, by rw [hm, he]; simp, fun time hin => ?_⟩
  rcases List.mem_append.mp hin with hin | hin
  · exact hn time hin
  · cases hs _ hin

theorem dating (w : r.Sweeping key loop phase) (c : r.Closed phase) (hr : r.loops.Running)
    (h : Dating r r') : r'.Sweeping key loop phase := by
  cases h with
  | same h => exact w.same h
  | ensure => exact w
  | @enter other k hk hnew =>
    obtain ⟨before, after, he, hn⟩ := w
    refine ⟨before, _, by rw [orders_enterGroup hr, he, List.append_assoc]; rfl, fun time hin => ?_⟩
    rcases List.mem_append.mp hin with hin | hin
    · exact hn time hin
    · split at hin
      · have he := List.mem_singleton.mp hin
        simp only [Task.stamp.injEq] at he
        exact c.ne_entered hk hnew he.2.1
      · cases hin

/-- A loop carries out an order, which may be the one to prune the phase. -/
theorem order (w : r.Sweeping key loop phase) (hp : r.Prompt) {other : Nat} {t : Task}
    {loops : LoopGroup Task} (hn : r.loops.next? other = some (t, loops)) (ht : t.isOrder = true) :
    ({ r with loops := loops }.perform other t).Swept key loop phase ∨
      ({ r with loops := loops }.perform other t).Sweeping key loop phase := by
  have taken := taken_of_next? hp hn ht
  obtain ⟨before, after, he, hafter⟩ := w
  by_cases hmine : other = loop ∧ before = []
  · obtain ⟨rfl, rfl⟩ := hmine
    rw [taken.first] at he
    obtain ⟨rfl, rest⟩ := List.cons.inj he
    refine .inl ⟨fun b' hb' hm => ?_, fun time hm => hafter time (rest ▸ hm)⟩
    rw [perform, Telling.perform, board?_modifyBoard, if_pos ⟨rfl, rfl⟩] at hb'
    obtain ⟨b, _, rfl⟩ := Option.map_eq_some_iff.mp hb'
    exact (Board.mem_phaseNames_prune.mp hm).2 rfl
  · have left : ({ r with loops := loops } : Runner).Sweeping key loop phase := by
      by_cases hl : loop = other
      · subst hl
        cases before with
        | nil => exact absurd ⟨rfl, rfl⟩ hmine
        | cons u before =>
          rw [taken.first] at he
          exact ⟨before, after, (List.cons.inj he).2, hafter⟩
      · exact ⟨before, after, (taken.others loop hl).trans he, hafter⟩
    refine .inr ?_
    cases t with
    | stamp => exact left
    | prune => exact left
    | «seal» fence => exact left.same (dates_perform other _ rfl rfl fun _ _ h => by cases h)
    | announce fence => exact left.same (dates_perform other _ rfl rfl fun _ _ h => by cases h)
    | read survey slot k => exact left.same (dates_perform other _ rfl rfl fun _ _ h => by cases h)
    | resume => cases ht
    | pace => cases ht
    | expire => cases ht

end Sweeping

end Steps

section Courses
variable {r₀ r r' : Runner} {es es' : List Happening}

theorem Fresh.filed (h : r.Fresh) : r.Filed where
  names := by
    intro key loop b hb name hm
    rw [(h.board hb).2] at hm
    cases hm
  stamps := by simp [h.orders]

theorem Course.filed (h₀ : r₀.Initial) (h : Course r₀ es r) : r.Filed := by
  induction h with
  | refl => exact (fresh_of_initial h₀).filed
  | next hc ha he ih =>
    have o := hc.owned h₀
    exact ih.passage (hc.fenced h₀) o.running o.size ((change_of_after ha he).passage o)

theorem EndedOn.terminated (o : r.Fenced) {loop : Nat} {phase : String} {time : Nat}
    (h : r.EndedOn loop phase time) : r.status? phase = some .terminated := by
  obtain ⟨fence, f, hf, rfl, _⟩ := h
  exact (o.raised fence f hf).2.1

/-- A phase whose end was announced has ended on every loop, as far as it has a group. -/
theorem Fenced.ended_everywhere (o : r.Fenced) {phase : String} (h : phase ∈ r.ended) {key : String}
    (hk : r.keyOf phase = some key) : ∃ time, ∀ loop, r.EndedOn loop phase time :=
  o.endedOn (o.seen phase key hk (.inr (.inr h)))

theorem Told.ended_mono {e : Happening} {news : List (String × Notice)} (h : Told r e r' news)
    {phase : String} (hm : phase ∈ r.ended) : phase ∈ r'.ended := by
  rw [Runner.ended, h.notices, endings_append]
  exact List.mem_append_left _ hm

theorem Course.told (h₀ : r₀.Initial) (hl : r₀.listening = true) (h : Course r₀ es r)
    {e : Happening} (ha : r.Allowed e) (he : r.after? e = some r') : ∃ news, Told r e r' news := by
  have o := h.owned h₀
  exact ((change_of_after ha he).passage o).told o.running o.size ((h.listening h₀).trans hl)

theorem Course.ended_mono (h₀ : r₀.Initial) (hl : r₀.listening = true) (h : Course r₀ es r)
    (k : Course r es' r') {phase : String} (hm : phase ∈ r.ended) : phase ∈ r'.ended := by
  induction k with
  | refl => exact hm
  | next hc ha he ih =>
    obtain ⟨news, told⟩ := (h.trans hc).told h₀ hl ha he
    exact told.ended_mono ih

/-- What every change of the dates keeps, as long as a phase is closed, is kept by all that happens
after the end of the phase was carried out. -/
theorem Stages.keep_over {I : Runner → Prop} {phase : String} (h : Stages r r') (o : r.Fenced)
    (hr : r.loops.Running) (hs : 0 < r.loops.size) (past : r.Over phase) (hi : I r)
    (step : ∀ {q q' : Runner}, q.loops.Running → q.Closed phase → I q → Dating q q' → I q') :
    I r' := by
  refine (h.keep (I := fun q => q.Fenced ∧ q.Over phase ∧ I q) hr hs ⟨o, past, hi⟩ ?_).1.2.2
  intro q q' hr hs held h
  obtain ⟨o, past, hi⟩ := held
  refine ⟨o.stage hr hs h, past.lasting hs (h.waves o hr).lasting, ?_⟩
  refine step hr (fun key hk => ?_) hi h.dating
  obtain ⟨time, ended⟩ := past key hk
  exact ended.terminated o

/-- What every change of the dates keeps, as long as a phase is closed, is kept by all that happens
after the end of the phase was announced. -/
theorem Stages.keep_closed {I : Runner → Prop} {phase : String} (h : Stages r r') (o : r.Fenced)
    (hr : r.loops.Running) (hs : 0 < r.loops.size) (he : phase ∈ r.ended) (hi : I r)
    (step : ∀ {q q' : Runner}, q.loops.Running → q.Closed phase → I q → Dating q q' → I q') :
    I r' := by
  refine h.keep_over o hr hs (fun key hk => ?_) hi step
  obtain ⟨time, ended⟩ := o.ended_everywhere he hk
  exact ⟨time, ended 0⟩

variable {key : String} {loop : Nat} {phase : String}

theorem Swept.passage (w : r.Swept key loop phase) (o : r.Fenced) (hr : r.loops.Running)
    (hs : 0 < r.loops.size) (hend : phase ∈ r.ended) {e : Happening} (h : Passage r e r') :
    r'.Swept key loop phase := by
  cases h with
  | survey recent => exact w.same (.beginSurvey r recent)
  | pruning => exact w.same (.beginPruning r)
  | order hn ht => exact w.order o.prompt hn ht
  | stages _ h =>
    exact h.keep_closed (I := fun q => q.Swept key loop phase) o hr hs hend w
      fun hr c w h => w.dating c hr h

theorem Sweeping.passage (w : r.Sweeping key loop phase) (o : r.Fenced) (hr : r.loops.Running)
    (hs : 0 < r.loops.size) (hend : phase ∈ r.ended) {e : Happening} (h : Passage r e r') :
    r'.Swept key loop phase ∨ r'.Sweeping key loop phase := by
  cases h with
  | survey recent => exact .inr (w.same (.beginSurvey r recent))
  | pruning => exact .inr (w.same (.beginPruning r))
  | order hn ht => exact w.order o.prompt hn ht
  | stages _ h =>
    exact .inr (h.keep_closed (I := fun q => q.Sweeping key loop phase) o hr hs hend w
      fun hr c w h => w.dating c hr h)

theorem Course.swept (h₀ : r₀.Initial) (hl : r₀.listening = true) (h : Course r₀ es r)
    (k : Course r es' r') (he : phase ∈ r.ended) (w : r.Swept key loop phase) :
    r'.Swept key loop phase := by
  induction k with
  | refl => exact w
  | next hc ha hstep ih =>
    have whole := h.trans hc
    have o := whole.owned h₀
    exact ih.passage (whole.fenced h₀) o.running o.size (h.ended_mono h₀ hl hc he)
      ((change_of_after ha hstep).passage o)

theorem Told.pruned {e : Happening} {news : List (String × Notice)} (h : Told r e r' news)
    (hn : ¬ r.Gone phase) (hg : r'.Gone phase) :
    e = .beginPruning ∧ phase ∈ r.pruneQueue := by
  obtain ⟨ended, waiting⟩ := hg
  rw [h.pruneQueue, List.mem_append, not_or] at waiting
  rw [Runner.ended, h.notices, endings_append] at ended
  have before : phase ∈ r.ended := (List.mem_append.mp ended).resolve_right waiting.2
  have waits : phase ∈ r.pruneQueue := Decidable.not_not.mp fun hq => hn ⟨before, hq⟩
  refine ⟨?_, waits⟩
  cases e with
  | beginPruning => rfl
  | _ => exact absurd waits waiting.1

/-- A phase that has ended and does not wait any more is pruned on every loop, or is about to be. -/
theorem Course.pruned (h₀ : r₀.Initial) (hl : r₀.listening = true) (h : Course r₀ es r)
    (hg : r.Gone phase) (hk : key ∈ r.groups.keys) (hloop : loop < r.loops.size) :
    r.Swept key loop phase ∨ r.Sweeping key loop phase := by
  induction h with
  | refl =>
    have fresh := fresh_of_initial h₀
    have nobody : phase ∉ r₀.ended := by simp [ended, endings, notices, fresh.journal]
    exact absurd hg.1 nobody
  | @next es e q q' hc ha he ih =>
    have o := hc.owned h₀
    have fenced := hc.fenced h₀
    have lasting := hc.lasting h₀ (.one ha he)
    rw [lasting.groups] at hk
    rw [lasting.size] at hloop
    have passage := (change_of_after ha he).passage o
    by_cases hq : q.Gone phase
    · rcases ih hq hk hloop with w | w
      · exact .inl (w.passage fenced o.running o.size hq.1 passage)
      · exact w.passage fenced o.running o.size hq.1 passage
    · obtain ⟨news, told⟩ := hc.told h₀ hl ha he
      obtain ⟨rfl, waits⟩ := told.pruned hq hg
      cases he
      obtain ⟨more, hm, hin, hn⟩ := mem_orders_beginPruning o.running waits hk hloop
      obtain ⟨before, after, rfl⟩ := List.append_of_mem hin
      refine .inr ⟨q.orders loop ++ before, after, by rw [hm, List.append_assoc], fun time hs => ?_⟩
      cases hn _ (List.mem_append_right _ (List.mem_cons_of_mem _ hs))

end Courses

/-- A pass from its beginning to its end. It asks the loops for their buckets, or for their open
windows; the loops answer; then the phases that have ended are pruned, until no loop has an order to
prune any more. -/
structure Pass (recent : Option Nat) (rb r : Runner) : Prop where
  stages : ∃ es q snaps es', Course (rb.beginSurvey recent).2 es q ∧
    q.surveyed rb.surveys.length = .ok snaps ∧ Course q.beginPruning.2 es' r
  finished : ∀ loop key phase, .prune key phase ∉ r.orders loop

theorem mem_groups_of_board {r : Runner} {key : String} {loop : Nat} {b : Board}
    (h : r.board? key loop = some b) : key ∈ r.groups.keys := by
  obtain ⟨g, hg, _⟩ := Option.bind_eq_some_iff.mp h
  exact Dict.mem_keys_of_get? hg

theorem Filed.absent {r : Runner} (d : r.Filed) {phase : String} (hk : r.keyOf phase = none)
    {key : String} {loop : Nat} {b : Board} (hb : r.board? key loop = some b) :
    phase ∉ b.phaseNames := by
  intro hm
  rw [d.names key loop b hb phase hm] at hk
  cases hk

/-- Once a pass has come to its end, a phase that had ended before it is on no board any more. -/
theorem Pass.swept {r₀ rb r : Runner} {es : List Happening} {recent : Option Nat}
    (pass : Pass recent rb r) (h₀ : r₀.Initial) (hl : r₀.listening = true) (h : Course r₀ es rb)
    {phase key : String} (he : phase ∈ rb.ended) (hk : rb.keyOf phase = some key) :
    (∃ es', Course rb es' r) ∧ ∀ key ∈ r.groups.keys, ∀ loop < r.loops.size,
      r.Swept key loop phase := by
  obtain ⟨es₁, q, snaps, es₂, reads, _, prunes⟩ := pass.stages
  have toPruning : Course rb ([.beginSurvey recent] ++ es₁) q :=
    (Course.one (e := .beginSurvey recent) trivial rfl).trans reads
  have toEmpty := toPruning.next (e := .beginPruning) trivial rfl
  have whole := h.trans toEmpty
  have gone : q.beginPruning.2.Gone phase := by
    refine ⟨h.ended_mono h₀ hl toEmpty he, ?_⟩
    obtain ⟨loops, hq⟩ := beginPruning_eq q
    simp [hq]
  have hk' : q.beginPruning.2.keyOf phase = some key := by
    rw [(h.lasting h₀ toEmpty).keys]
    exact hk
  refine ⟨⟨_, toEmpty.trans prunes⟩, fun k hg loop hloop => ?_⟩
  have gone' := whole.gone h₀ hl prunes hk' gone
  refine ((whole.trans prunes).pruned h₀ hl gone' hg hloop).resolve_right fun w => ?_
  obtain ⟨before, after, ho, _⟩ := w
  apply pass.finished loop k phase
  rw [ho]
  exact List.mem_append_right _ List.mem_cons_self

/-- A phase that had ended when a pass began is on no board after the pass, and comes back on none.
Whenever a loop prunes a phase, the others stay as they are, and so do all of them when the phases
are taken out of the queue. -/
theorem pruned_for_good {r₀ rb r : Runner} {es : List Happening} {recent : Option Nat}
    (h₀ : r₀.Initial) (h : Course r₀ es rb) {phase : String} (he : phase ∈ rb.ended)
    (pass : Pass recent rb r) :
    (∀ es' r', Course r es' r' → ∀ key loop b, r'.board? key loop = some b →
      phase ∉ b.phaseNames) ∧
    (∀ (q q' : Runner) loop loops key name, q.loops.next? loop = some (.prune key name, loops) →
      q.after? (.turn loop) = some q' → ∀ other ≠ name, ∀ key' loop',
        (q'.board? key' loop').map (fun b => b.entry? other) =
          (q.board? key' loop').map fun b => b.entry? other) ∧
    ∀ (q : Runner) key loop, q.beginPruning.2.board? key loop = q.board? key loop := by
  have hl := h.heard h₀ he
  refine ⟨fun es' r' k key loop b hb => ?_, ?_, ?_⟩
  · obtain ⟨es₁, q, _, es₂, reads, _, prunes⟩ := pass.stages
    have toEnd : Course rb _ r := ((Course.one (e := .beginSurvey recent) trivial rfl).trans
      reads).trans ((Course.one (e := .beginPruning) trivial rfl).trans prunes)
    have whole := (h.trans toEnd).trans k
    have lasting := h.lasting h₀ (toEnd.trans k)
    cases hk : rb.keyOf phase with
    | none => exact (whole.filed h₀).absent ((lasting.keys phase).trans hk) hb
    | some own =>
      have last := (h.trans toEnd).lasting h₀ k
      have hg := mem_groups_of_board hb
      have hin := ((whole.measured h₀).placed key loop b hb).1
      rw [last.groups] at hg
      rw [last.size] at hin
      have swept := (pass.swept h₀ hl h he hk).2 key hg loop hin
      exact ((h.trans toEnd).swept h₀ hl k (h.ended_mono h₀ hl toEnd he) swept).names b hb
  · intro q q' loop loops key name hn hq other hne key' loop'
    simp only [after?, step?_of_next hn, Option.some.injEq] at hq
    rw [← hq, perform, Telling.perform, board?_modifyBoard]
    split
    · simp only [Option.map_map, Function.comp_def, Board.prune_others _ hne]
      rfl
    · rfl
  · intro q key loop
    exact (ends_beginPruning q).boards key loop

/-- A phase with a bucket has ended, and a pass prunes it. -/
theorem gate_phase_pruned : ∃ rb r es c, Course gateRunner es rb ∧ "login" ∈ rb.ended ∧
    rb.board? "users" 0 = some c ∧ "login" ∈ c.phaseNames ∧ Pass none rb r ∧
      ∀ es' r', Course r es' r' → ∀ key loop b, r'.board? key loop = some b →
        "login" ∉ b.phaseNames := by
  have h := Course.one (r := gateRunner) (e := .deed none (.begin "login")) trivial rfl
  have h := h.next (e := .deed none (.enroll "login")) trivial rfl
  have h := h.next (e := .createRequest 0 .complete) trivial rfl
  have h := h.next (e := .command 0 (.begin "page" ⟨"visit", 0⟩))
    ⟨_, rfl, _, List.mem_singleton_self _, rfl⟩ rfl
  have h := h.next (e := .deed none (.complete 0)) trivial rfl
  have h := h.next (e := .deed none (.terminate "login")) trivial rfl
  have h := h.next (e := .turn 1) (fun _ _ h => by cases h) rfl
  have h := h.next (e := .turn 1) (fun _ _ h => by cases h) rfl
  have h := h.next (e := .turn 0) (fun _ _ h => by cases h) rfl
  have h := h.next (e := .turn 0) (fun _ _ h => by cases h) rfl
  have h := h.next (e := .turn 0) (fun _ _ h => by cases h) rfl
  have h := h.next (e := .turn 0) (fun _ _ h => by cases h) rfl
  have asked : ∀ {es rb}, Course gateRunner es rb →
      Course (rb.beginSurvey none).2 [] (rb.beginSurvey none).2 := fun _ => .refl
  have k := (asked h).next (e := .turn 0) (fun _ _ h => by cases h) rfl
  have k := k.next (e := .turn 1) (fun _ _ h => by cases h) rfl
  have emptied : ∀ {q es r}, Course q es r →
      Course r.beginPruning.2 [] r.beginPruning.2 := fun _ => .refl
  have l := (emptied k).next (e := .turn 0) (fun _ _ h => by cases h) rfl
  have l := l.next (e := .turn 1) (fun _ _ h => by cases h) rfl
  have pass : Pass none _ _ := ⟨⟨_, _, _, _, k, rfl, l⟩, fun loop _ _ hm => by
    rw [orders_of_idle rfl] at hm
    cases hm⟩
  exact ⟨_, _, _, _, h, List.mem_singleton_self _, rfl, List.mem_singleton_self _, pass,
    (pruned_for_good gateRunner_initial h (List.mem_singleton_self _) pass).1⟩

section Shutdown

theorem runOut_of_idle {r : Runner} (h : r.closeIdle.loops.millisToTimer? = none) (left : Nat) :
    runOut left r = r.closeIdle := by
  rw [runOut]
  simp [h]

theorem shutdown_of_idle {r : Runner} (hs : r.stopped = false)
    (h : r.closeIdle.loops.millisToTimer? = none) : r.shutdown = { r with
      stopped := true
      watchdog := none
      clients := r.clients.map fun c => { c with shutdowns := c.shutdowns + 1 }
      loops := r.closeIdle.loops.close
      runs := []
      pacers := .empty
      groups := r.groups.map fun g => { g with current := none } } := by
  unfold shutdown
  rw [if_neg (by simp [hs])]
  dsimp only
  rw [runOut_of_idle]
  · rfl
  · exact h

/-- What is left of a phase when its runner is shut down stays there. The first pass fails, since
the loops are closed, but has emptied the queue by then; the next one has nothing to do. -/
theorem gate_phase_left_behind : ∃ r es, Course gateRunner es r ∧ "login" ∈ r.ended ∧
    (r.shutdown.survey none).1 = .error .taskDropped ∧
      ((r.shutdown.survey none).2.survey none).1 = .ok [] ∧
      ∃ b, ((r.shutdown.survey none).2.survey none).2.board? "users" 0 = some b ∧
        "login" ∈ b.phaseNames := by
  have h := Course.one (r := gateRunner) (e := .deed none (.begin "login")) trivial rfl
  have h := h.next (e := .deed none (.terminate "login")) trivial rfl
  have h := h.next (e := .turn 0) (fun _ _ h => by cases h) rfl
  have h := h.next (e := .turn 0) (fun _ _ h => by cases h) rfl
  have h := h.next (e := .turn 0) (fun _ _ h => by cases h) rfl
  have h := h.next (e := .turn 1) (fun _ _ h => by cases h) rfl
  have h := h.next (e := .turn 1) (fun _ _ h => by cases h) rfl
  have h := h.next (e := .turn 0) (fun _ _ h => by cases h) rfl
  refine ⟨_, _, h, List.mem_singleton_self _, ?_⟩
  rw [shutdown_of_idle rfl rfl]
  exact ⟨rfl, rfl, _, rfl, List.mem_singleton_self _⟩

end Shutdown

end LoadGen.Runner
