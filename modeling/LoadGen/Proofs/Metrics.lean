import LoadGen.Proofs.Lifecycle
import LoadGen.Proofs.Pruning

namespace LoadGen

namespace Board

/-- The board has a bucket of the phase for the metric. -/
def Has (b : Board) (phase metric : String) : Prop := ∃ c, b.Holds phase metric c

theorem has_iff {b : Board} {phase metric : String} : b.Has phase metric ↔
    ∃ d ∈ b.dates, d.1 = phase ∧ metric ∈ d.2.2.map (·.1) := by
  have names : ∀ p : PhaseBuckets, p.dates.2.2.map (·.1) = p.metrics.entries.map (·.1) := by
    simp [PhaseBuckets.dates]
  constructor
  · intro held
    obtain ⟨c, p, hp, he, hc⟩ := held
    exact ⟨p.dates, List.mem_map_of_mem hp, he, by rw [names]; exact List.mem_map_of_mem hc⟩
  · intro held
    obtain ⟨_, hd, he, hm⟩ := held
    obtain ⟨p, hp, rfl⟩ := List.mem_map.mp hd
    rw [names] at hm
    obtain ⟨⟨m, c⟩, hc, rfl⟩ := List.mem_map.mp hm
    exact ⟨c, p, hp, he, hc⟩

theorem has_of_dates {b b' : Board} (h : b'.dates = b.dates) {phase metric : String} :
    b'.Has phase metric ↔ b.Has phase metric := by
  rw [has_iff, has_iff, h]

theorem exists_mem_alter (phase : String) (f : PhaseBuckets → PhaseBuckets) (l : List PhaseBuckets) :
    ∃ p, p.phase = phase ∧ f p ∈ alter phase f l := by
  induction l with
  | nil => exact ⟨{ phase := phase }, rfl, List.mem_singleton_self _⟩
  | cons a rest ih =>
    simp only [alter]
    split
    · rename_i he
      exact ⟨a, he, List.mem_cons_self⟩
    · obtain ⟨p, hp, hm⟩ := ih
      exact ⟨p, hp, List.mem_cons_of_mem _ hm⟩

theorem has_ensure (b : Board) (phase metric : String) (now : Nat) :
    (b.ensure phase metric now).Has phase metric := by
  obtain ⟨p, hp, hm⟩ := exists_mem_alter phase (fun p => if p.metrics.contains metric then p
    else { p with metrics := p.metrics.insert metric (.opened (p.startedAt.getD now)) }) b.phases
  split at hm
  · rename_i there
    obtain ⟨c, hc⟩ := Option.isSome_iff_exists.mp there
    exact ⟨c, p, hm, hp, Dict.mem_entries_of_get? hc⟩
  · exact ⟨_, _, hm, hp, Dict.mem_entries_of_get? (Dict.get?_insert_self ..)⟩

theorem has_ensure_cases {b : Board} {phase metric : String} {now : Nat} {name m : String}
    (h : (b.ensure phase metric now).Has name m) : b.Has name m ∨ (name = phase ∧ m = metric) := by
  obtain ⟨c, hc⟩ := h
  exact (holds_ensure hc).imp (fun hc => ⟨c, hc⟩) fun h => ⟨h.1, h.2.1⟩

end Board

namespace Runner

/-- Some loop has a bucket of the phase for the metric. -/
def Covers (r : Runner) (phase metric : String) : Prop :=
  ∃ key loop b, r.board? key loop = some b ∧ b.Has phase metric

/-- While a piece of work is done, a session at work for the phase asks for the metric. -/
def Asks (m : Remit) (r r' : Runner) (phase metric : String) : Prop :=
  ∃ q session b q', Shifts m r q ∧ m.buckets session ∧ q.AtWork session ∧
    q.bucketFor session metric = .ok (b, q') ∧ b.phase = phase ∧ Shifts m q' r'

variable {m : Remit} {r r' r₀ : Runner} {phase metric : String} {es es' : List Happening}

section New

theorem SameDates.covers_of (h : SameDates r r') (hh : r'.Covers phase metric) : r.Covers phase metric := by
  obtain ⟨key, loop, b', hb', hh⟩ := hh
  have hd := h.dates key loop
  rw [hb'] at hd
  obtain ⟨b, hb, he⟩ := Option.map_eq_some_iff.mp hd.symm
  exact ⟨key, loop, b, hb, (Board.has_of_dates he.symm).mp hh⟩

theorem covers_of_modifyBoard {key : String} {loop : Nat} {f : Board → Board}
    (hf : ∀ b, (f b).Has phase metric → b.Has phase metric)
    (hh : (r.modifyBoard key loop f).Covers phase metric) : r.Covers phase metric := by
  obtain ⟨key', loop', b', hb', hh⟩ := hh
  rcases board?_modifyBoard_cases hb' with ⟨rfl, rfl, b, hb, rfl⟩ | hb
  · exact ⟨_, _, b, hb, hf b hh⟩
  · exact ⟨key', loop', b', hb, hh⟩

theorem Shifts.asks (o : r.Owned) (h : Shifts m r r') (hn : ¬ r.Covers phase metric)
    (hh : r'.Covers phase metric) : Asks m r r' phase metric := by
  induction h with
  | refl => exact absurd hh hn
  | @tail q q' hs h ih =>
    by_cases there : q.Covers phase metric
    · obtain ⟨q₁, session, b, q₂, before, hb, work, hok, hp, after⟩ := ih there
      exact ⟨q₁, session, b, q₂, before, hb, work, hok, hp, after.tail h⟩
    · rcases h.dates (o.shifts hs) with same | ⟨session, asked, b, hb, work, hok⟩
      · exact absurd (same.covers_of hh) there
      · obtain ⟨s, name, _, _, rfl, rfl⟩ := bucketFor_ok hok
        have mine : phase = name ∧ metric = asked := by
          by_contra hne
          refine there (covers_of_modifyBoard (fun c hc => ?_) hh)
          exact (Board.has_ensure_cases hc).resolve_right hne
        obtain ⟨rfl, rfl⟩ := mine
        exact ⟨q, session, _, _, hs, hb, work, hok, rfl, .refl⟩

theorem covers_of_begin (o : r.Owned) {name : String} (h : r.begin name = .ok r')
    (hh : r'.Covers phase metric) : r.Covers phase metric := by
  obtain ⟨i, s, r₁, hi, _, hr, rfl⟩ := begin_cases h
  rcases hr with ⟨key, _, rfl⟩ | rfl
  · have entered := holders_enterGroup r key name
    obtain ⟨j, hj, _⟩ := entered.instance_to hi
    obtain ⟨k, loop, b, hb, hh⟩ := (dates_move none hj ((o.same entered).grouped name)).covers_of hh
    rw [board?_enterGroup] at hb
    exact ⟨k, loop, b, hb, hh⟩
  · exact (dates_move none hi (o.grouped name)).covers_of hh

theorem Change.asks (o : r.Owned) {e : Happening} (h : Change r e r') (hn : ¬ r.Covers phase metric)
    (hh : r'.Covers phase metric) : Asks (r.remit e) r r' phase metric := by
  cases h with
  | begin h => exact absurd (covers_of_begin o h hh) hn
  | survey recent => exact absurd ((SameDates.beginSurvey r recent).covers_of hh) hn
  | pruning => exact absurd ((SameDates.beginPruning r).covers_of hh) hn
  | @order loop t loops _ ht =>
    refine absurd ?_ hn
    have left : ∀ {q : Runner}, SameDates { r with loops := loops } q → q.Covers phase metric →
        r.Covers phase metric := fun h hh => h.covers_of hh
    cases t with
    | stamp key name time =>
      refine covers_of_modifyBoard (r := { r with loops := loops }) (fun b hb => ?_) hh
      obtain ⟨c, hc⟩ := hb
      obtain ⟨c₀, hc₀, _⟩ := (b.mapped_startPhase name time).back phase metric c hc
      exact ⟨c₀, hc₀⟩
    | prune key name =>
      refine covers_of_modifyBoard (r := { r with loops := loops }) (fun b hb => ?_) hh
      obtain ⟨c, hc⟩ := hb
      exact ⟨c, (Board.holds_prune.mp hc).1⟩
    | «seal» fence => exact left (dates_perform loop _ rfl rfl fun _ _ h => by cases h) hh
    | announce fence => exact left (dates_perform loop _ rfl rfl fun _ _ h => by cases h) hh
    | read survey slot k => exact left (dates_perform loop _ rfl rfl fun _ _ h => by cases h) hh
    | resume => cases ht
    | pace => cases ht
    | expire => cases ht
  | work _ _ h => exact Shifts.asks o h hn hh

/-- A bucket that is new after some happenings was asked for during one of them. -/
theorem Course.asks (o : r.Owned) (h : Course r es r') (hn : ¬ r.Covers phase metric)
    (hh : r'.Covers phase metric) : ∃ es₁ e es₂ q q', es₁ ++ e :: es₂ = es ∧ Course r es₁ q ∧
      Course q [e] q' ∧ Asks (q.remit e) q q' phase metric ∧ Course q' es₂ r' := by
  induction h with
  | refl => exact absurd hh hn
  | @next es e q q' hc ha he ih =>
    by_cases there : q.Covers phase metric
    · obtain ⟨es₁, f, es₂, p, p', rfl, before, step, asks, after⟩ := ih there
      exact ⟨es₁, f, es₂ ++ [e], p, p', by simp, before, step, asks, after.next ha he⟩
    · exact ⟨es, e, [], q, q', rfl, hc, .one ha he,
        (change_of_after ha he).asks (hc.names o).1 there hh, .refl⟩

end New

section Made

theorem Shifts.board_of_run (h₀ : r₀.Initial) (hl : r₀.listening = true) (hc : Course r₀ es r)
    {q : Runner} (h : Shifts m r q) {run : Run} (hm : run ∈ q.runs) :
    ∃ s b, q.session? run.session = some s ∧ s.phase = some run.phase ∧
      q.board? s.group s.executor = some b := by
  have o := hc.owned h₀
  have oq := o.shifts h
  have fenced := hc.fenced h₀
  obtain ⟨fenced_q, toq⟩ := (Shifts.stages o h).waves fenced o.running o.size
  obtain ⟨s, hs, hp, hk⟩ := oq.bound run hm
  have lasting := toq.lasting
  have since := (Course.refl.lasting h₀ hc).trans lasting
  have grouped : s.group ∈ r₀.groups.keys := by
    obtain ⟨g, hg⟩ := Option.isSome_iff_exists.mp (oq.grouped _ _ hk)
    rw [← since.groups]
    exact Dict.mem_keys_of_get? hg
  have inside : s.executor < r₀.loops.size := by
    rw [← since.size]
    exact oq.seated s (List.mem_of_getElem? hs)
  have there : ¬ r.Gone run.phase := by
    intro gone
    obtain ⟨time, ended⟩ := fenced.ended_everywhere gone.1 (by rw [← lasting.keys]; exact hk)
    have ended := lasting.endedOn 0 o.size _ time (ended 0)
    exact oq.status?_of_run hm (ended.terminated fenced_q)
  obtain ⟨b₀, hb₀⟩ := Option.isSome_iff_exists.mp
    ((fresh_of_initial h₀).board?_isSome grouped inside)
  have kept := (Course.refl.keeps h₀ hl hc (by rw [← since.keys]; exact hk) there).trans
    (toq.keeps (hc.measured h₀) run.phase)
  obtain ⟨b, hb, _⟩ := kept s.group s.executor b₀ hb₀
  exact ⟨s, b, hs, hp, hb⟩

theorem Asks.covers (h₀ : r₀.Initial) (hl : r₀.listening = true) (hc : Course r₀ es r)
    (h : Asks m r r' phase metric) : r'.Covers phase metric := by
  obtain ⟨q, session, ref, q', before, hb, work, asked, rfl, after⟩ := h
  obtain ⟨s, phase, hs, hp, rfl, rfl⟩ := bucketFor_ok asked
  have made := before.tail (Shift.ensure metric hb work hs hp)
  obtain ⟨run, hm, rfl⟩ := work
  obtain ⟨s', b, hs', _, board⟩ := Shifts.board_of_run h₀ hl hc before hm
  cases hs.symm.trans hs'
  obtain ⟨c, held⟩ := b.has_ensure phase metric q.now
  have o := hc.owned h₀
  have o' := o.shifts made
  obtain ⟨fenced', toq'⟩ := (Shifts.stages o made).waves (hc.fenced h₀) o.running o.size
  have rest := ((Shifts.stages o' after).waves fenced' o'.running o'.size).2
  obtain ⟨b', hb', kept⟩ := rest.keeps ((hc.measured h₀).waves toq') phase s.group s.executor
    (b.ensure phase metric q.now) (by rw [board?_modifyBoard, if_pos ⟨rfl, rfl⟩, board]; rfl)
  obtain ⟨c', held', _⟩ := kept metric c held
  exact ⟨s.group, s.executor, b', hb', c', held'⟩

end Made

end Runner
end LoadGen
