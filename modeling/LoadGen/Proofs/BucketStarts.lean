import LoadGen.Proofs.FirstTurns
import LoadGen.Proofs.Lifecycle
import LoadGen.Proofs.Pruning

namespace LoadGen

/-- The start of the phase is to be written down. -/
def Task.stamps (phase : String) : Task → Bool
  | .stamp _ name _ => name == phase
  | _ => false

theorem Task.isStamp_of_stamps {phase : String} {t : Task} (h : t.stamps phase = true) :
    t.isStamp = true := by
  cases t <;> first | rfl | cases h

namespace Board

/-- The phase has started at that time, and so have its buckets. -/
def Since (b : Board) (phase : String) (time : Nat) : Prop :=
  ∀ p ∈ b.phases, p.phase = phase →
    p.startedAt = some time ∧ ∀ q ∈ p.metrics.entries, q.2.start = time

theorem since_iff {b : Board} {phase : String} {time : Nat} : b.Since phase time ↔
    ∀ d ∈ b.dates, d.1 = phase → d.2.1 = some time ∧ ∀ q ∈ d.2.2, q.2 = time := by
  simp [Since, dates, PhaseBuckets.dates]

theorem since_of_dates {b b' : Board} (h : b'.dates = b.dates) {phase : String} {time : Nat}
    (hs : b.Since phase time) : b'.Since phase time := by
  rw [since_iff, h, ← since_iff]
  exact hs

theorem Since.holds {b : Board} {phase metric : String} {time : Nat} {c : Bucket}
    (h : b.Since phase time) (hc : b.Holds phase metric c) : c.start = time := by
  obtain ⟨p, hp, he, hc⟩ := hc
  exact (h p hp he).2 _ hc

theorem mem_of_mem_alter {name : String} {f : PhaseBuckets → PhaseBuckets}
    (hf : ∀ p, (f p).phase = p.phase) {l : List PhaseBuckets} {p : PhaseBuckets}
    (h : p ∈ alter name f l) (hp : p.phase ≠ name) : p ∈ l := by
  rcases mem_alter h with h | ⟨q, _, hq, rfl⟩
  · exact h
  · rw [hf] at hp
    exact absurd hq hp

theorem mem_alter_there {name : String} {f : PhaseBuckets → PhaseBuckets} {l : List PhaseBuckets}
    (there : name ∈ l.map (·.phase)) {p : PhaseBuckets} (h : p ∈ alter name f l) :
    p ∈ l ∨ ∃ q ∈ l, q.phase = name ∧ p = f q := by
  induction l with
  | nil => simp at there
  | cons a rest ih =>
    simp only [alter] at h
    split at h
    · rename_i he
      rcases List.mem_cons.mp h with rfl | h
      · exact .inr ⟨a, List.mem_cons_self, he, rfl⟩
      · exact .inl (List.mem_cons_of_mem _ h)
    · rename_i hne
      have later : name ∈ rest.map (·.phase) := by simpa [Ne.symm hne] using there
      rcases List.mem_cons.mp h with rfl | h
      · exact .inl List.mem_cons_self
      · rcases ih later h with h | ⟨q, hq, hp, he⟩
        · exact .inl (List.mem_cons_of_mem _ h)
        · exact .inr ⟨q, List.mem_cons_of_mem _ hq, hp, he⟩

section Since
variable {b : Board} {phase : String} {time : Nat}

theorem Since.ensure (h : b.Since phase time) {name : String}
    (there : name = phase → phase ∈ b.phaseNames) (metric : String) (now : Nat) :
    (b.ensure name metric now).Since phase time := by
  intro p hp he
  by_cases hn : name = phase
  · subst hn
    rcases mem_alter_there (there rfl) hp with hp | ⟨q, hq, hname, rfl⟩
    · exact h p hp he
    · obtain ⟨hs, hb⟩ := h q hq hname
      split
      · exact ⟨hs, hb⟩
      · refine ⟨hs, fun e hm => ?_⟩
        rcases Dict.mem_entries_insert hm with rfl | hm
        · simp [Bucket.opened, hs]
        · exact hb e hm
  · refine h p (mem_of_mem_alter (fun q => ?_) hp (by rw [he]; exact Ne.symm hn)) he
    split <;> rfl

theorem Since.startPhase (h : b.Since phase time) {name : String} (hn : name ≠ phase) (now : Nat) :
    (b.startPhase name now).Since phase time := by
  intro p hp he
  refine h p (mem_of_mem_alter (f := fun p =>
    { p with startedAt := some now, metrics := p.metrics.map (·.begin now) }) (fun _ => rfl) hp ?_) he
  rw [he]
  exact hn.symm

theorem since_startPhase (h : phase ∉ b.phaseNames) : (b.startPhase phase time).Since phase time := by
  have absent : ∀ q ∈ b.phases, q.phase ≠ phase := fun q hq he =>
    h (List.mem_map.mpr ⟨q, hq, he⟩)
  intro p hp he
  rcases mem_alter hp with hp | ⟨q, hq, hname, rfl⟩
  · exact absurd he (absent p hp)
  · rcases hq with hq | rfl
    · exact absurd hname (absent q hq)
    · exact ⟨rfl, by simp [Dict.map, Dict.empty]⟩

theorem Since.prune (h : b.Since phase time) (name : String) :
    (b.prune name).Since phase time := fun p hp he => h p (List.mem_filter.mp hp).1 he

end Since

end Board

namespace Runner

/-- The orders of a loop to write down the start of a phase. -/
def stampsOf (r : Runner) (phase : String) (loop : Nat) : List Task :=
  (r.orders loop).filter (·.stamps phase)

/-- A loop has not written down the start of the phase. If the phase has started, it is about to. -/
structure Unstarted (phase key : String) (start : Option Nat) (todo : List Task) (b : Board) :
    Prop where
  todo : todo = start.toList.map fun time => .stamp key phase time
  absent : phase ∉ b.phaseNames

/-- A loop has written down the start of the phase, and is not told to do it again. -/
structure StartedOn (phase : String) (start : Option Nat) (todo : List Task) (b : Board) : Prop where
  done : todo = []
  there : phase ∈ b.phaseNames
  since : ∃ time, start = some time ∧ b.Since phase time

/-- What the loops have of the start of a phase, if it has started. -/
def Dated (r : Runner) (phase key : String) (start : Option Nat) : Prop :=
  ∀ loop b, r.board? key loop = some b →
    Unstarted phase key start (r.stampsOf phase loop) b ∨
      StartedOn phase start (r.stampsOf phase loop) b

def startOf (r : Runner) (phase : String) : Option Nat :=
  (r.instances.get? phase).bind (·.standing.startedAt)

variable {r r' : Runner} {phase key : String} {start : Option Nat}

section Stamps

theorem SameDates.stampsOf (h : SameDates r r') (phase : String) (loop : Nat) :
    r'.stampsOf phase loop = r.stampsOf phase loop := by
  obtain ⟨more, he, hn⟩ := h.orders loop
  have none : more.filter (·.stamps phase) = [] := by
    apply List.filter_eq_nil_iff.mpr
    intro t ht hs
    have ho := Task.isStamp_of_stamps hs
    rw [hn t ht] at ho
    cases ho
  rw [Runner.stampsOf, he, List.filter_append, none, List.append_nil, Runner.stampsOf]

theorem Taken.stampsOf {loop : Nat} {t : Task} (h : Taken r r' loop t)
    (ht : t.stamps phase = false) (other : Nat) : r'.stampsOf phase other = r.stampsOf phase other := by
  by_cases he : other = loop
  · subst he
    rw [Runner.stampsOf, Runner.stampsOf, h.first, List.filter_cons_of_neg (by simp [ht])]
  · rw [Runner.stampsOf, Runner.stampsOf, h.others other he]

theorem stampsOf_enterGroup (hr : r.loops.Running) (key name phase : String) (loop : Nat) :
    (r.enterGroup key name).stampsOf phase loop = r.stampsOf phase loop ++
      if loop < r.loops.size ∧ name = phase then [.stamp key name r.now] else [] := by
  rw [stampsOf, orders_enterGroup hr, List.filter_append, stampsOf]
  congr 1
  by_cases hl : loop < r.loops.size <;> by_cases hn : name = phase <;> simp [hl, hn, Task.stamps]

end Stamps

namespace Dated

theorem holds {time : Nat} (d : r.Dated phase key (some time)) {loop : Nat} {b : Board}
    (hb : r.board? key loop = some b) {metric : String} {c : Bucket} (hc : b.Holds phase metric c) :
    c.start = time := by
  rcases d loop b hb with h | h
  · obtain ⟨p, hp, he, _⟩ := hc
    exact absurd (List.mem_map.mpr ⟨p, hp, he⟩) h.absent
  · obtain ⟨_, he, hs⟩ := h.since
    cases he
    exact hs.holds hc

theorem absent (d : r.Dated phase key none) {loop : Nat} {b : Board}
    (hb : r.board? key loop = some b) {metric : String} {c : Bucket} :
    ¬ b.Holds phase metric c := by
  intro hc
  obtain ⟨p, hp, he, _⟩ := hc
  rcases d loop b hb with h | h
  · exact h.absent (List.mem_map.mpr ⟨p, hp, he⟩)
  · obtain ⟨_, he, _⟩ := h.since
    cases he

theorem same (d : r.Dated phase key start) (h : SameDates r r') : r'.Dated phase key start := by
  intro loop b' hb'
  have hd := h.dates key loop
  rw [hb'] at hd
  obtain ⟨b, hb, he⟩ := Option.map_eq_some_iff.mp hd.symm
  have names := Board.phaseNames_of_dates he.symm
  rw [h.stampsOf]
  rcases d loop b hb with u | u
  · exact .inl ⟨u.todo, by rw [names]; exact u.absent⟩
  · obtain ⟨time, hs, since⟩ := u.since
    exact .inr ⟨u.done, by rw [names]; exact u.there, time, hs, Board.since_of_dates he.symm since⟩

theorem modifyBoard (d : r.Dated phase key start) {k : String} {place : Nat} {f : Board → Board}
    (hn : ∀ b, r.board? k place = some b → k = key →
      (phase ∈ (f b).phaseNames ↔ phase ∈ b.phaseNames))
    (hs : ∀ b time, r.board? k place = some b → k = key → phase ∈ b.phaseNames →
      b.Since phase time → (f b).Since phase time) :
    (r.modifyBoard k place f).Dated phase key start := by
  intro loop b' hb'
  rcases board?_modifyBoard_cases hb' with ⟨rfl, rfl, b, hb, rfl⟩ | hb
  · have names := hn b hb rfl
    rcases d loop b hb with u | u
    · exact .inl ⟨u.todo, fun hm => u.absent (names.mp hm)⟩
    · obtain ⟨time, he, since⟩ := u.since
      exact .inr ⟨u.done, names.mpr u.there, time, he, hs b time hb rfl u.there since⟩
  · exact d loop b' hb

/-- There is a bucket from now on for a phase that is on the board already, or for another one. -/
theorem ensure (d : r.Dated phase key start) {k name : String} {place : Nat}
    (there : ∀ b, r.board? k place = some b → k = key → name = phase → phase ∈ b.phaseNames)
    (metric : String) (now : Nat) :
    (r.modifyBoard k place (·.ensure name metric now)).Dated phase key start := by
  apply d.modifyBoard
  · intro b hb hk
    rw [Board.mem_phaseNames_ensure]
    exact ⟨fun h => h.elim id fun he => there b hb hk he.symm, .inl⟩
  · exact fun b time _ _ hin since => since.ensure (fun _ => hin) metric now

theorem enter_other (d : r.Dated phase key start) (hr : r.loops.Running) {name : String}
    (hn : name ≠ phase) (k : String) : (r.enterGroup k name).Dated phase key start := by
  intro loop b hb
  rw [board?_enterGroup] at hb
  have same : (r.enterGroup k name).stampsOf phase loop = r.stampsOf phase loop := by
    simp [stampsOf_enterGroup hr, hn]
  rw [same]
  exact d loop b hb

theorem enter (d : r.Dated phase key none) (hr : r.loops.Running) (m : r.Measured) :
    (r.enterGroup key phase).Dated phase key (some r.now) := by
  intro loop b hb
  rw [board?_enterGroup] at hb
  have inside := (m.placed key loop b hb).1
  rcases d loop b hb with u | u
  · refine .inl ⟨?_, u.absent⟩
    rw [stampsOf_enterGroup hr, u.todo]
    simp [inside]
  · obtain ⟨_, he, _⟩ := u.since
    cases he

theorem written (d : r.Dated phase key start) {k : String} {place time : Nat}
    (taken : Taken r r' place (.stamp k phase time)) :
    (r'.modifyBoard k place (·.startPhase phase time)).Dated phase key start := by
  have first : r.stampsOf phase place = .stamp k phase time :: r'.stampsOf phase place := by
    rw [stampsOf, taken.first, List.filter_cons_of_pos (by simp [Task.stamps]), stampsOf]
  have boards : ∀ loop, r'.board? key loop = r.board? key loop := by
    obtain ⟨_, rfl⟩ := taken.rest
    exact fun _ => rfl
  intro loop b' hb'
  rw [board?_modifyBoard, boards] at hb'
  by_cases hl : loop = place
  · subst hl
    obtain ⟨b, hb⟩ : ∃ b, r.board? key loop = some b := by
      split at hb'
      · exact (Option.map_eq_some_iff.mp hb').imp fun _ h => h.1
      · exact ⟨b', hb'⟩
    rcases d loop b hb with u | u
    · have only := u.todo
      rw [first] at only
      cases start with
      | none => cases only
      | some at_ =>
        obtain ⟨he, none⟩ := List.cons.inj only
        cases he
        rw [if_pos ⟨rfl, rfl⟩, hb] at hb'
        cases hb'
        exact .inr ⟨none, Board.mem_phaseNames_startPhase.mpr (.inr rfl), _, rfl,
          Board.since_startPhase u.absent⟩
    · have none := u.done
      rw [first] at none
      cases none
  · rw [if_neg fun h => hl h.2] at hb'
    have others : r'.stampsOf phase loop = r.stampsOf phase loop := by
      rw [stampsOf, taken.others loop hl, stampsOf]
    change Unstarted phase key start (r'.stampsOf phase loop) b' ∨
      StartedOn phase start (r'.stampsOf phase loop) b'
    rw [others]
    exact d loop b' hb'

theorem order (d : r.Dated phase key start) (hp : r.Prompt) (un : r.Unpruned phase) {place : Nat}
    {t : Task} {loops : LoopGroup Task} (hn : r.loops.next? place = some (t, loops))
    (ht : t.isOrder = true) : ({ r with loops := loops }.perform place t).Dated phase key start := by
  have taken := taken_of_next? hp hn ht
  have left : t.stamps phase = false → ({ r with loops := loops } : Runner).Dated phase key start :=
    fun hs loop b hb => by
      rw [taken.stampsOf hs]
      exact d loop b hb
  cases t with
  | stamp k name time =>
    by_cases he : name = phase
    · subst he
      exact d.written taken
    · apply (left (by simp [Task.stamps, he])).modifyBoard
      · intro b _ _
        simp [Board.mem_phaseNames_startPhase, Ne.symm he]
      · exact fun b at_ _ _ _ since => since.startPhase he time
  | prune k name =>
    have hne : phase ≠ name := by
      rintro rfl
      apply un place k
      rw [taken.first]
      exact List.mem_cons_self
    apply (left rfl).modifyBoard
    · intro b _ _
      simp [Board.mem_phaseNames_prune, hne]
    · exact fun b at_ _ _ _ since => since.prune name
  | «seal» fence => exact (left rfl).same (dates_perform place _ rfl rfl fun _ _ h => by cases h)
  | announce fence => exact (left rfl).same (dates_perform place _ rfl rfl fun _ _ h => by cases h)
  | read survey slot k => exact (left rfl).same (dates_perform place _ rfl rfl fun _ _ h => by cases h)
  | resume => cases ht
  | pace => cases ht
  | expire => cases ht

/-- The phase has terminated, and so has no run that could ask for a bucket. -/
theorem dating (d : r.Dated phase key start) (c : r.Closed phase) (hr : r.loops.Running)
    (h : Dating r r') : r'.Dated phase key start := by
  cases h with
  | same h => exact d.same h
  | @ensure name k place metric hk ht =>
    exact d.ensure (fun _ _ _ he => absurd he.symm (c.ne_ensured hk ht)) metric r.now
  | @enter name k hk hn => exact d.enter_other hr (c.ne_entered hk hn).symm k

end Dated

section Started

theorem startOf_eq {i : Instance} (hi : r.instances.get? phase = some i) :
    r.startOf phase = i.standing.startedAt := by
  rw [startOf, hi]
  rfl

theorem Steady.startOf (h : Steady r r') (phase : String) : r'.startOf phase = r.startOf phase := by
  cases hi : r.instances.get? phase with
  | some i =>
    obtain ⟨j, hj, hf⟩ := h.follows phase i hi
    rw [startOf_eq hj, startOf_eq hi, hf.startedAt]
  | none =>
    cases hj : r'.instances.get? phase with
    | none => simp [Runner.startOf, hi, hj]
    | some j =>
      have there := Dict.get?_isSome_of_mem_keys (h.names ▸ Dict.mem_keys_of_get? hj)
      simp [hi] at there

def Manned (r : Runner) : Prop := ∀ run ∈ r.runs, (r.startOf run.phase).isSome

theorem Manned.of_stands (h : r.Manned) (o : r.Owned) (o' : r'.Owned)
    (names : r'.instances.keys = r.instances.keys)
    (stands : ∀ name i, r.instances.get? name = some i → ∃ j, r'.instances.get? name = some j ∧
      (i.standing.active < j.standing.active → i.standing.status = .running) ∧
      (i.standing.startedAt.isSome → j.standing.startedAt.isSome)) : r'.Manned := by
  intro run hm
  obtain ⟨_, _, _, hk⟩ := o'.bound run hm
  obtain ⟨j, hj, _⟩ := Option.bind_eq_some_iff.mp hk
  obtain ⟨i, hi⟩ := Option.isSome_iff_exists.mp
    (Dict.get?_isSome_of_mem_keys (names ▸ Dict.mem_keys_of_get? hj))
  obtain ⟨l, hl, grows, started⟩ := stands run.phase i hi
  cases hj.symm.trans hl
  rw [startOf_eq hj]
  apply started
  have busy : 0 < j.standing.active := by
    rw [o'.counted _ j hj, runsOf]
    exact List.countP_pos_iff.mpr ⟨run, hm, by simp⟩
  by_cases hg : i.standing.active < j.standing.active
  · exact (o.lawful _ i hi).started (.inl (grows hg))
  · have before : 0 < r.runsOf run.phase := by
      rw [← o.counted _ i hi]
      omega
    obtain ⟨run₀, hm₀, he⟩ := List.countP_pos_iff.mp before
    have same : run₀.phase = run.phase := by simpa using he
    have := h run₀ hm₀
    rwa [same, startOf_eq hi] at this

theorem Manned.steady (h : r.Manned) (o : r.Owned) (o' : r'.Owned) (hs : Steady r r') :
    r'.Manned := by
  refine h.of_stands o o' hs.names fun name i hi => ?_
  obtain ⟨j, hj, hf⟩ := hs.follows name i hi
  exact ⟨j, hj, hf.grows, fun started => by rwa [hf.startedAt]⟩

theorem Manned.change (h : r.Manned) (o : r.Owned) {e : Happening} (hc : Change r e r') :
    r'.Manned := by
  obtain ⟨names, stands⟩ := hc.stands o
  refine h.of_stands o (o.change hc) names fun name i hi => ?_
  obtain ⟨j, hj, _, grows, started⟩ := stands name i hi
  exact ⟨j, hj, grows, fun hs => started.mpr (.inl hs)⟩

theorem Course.manned {r₀ : Runner} {es : List Happening} (h₀ : r₀.Initial) (h : Course r₀ es r) :
    r.Manned := by
  induction h with
  | refl => simp [Manned, (fresh_of_initial h₀).runs]
  | next hc ha he ih => exact ih.change (hc.owned h₀) (change_of_after ha he)

end Started

section Work
variable {m : Remit} {had : List Nat}

/-- A run that has begun to iterate finds the start of its phase written down. -/
theorem Dated.there (d : r.Dated phase key start) (t : r.Turns had) (man : r.Manned)
    (hs : r.startOf phase = start) {run : Run} (hm : run ∈ r.runs) (hp : run.phase = phase)
    (hin : run.id ∈ had) {b : Board} (hb : r.board? key (r.executorOf run.session) = some b) :
    phase ∈ b.phaseNames := by
  subst hp
  have past : r.stampsOf run.phase (r.executorOf run.session) = [] := by
    apply List.filter_eq_nil_iff.mpr
    intro u hu hstamp
    cases u with
    | stamp k name time =>
      have he : name = run.phase := by simpa [Task.stamps] using hstamp
      subst he
      exact t.stamped run hm hin k time (List.mem_filter.mp hu).1
    | _ => cases hstamp
  rcases d _ b hb with u | u
  · have todo := u.todo
    rw [past] at todo
    have started := man run hm
    rw [hs] at started
    cases start with
    | none => cases started
    | some time => cases todo
  · exact u.there

theorem Dated.shift (d : r.Dated phase key start) (o : r.Owned) (t : r.Turns had) (man : r.Manned)
    (ready : Ready m had r) (hs : r.startOf phase = start) (h : Shift m r r') :
    r'.Dated phase key start := by
  rcases h.dates o with same | ⟨session, metric, _, hb, work, asked⟩
  · exact d.same same
  · obtain ⟨s, name, hsession, hp, _, rfl⟩ := bucketFor_ok asked
    refine d.ensure (fun b board hk he => ?_) metric r.now
    obtain ⟨run, hm, rfl⟩ := work
    obtain ⟨s', hs', hp', _⟩ := o.bound run hm
    cases hsession.symm.trans hs'
    cases hp.symm.trans hp'
    have place : r.executorOf run.session = s.executor := by simp [executorOf, hsession]
    rw [hk, ← place] at board
    exact d.there t man hs hm he (ready.buckets run hm hb) board

theorem Dated.shifts (d : r.Dated phase key start) (o : r.Owned) (t : r.Turns had) (man : r.Manned)
    (ready : Ready m had r) (hs : r.startOf phase = start) (h : Shifts m r r') :
    r'.Dated phase key start := by
  induction h with
  | refl => exact d
  | tail hq h ih =>
    have oq := o.shifts hq
    have steady := Shifts.steady o hq
    exact ih.shift oq (t.shifts o ready.calls hq) (man.steady o oq steady) (ready.shifts o hq)
      ((steady.startOf phase).trans hs) h

theorem begin_keyed (o : r.Owned) (h : r.begin phase = .ok r') (hk : r.keyOf phase = some key) :
    ∃ i s, r.instances.get? phase = some i ∧ r' = (r.enterGroup key phase).move none phase s := by
  obtain ⟨i, hi, h⟩ := bind_eq_ok.mp h
  obtain ⟨s, _, h⟩ := bind_eq_ok.mp h
  have hi := instance?_eq_ok.mp hi
  obtain ⟨g, hg⟩ := Option.isSome_iff_exists.mp (o.grouped phase key hk)
  rw [keyOf, hi] at hk
  rw [groupOf?_eq_some.mpr ⟨hk, hg⟩] at h
  exact ⟨i, s, hi, (Except.ok.inj h).symm⟩

theorem startOf_begin (o : r.Owned) (h : r.begin phase = .ok r') :
    r.startOf phase = none ∧ r'.startOf phase = some r.now := by
  obtain ⟨i, _, _, hi, _⟩ := begin_cases h
  obtain ⟨j, hj, begun⟩ := (begin_stands o h).2 phase i hi
  rw [if_pos rfl] at begun
  rw [startOf_eq hi, startOf_eq hj]
  exact ⟨(o.lawful phase i hi).fresh begun.1, begun.2.2.2⟩

theorem startOf_begin_of_ne (o : r.Owned) {name : String} (hn : name ≠ phase)
    (h : r.begin name = .ok r') {i : Instance} (hi : r.instances.get? phase = some i) :
    r'.startOf phase = r.startOf phase := by
  obtain ⟨j, hj, hf⟩ := (begin_stands o h).2 phase i hi
  rw [if_neg hn.symm] at hf
  rw [startOf_eq hi, startOf_eq hj, hf.startedAt]

theorem Dated.moved {r₁ : Runner} (d : r₁.Dated phase key start) (o : r₁.Owned) {name : String}
    {i : Instance} (hi : r₁.instances.get? name = some i) (s : Standing) :
    (r₁.move none name s).Dated phase key start :=
  d.same (dates_move none hi (o.grouped name))

theorem Dated.begin_own (d : r.Dated phase key (r.startOf phase)) (o : r.Owned) (m : r.Measured)
    (hk : r.keyOf phase = some key) (h : r.begin phase = .ok r') :
    r'.Dated phase key (r'.startOf phase) := by
  obtain ⟨fresh, begun⟩ := startOf_begin o h
  obtain ⟨i, s, hi, rfl⟩ := begin_keyed o h hk
  have entered := holders_enterGroup r key phase
  obtain ⟨j, hj, _⟩ := entered.instance_to hi
  rw [fresh] at d
  rw [begun]
  exact (d.enter o.running m).moved (o.same entered) hj s

theorem Dated.begin_other (d : r.Dated phase key start) (o : r.Owned) {name : String}
    (hn : name ≠ phase) (h : r.begin name = .ok r') : r'.Dated phase key start := by
  obtain ⟨i, s, r₁, hi, _, hr, rfl⟩ := begin_cases h
  rcases hr with ⟨k, _, rfl⟩ | rfl
  · have entered := holders_enterGroup r k name
    obtain ⟨j, hj, _⟩ := entered.instance_to hi
    exact (d.enter_other o.running hn k).moved (o.same entered) hj s
  · exact d.moved o hi s

theorem Dated.change (d : r.Dated phase key (r.startOf phase)) (o : r.Owned) (t : r.Turns had)
    (man : r.Manned) (m : r.Measured) (hp : r.Prompt) (un : r.Unpruned phase)
    (hk : r.keyOf phase = some key) {e : Happening} (ht : r.InTime had e) (h : Change r e r') :
    r'.Dated phase key (r'.startOf phase) := by
  cases h with
  | @begin _ _ name h =>
    by_cases hn : name = phase
    · subst hn
      exact d.begin_own o m hk h
    · obtain ⟨i, hi, _⟩ := Option.bind_eq_some_iff.mp hk
      rw [startOf_begin_of_ne o hn h hi]
      exact d.begin_other o hn h
  | survey recent =>
    rw [(holders_beginSurvey r recent).steady.startOf]
    exact d.same (.beginSurvey r recent)
  | pruning =>
    rw [(holders_beginPruning r).steady.startOf]
    exact d.same (.beginPruning r)
  | @order place u loops hn hu =>
    have took := LoopGroup.took_of_next? hn
    rw [((SameHolders.onLoops r took.size took.running).trans
      (holders_perform place _ hu)).steady.startOf]
    exact d.order hp un hn hu
  | work _ _ h =>
    rw [(Shifts.steady o h).startOf]
    exact d.shifts o (t.turn e) man (ht.ready o) rfl h

end Work

section Courses
variable {r₀ : Runner} {es es' : List Happening} {had : List Nat}

theorem Fresh.dated (h : r.Fresh) (phase key : String) : r.Dated phase key (r.startOf phase) := by
  have idle : r.startOf phase = none := by
    cases hi : r.instances.get? phase with
    | none => simp [startOf, hi]
    | some i => rw [startOf_eq hi, h.instances phase i hi]
  intro loop b hb
  refine .inl ⟨by simp [idle, stampsOf, h.orders], ?_⟩
  rw [(h.board hb).2]
  exact List.not_mem_nil

theorem Worked.dated (h₀ : r₀.Initial) (hl : r₀.listening = true) (h : Worked r₀ [] es had r)
    (hk : r.keyOf phase = some key) (hg : ¬ r.Gone phase) :
    r.Dated phase key (r.startOf phase) := by
  induction h with
  | refl => exact (fresh_of_initial h₀).dated phase key
  | @next es e had q q' hw ht he ih =>
    have hc := hw.course
    have step := Course.one ht.allowed he
    rw [(hc.lasting h₀ step).keys] at hk
    have there : ¬ q.Gone phase := fun gone => hg (hc.gone h₀ hl step hk gone)
    exact (ih hk there).change (hc.owned h₀) (hw.turns h₀) (hc.manned h₀) (hc.measured h₀)
      (hc.fenced h₀).prompt (hc.unpruned h₀ hl hk there) hk ht (change_of_after ht.allowed he)

theorem Course.dated (h₀ : r₀.Initial) (hl : r₀.listening = true) (h : Course r₀ es r)
    (k : Course r es' r') (he : phase ∈ r.ended) (hk : r.keyOf phase = some key)
    (hg : ¬ r'.Gone phase) (d : r.Dated phase key start) : r'.Dated phase key start := by
  induction k with
  | refl => exact d
  | @next es' e q q' hc ha hstep ih =>
    have whole := h.trans hc
    have o := whole.owned h₀
    have fenced := whole.fenced h₀
    have hk' : q.keyOf phase = some key := by
      rw [(h.lasting h₀ hc).keys]
      exact hk
    have there : ¬ q.Gone phase := fun gone => hg (whole.gone h₀ hl (.one ha hstep) hk' gone)
    have d := ih there
    cases (change_of_after ha hstep).passage o with
    | survey recent => exact d.same (.beginSurvey q recent)
    | pruning => exact d.same (.beginPruning q)
    | order hn ht => exact d.order fenced.prompt (whole.unpruned h₀ hl hk' there) hn ht
    | stages _ hs =>
      exact hs.keep_closed (I := fun q => q.Dated phase key start) fenced o.running o.size
        (h.ended_mono h₀ hl hc he) d fun hr c d h => d.dating c hr h

end Courses

end Runner
end LoadGen
