import LoadGen.Proofs.Demand
import LoadGen.Proofs.TurnFailures

namespace LoadGen.Runner

/-- The phase that begins, if it is one of that key. -/
def begunIn (r : Runner) (key : String) : Incident → Option String
  | .begun phase => if r.keyOf phase = some key then some phase else none
  | _ => none

def lastBegun (r : Runner) (key : String) (l : List Incident) : Option String :=
  (l.filterMap (r.begunIn key)).getLast?

/-- A phase of the same key found the pool empty, while this one was the last to begin. -/
def ShortUnder (r : Runner) (name : String) (l : List Incident) : Prop :=
  ∃ before asked after key, l = before ++ .short asked :: after ∧ r.keyOf asked = some key ∧
    r.lastBegun key before = some name

variable {r₀ r r' : Runner} {l m : List Incident} {es : List Happening} {name key : String}

section Incidents

theorem lastBegun_concat (r : Runner) (key : String) (l : List Incident) (x : Incident) :
    r.lastBegun key (l ++ [x]) = (r.begunIn key x).or (r.lastBegun key l) := by
  unfold lastBegun
  cases hx : r.begunIn key x <;> simp [List.filterMap_append, hx]

theorem shortUnder_concat {x : Incident} : r.ShortUnder name (l ++ [x]) ↔ r.ShortUnder name l ∨
    ∃ asked key, x = .short asked ∧ r.keyOf asked = some key ∧ r.lastBegun key l = some name := by
  constructor
  · intro h
    obtain ⟨before, asked, after, key, hl, hk, hb⟩ := h
    rcases List.eq_nil_or_concat after with rfl | ⟨rest, y, rfl⟩
    · obtain ⟨rfl, same⟩ := List.append_inj' hl rfl
      exact .inr ⟨asked, key, (List.singleton_inj.mp same), hk, hb⟩
    · rw [List.concat_eq_append, ← List.cons_append, ← List.append_assoc] at hl
      exact .inl ⟨before, asked, rest, key, (List.append_inj' hl rfl).1, hk, hb⟩
  · intro h
    rcases h with ⟨before, asked, after, key, rfl, hk, hb⟩ | ⟨asked, key, rfl, hk, hb⟩
    · exact ⟨before, asked, after ++ [x], key, by simp, hk, hb⟩
    · exact ⟨l, asked, [], key, rfl, hk, hb⟩

end Incidents

section Flags

/-- The phases stay what they are, and those of which `p` holds are flagged. -/
structure Flags (p : String → Prop) (r r' : Runner) : Prop where
  keys : ∀ name, r'.keyOf name = r.keyOf name
  flags : ∀ name v', r'.view? name = some v' → ∃ v, r.view? name = some v ∧
    (v'.2.limitExceeded = true ↔ v.2.limitExceeded = true ∨ p name)

theorem keyOf_view (r : Runner) (name : String) : r.keyOf name = (r.view? name).bind (·.1.key) := by
  rw [keyOf, view?, Option.bind_map]
  rfl

theorem Flags.change {p c : String → Prop} [DecidablePred c] {g : Phase × Notice → Phase × Notice}
    (hv : ∀ name, r'.view? name = if c name then (r.view? name).map g else r.view? name)
    (hg : ∀ name v, c name → r.view? name = some v → (g v).1 = v.1 ∧
      ((g v).2.limitExceeded = true ↔ v.2.limitExceeded = true ∨ p name))
    (hp : ∀ name, p name → c name) : Flags p r r' := by
  constructor
  · intro name
    rw [keyOf_view, keyOf_view, hv]
    split
    · rename_i hc
      cases h : r.view? name with
      | none => rfl
      | some v => simp [(hg name v hc h).1]
    · rfl
  · intro name v' h
    rw [hv] at h
    split at h
    · rename_i hc
      obtain ⟨v, hv, rfl⟩ := Option.map_eq_some_iff.mp h
      exact ⟨v, hv, (hg name v hc hv).2⟩
    · rename_i hc
      have spared : ¬ p name := fun held => hc (hp name held)
      exact ⟨v', h, by simp [spared]⟩

theorem Flags.same (hv : ∀ name, r'.view? name = r.view? name) : Flags (fun _ => False) r r' where
  keys := fun name => by rw [keyOf_view, keyOf_view, hv]
  flags := fun name v' h => ⟨v', (hv name).symm.trans h, by simp⟩

theorem flags_move (here : Option Nat) {i : Instance} {s : Standing}
    (hi : r.instances.get? name = some i) (hn : s.notes = i.standing.notes) :
    Flags (fun _ => False) r (r.move here name s) := by
  refine .change (c := (· = name)) (view?_move here name s r) (fun other v he hv => ⟨rfl, ?_⟩)
    fun _ no => no.elim
  rw [he, view?, hi] at hv
  have limit : s.limitExceeded = i.standing.limitExceeded := (Prod.mk.inj hn).2
  simp [← Option.some.inj hv, Instance.view, Standing.notice, limit]

end Flags

/-- The flags after what has come to pass since a runner was made. -/
structure Marked (r₀ : Runner) (l : List Incident) (r : Runner) : Prop where
  keys : ∀ name, r.keyOf name = r₀.keyOf name
  currents : ∀ key, r.current? key = r₀.lastBegun key l
  flags : ∀ name v, r.view? name = some v →
    (v.2.limitExceeded = true ↔ .flagged name ∈ l ∨ r₀.ShortUnder name l)

namespace Marked

theorem quiet (h : Marked r₀ l r) (f : Flags (fun _ => False) r r')
    (hc : ∀ key, r'.current? key = r.current? key) : Marked r₀ (l ++ []) r' := by
  rw [List.append_nil]
  refine ⟨fun name => (f.keys name).trans (h.keys name),
    fun key => (hc key).trans (h.currents key), fun name v' hv => ?_⟩
  obtain ⟨v, hv, flag⟩ := f.flags name v' hv
  rw [flag, or_false, h.flags name v hv]

theorem next (h : Marked r₀ l r) {p : String → Prop} (f : Flags p r r') (x : Incident)
    (hc : ∀ key, r'.current? key = (r₀.begunIn key x).or (r.current? key))
    (hp : ∀ name, p name ↔ x = .flagged name ∨
      ∃ asked key, x = .short asked ∧ r₀.keyOf asked = some key ∧ r₀.lastBegun key l = some name) :
    Marked r₀ (l ++ [x]) r' := by
  refine ⟨fun name => (f.keys name).trans (h.keys name), fun key => ?_, fun name v' hv => ?_⟩
  · rw [hc, h.currents, lastBegun_concat]
  · obtain ⟨v, hv, flag⟩ := f.flags name v' hv
    rw [flag, h.flags name v hv, hp, shortUnder_concat, List.mem_append, List.mem_singleton,
      eq_comm (a := x)]
    exact or_or_or_comm

theorem beat (h : Marked r₀ l r) (k : Beat r m r') : Marked r₀ (l ++ m) r' := by
  cases k with
  | hush k => exact h.quiet (.same k.views) k.currents
  | @enter phase key hk hg =>
    refine h.next (.same (view?_congr (spares_enterGroup r key phase).instances)) _
      (fun other => ?_) (by simp)
    rw [current?_enterGroup hg, begunIn, ← h.keys, hk]
    by_cases ho : other = key
    · simp [ho]
    · simp [ho, Ne.symm ho]
  | alone hk =>
    refine h.next (.same fun _ => rfl) _ (fun other => ?_) (by simp)
    simp [begunIn, ← h.keys, hk]
  | @move here phase i s hi _ hn =>
    exact h.quiet (flags_move here hi hn) (current?_move here phase s r)
  | @short phase key _ hk ha =>
    obtain ⟨currents, views⟩ := acquire_depletes ha
    refine h.next (.change views (fun _ _ held _ => ⟨rfl, by simp [held]⟩) fun _ => id) _
      currents fun name => ?_
    simp [h.currents, ← h.keys, hk]
  | flag phase =>
    refine h.next (p := (· = phase)) (.change (view?_modifyInstance r phase _
      (fun v => (v.1, { v.2 with limitExceeded := true })) fun _ => rfl)
      (fun _ _ held _ => ⟨rfl, by simp [held]⟩) fun _ => id) _ (fun _ => rfl) fun name => ?_
    simp [eq_comm (a := phase)]
  | blame phase f =>
    refine h.next (p := fun _ => False) ?_ _ (fun _ => rfl) (by simp)
    exact .change (view?_blamed r phase f) (fun _ _ _ _ => ⟨rfl, by simp⟩) fun _ no => no.elim
  | announce fence =>
    exact h.quiet (.same (view?_congr (routine_announce fence r).instances))
      (SameDates.announce r fence).currents

theorem beats (h : Marked r₀ [] r₀) (k : Beats r₀ l r) : Marked r₀ l r := by
  induction k with
  | refl => exact h
  | tail _ hb ih => exact ih.beat hb

end Marked

theorem Fresh.marked (h : r.Fresh) : Marked r [] r where
  keys := fun _ => rfl
  currents := by
    intro key
    rw [current?]
    cases hg : r.groups.get? key with
    | none => rfl
    | some g =>
      rw [h.groups key g hg]
      rfl
  flags := by
    intro name v hv
    obtain ⟨i, hi, rfl⟩ := Option.map_eq_some_iff.mp hv
    simp [Instance.view, h.instances name i hi, Standing.notice, ShortUnder]

theorem exceedLimit_of_flagged {e : Happening} (h : .flagged name ∈ r.incidents e) :
    e = .exceedLimit name := by
  have told : .flagged name ∉ incidentsIn (r.occurrences e) := by
    intro hm
    rcases mem_incidentsIn hm with ⟨_, _, _, no⟩ | ⟨_, _, _, _, no⟩ <;> cases no
  cases e with
  | exceedLimit phase =>
    cases List.mem_singleton.mp h
    rfl
  | deed here d =>
    cases d with
    | begin => simp [incidents] at h
    | fail => simp [incidents] at h
    | _ => exact absurd h told
  | _ => exact absurd h told

/-- Unless it is done by hand, a phase is flagged if and only if an attempt to start a session, its
own or that of another phase of its key, found the pool empty while it was the last of them to
begin. -/
theorem depletion_flags_last_begun (h₀ : r₀.Initial) (h : Course r₀ es r)
    (hand : ∀ phase, .exceedLimit phase ∉ es) {i : Instance}
    (hi : r.instances.get? name = some i) :
    i.standing.limitExceeded = true ↔ r₀.ShortUnder name (r₀.trail incidents es) := by
  have marked := (fresh_of_initial h₀).marked.beats (Course.refl.beats h₀ h)
  have view : r.view? name = some i.view := by rw [view?, hi]; rfl
  refine (marked.flags name _ view).trans (or_iff_right fun flagged => ?_)
  obtain ⟨e, he, q, hm⟩ := mem_trail flagged
  rw [exceedLimit_of_flagged hm] at he
  exact hand name he

set_option maxRecDepth 10000 in
/-- The paced phase begins, then the other one, which gets all sessions there are. With its first tick
the paced phase asks for one. -/
theorem sharedRunner_late_tick : ∃ r es i j, Course sharedRunner es r ∧
    (∀ phase, .exceedLimit phase ∉ es) ∧
    sharedRunner.trail incidents es = [.begun "trickle", .begun "crowd", .short "trickle"] ∧
    r.instances.get? "trickle" = some i ∧ i.standing.limitExceeded = false ∧
    r.instances.get? "crowd" = some j ∧ j.standing.limitExceeded = true := by
  have h := Course.one (r := sharedRunner) (e := .deed none (.begin "trickle")) trivial rfl
  have h := h.next (e := .pace "trickle") trivial rfl
  have h := h.next (e := .deed none (.begin "crowd")) trivial rfl
  have h := h.next (e := .deed none (.enroll "crowd")) trivial rfl
  have h := h.next (e := .deed none (.enroll "crowd")) trivial rfl
  have h := h.next (e := .turn 0) (fun _ _ h => by cases h) rfl
  have h := h.next (e := .turn 0) (fun _ _ h => by cases h) rfl
  exact ⟨_, _, _, _, h, by simp, rfl, rfl, rfl, rfl, rfl⟩

/-- The phase that was short is not flagged, and the one that is flagged was not short. -/
theorem short_and_flag_apart : ∃ r es i j, Course sharedRunner es r ∧
    (∀ phase, .exceedLimit phase ∉ es) ∧
    r.instances.get? "trickle" = some i ∧ i.standing.limitExceeded = false ∧
    .short "trickle" ∈ sharedRunner.trail incidents es ∧
    r.instances.get? "crowd" = some j ∧ j.standing.limitExceeded = true ∧
    .short "crowd" ∉ sharedRunner.trail incidents es := by
  obtain ⟨r, es, i, j, h, hand, trail, hi, ni, hj, nj⟩ := sharedRunner_late_tick
  exact ⟨r, es, i, j, h, hand, hi, ni, by simp [trail], hj, nj, by simp [trail]⟩

/-- The flag is that of the phase that began last. -/
theorem crowd_flagged_for_trickle : ∃ r es j, Course sharedRunner es r ∧
    r.instances.get? "crowd" = some j ∧ j.standing.limitExceeded = true ∧
    sharedRunner.ShortUnder "crowd" (sharedRunner.trail incidents es) := by
  obtain ⟨r, es, _, j, h, hand, _, _, _, hj, nj⟩ := sharedRunner_late_tick
  exact ⟨r, es, j, h, hj, nj,
    (depletion_flags_last_begun sharedRunner_initial h hand hj).mp nj⟩

end LoadGen.Runner
