import LoadGen.Proofs.Ownership

namespace LoadGen.Runner

section Stop

def Still (r : Runner) (session : Nat) : Prop :=
  ∀ s, r.sessions[session]? = some s → s.inFlight = []

theorem still_completeRequest {r : Runner} {session : Nat} (h : r.Still session) (id : Nat) :
    (r.completeRequest id).Still session := by
  unfold completeRequest
  split
  · exact h
  · rename_i q _
    have untracked : ∀ r' : Runner, r'.sessions = r.sessions →
        (r'.modifySession q.session (·.untrack id)).Still session := by
      intro r' he s hs
      simp only [Runner.modifySession, he, List.getElem?_modify] at hs
      obtain ⟨t, ht, rfl⟩ := Option.map_eq_some_iff.mp hs
      split
      · simp [Session.untrack, h t ht]
      · exact h t ht
    apply untracked _
    unfold disarmRequest
    split <;> rfl

theorem calm_stopSession (r : Runner) (session : Nat) {s : Session}
    (h : (r.stopSession session).sessions[session]? = some s) : s.Calm := by
  let requests := ((r.session? session).map (·.inFlight)).getD []
  have cleared : (r.modifySession session fun s => { s with inFlight := [] }).Still session := by
    intro t ht
    simp only [Runner.modifySession, List.getElem?_modify_eq] at ht
    obtain ⟨u, _, rfl⟩ := Option.map_eq_some_iff.mp ht
    rfl
  have still : ∀ (l : List Nat) (q : Runner), q.Still session →
      (l.foldl completeRequest q).Still session := by
    intro l
    induction l with
    | nil => exact fun _ hq => hq
    | cons id l ih => exact fun q hq => ih _ (still_completeRequest hq id)
  have done := still requests _ cleared
  have hs : ((requests.foldl completeRequest
      (r.modifySession session fun s => { s with inFlight := [] })).modifySession session
        fun s => { s with sequence := none, current := none }).sessions[session]? = some s := h
  simp only [Runner.modifySession, List.getElem?_modify_eq] at hs
  obtain ⟨t, ht, rfl⟩ := Option.map_eq_some_iff.mp hs
  exact ⟨done t ht, rfl, rfl⟩

theorem completeRequest_withRuns (r : Runner) (runs : List Run) (id : Nat) :
    { r with runs := runs }.completeRequest id = { r.completeRequest id with runs := runs } := by
  have same : { r with runs := runs }.request? id = r.request? id := rfl
  unfold completeRequest
  rw [same]
  cases r.request? id with
  | none => rfl
  | some q =>
    dsimp only
    unfold disarmRequest
    cases q.timer <;> rfl

theorem stopSession_withRuns (r : Runner) (runs : List Run) (session : Nat) :
    { r with runs := runs }.stopSession session =
      { r.stopSession session with runs := runs } := by
  have fold : ∀ (l : List Nat) (q : Runner), l.foldl completeRequest { q with runs := runs } =
      { l.foldl completeRequest q with runs := runs } := by
    intro l
    induction l with
    | nil => exact fun _ => rfl
    | cons id l ih =>
      intro q
      rw [List.foldl_cons, completeRequest_withRuns, ih, List.foldl_cons]
  unfold stopSession
  dsimp only
  have hf := fold (((r.session? session).map (·.inFlight)).getD [])
    (r.modifySession session fun s => { s with inFlight := [] })
  exact congrArg (·.modifySession session fun s =>
    { s with sequence := none, current := none }) hf

theorem stopSession_runs (r : Runner) (session : Nat) :
    (r.stopSession session).runs = r.runs := by
  have h := congrArg (fun q : Runner => q.runs) (stopSession_withRuns r r.runs session)
  exact h

end Stop

section Retire

theorem filter_id {runs : List Run} (hn : (runs.map (·.id)).Nodup) {run : Run}
    (hm : run ∈ runs) : runs.filter (·.id == run.id) = [run] := by
  induction runs with
  | nil => cases hm
  | cons other rest ih =>
    rw [List.map_cons, List.nodup_cons] at hn
    rcases List.mem_cons.mp hm with rfl | hm
    · rw [List.filter_cons_of_pos (by simp), List.filter_eq_nil_iff.mpr]
      intro a ha he
      refine hn.1 (List.mem_map.mpr ⟨a, ha, by simpa using he⟩)
    · rw [List.filter_cons_of_neg, ih hn.2 hm]
      intro he
      have hid : other.id = run.id := by simpa using he
      exact hn.1 (List.mem_map.mpr ⟨run, hm, hid.symm⟩)

theorem runs_perm {r : Runner} (o : r.Owned) {run : Run} (hm : run ∈ r.runs) :
    (run :: r.runs.filter (·.id != run.id)).Perm r.runs := by
  have split := List.filter_append_perm (fun other => other.id == run.id) r.runs
  rw [filter_id o.ids hm] at split
  exact split

def retire (r : Runner) (run : Run) (key : String) (s : Standing) : Runner :=
  ({ r with runs := r.runs.filter (·.id != run.id) }.giveBack key run.session).modifyInstance
    run.phase fun i => { i with standing := s }

variable {r : Runner} {run : Run} {key : String} {i : Instance} (o : r.Owned) (hm : run ∈ r.runs)
  (hi : r.instances.get? run.phase = some i) (hk : i.phase.key = some key)

theorem retire_keyOf (s : Standing) (name : String) :
    (r.retire run key s).keyOf name = r.keyOf name :=
  keyOf_modifyInstance r run.phase (f := fun i => { i with standing := s }) (fun _ => rfl) name

include o hm hi hk in
theorem retire_crew (s : Standing) (k : String) :
    (r.crew k).Perm ((if k = key then [run.session] else []) ++ (r.retire run key s).crew k) := by
  have hp : r.keyOf run.phase = some key := by simp [keyOf, hi, hk]
  have whole := ((runs_perm o hm).filter fun run => r.keyOf run.phase = some k).map (·.session)
  apply whole.symm.trans
  have rest : (r.retire run key s).crew k =
      ((r.runs.filter (·.id != run.id)).filter fun run => r.keyOf run.phase = some k).map
        (·.session) := by
    simp only [crew, retire_keyOf]
    rfl
  rw [rest]
  by_cases he : k = key
  · simp [he, hp]
  · simp [he, hp, Ne.symm he]

include o hm in
theorem retire_runsOf (s : Standing) (name : String) :
    r.runsOf name = (r.retire run key s).runsOf name + if run.phase = name then 1 else 0 := by
  have whole := (runs_perm o hm).countP_eq (·.phase = name)
  rw [List.countP_cons] at whole
  simp only [decide_eq_true_eq] at whole
  exact whole.symm

theorem retire_get? (s : Standing) (name : String) :
    (r.retire run key s).instances.get? name =
      if name = run.phase then (r.instances.get? name).map fun i => { i with standing := s }
      else r.instances.get? name := Dict.get?_modify ..

theorem retire_groups (s : Standing) (k : String) : (r.retire run key s).groups.get? k =
    if k = key then (r.groups.get? k).map fun g => { g with pool := g.pool.release run.session }
    else r.groups.get? k := Dict.get?_modify ..

include o hm hi hk in
theorem retire_shared (s : Standing) : ∀ k g, (r.retire run key s).groups.get? k = some g →
    (g.pool.free ++ (r.retire run key s).crew k).Perm ((r.retire run key s).members k) ∧
      g.pool.created = ((r.retire run key s).members k).length := by
  intro k g hg
  have same : (r.retire run key s).members k = r.members k := rfl
  rw [same]
  have whole := retire_crew o hm hi hk s k
  rw [retire_groups] at hg
  split at hg
  · rename_i he
    subst he
    obtain ⟨g₀, hg₀, rfl⟩ := Option.map_eq_some_iff.mp hg
    obtain ⟨hp, hc⟩ := o.shared k g₀ hg₀
    refine ⟨?_, hc⟩
    rw [if_pos rfl] at whole
    have back : (run.session :: g₀.pool.free ++ (r.retire run k s).crew k).Perm
        (g₀.pool.free ++ ([run.session] ++ (r.retire run k s).crew k)) := List.perm_middle.symm
    exact back.trans ((whole.symm.append_left _).trans hp)
  · rename_i he
    obtain ⟨hp, hc⟩ := o.shared k g hg
    rw [if_neg he, List.nil_append] at whole
    exact ⟨(whole.symm.append_left _).trans hp, hc⟩

include o in
/-- The session that comes back is calm, and the others that are free were so before. -/
theorem retire_calm (hc : ∀ t, r.sessions[run.session]? = some t → t.Calm) (s : Standing) :
    ∀ k g, (r.retire run key s).groups.get? k = some g → ∀ id ∈ g.pool.free, ∀ t,
      r.sessions[id]? = some t → t.Calm := by
  intro k g hg id hid t ht
  rw [retire_groups] at hg
  split at hg
  · obtain ⟨g₀, hg₀, rfl⟩ := Option.map_eq_some_iff.mp hg
    rcases List.mem_cons.mp hid with rfl | hid
    · exact hc t ht
    · exact o.calm k g₀ hg₀ id hid t ht
  · exact o.calm k g hg id hid t ht

include o hm hi hk in
theorem retire_owned (hc : ∀ s, r.sessions[run.session]? = some s → s.Calm) (now : Nat) :
    (r.retire run key (i.standing.leave now)).Owned := by
  have sub : ∀ other ∈ r.runs.filter (·.id != run.id), other ∈ r.runs := fun other ho =>
    (List.mem_filter.mp ho).1
  have counts := @retire_runsOf r run key o hm (i.standing.leave now)
  have busy : 0 < i.standing.active := by
    rw [o.counted _ _ hi, counts]
    simp
  exact {
    size := o.size
    running := o.running
    names := by
      have hn : (r.retire run key (i.standing.leave now)).instances.keys = r.instances.keys :=
        Dict.keys_modify ..
      rw [hn]
      exact o.names
    lawful := by
      intro name j hj
      rw [retire_get?] at hj
      split at hj
      · rename_i he
        subst he
        rw [hi] at hj
        cases hj
        exact Standing.leave_lawful (o.lawful _ _ hi) busy now
      · exact o.lawful name j hj
    counted := by
      intro name j hj
      have hr := counts name
      rw [retire_get?] at hj
      split at hj
      · rename_i he
        subst he
        rw [hi] at hj
        cases hj
        rw [if_pos rfl, ← o.counted _ _ hi] at hr
        rw [Standing.leave_active]
        omega
      · rename_i he
        rw [if_neg (Ne.symm he), ← o.counted name j hj] at hr
        omega
    grouped := by
      intro name k hn
      rw [retire_keyOf] at hn
      have hs := o.grouped name k hn
      rw [retire_groups]
      split
      · rwa [Option.isSome_map]
      · exact hs
    ids := o.ids.sublist (List.Sublist.map _ List.filter_sublist)
    numbered := fun other ho => o.numbered other (sub other ho)
    bound := by
      intro other ho
      rw [retire_keyOf]
      exact o.bound other (sub other ho)
    shared := retire_shared o hm hi hk _
    calm := retire_calm o hc _
    seated := o.seated }

end Retire

namespace Owned
variable {r r' : Runner}

theorem beside_unwind (o : r.Owned) (here : Option Nat) {run : Run} (hm : run ∈ r.runs) :
    ∃ i key, (r.stopSession run.session).instances.get? run.phase = some i ∧
      i.phase.key = some key ∧
        Beside nobody ((r.stopSession run.session).retire run key (i.standing.leave r.now))
          (r.unwind here run) := by
  have clock := (@aside_stopSession nobody r run.session).now
  have o₀ := o.same (@aside_stopSession nobody r run.session).holders
  have hm₀ : run ∈ (r.stopSession run.session).runs := by
    rw [stopSession_runs]
    exact hm
  obtain ⟨_, _, _, hb⟩ := o₀.bound run hm₀
  obtain ⟨i, hi, hk⟩ := Option.bind_eq_some_iff.mp hb
  refine ⟨i, _, hi, hk, ?_⟩
  rw [← clock]
  simp only [retire, stopSession_runs]
  unfold Runner.unwind
  dsimp only
  rw [stopSession_withRuns r (r.runs.filter (·.id != run.id)) run.session]
  dsimp only
  rw [hi]
  dsimp only
  rw [hk]
  dsimp only
  split
  · exact .refl _
  · exact beside_move ..

theorem unwind (o : r.Owned) (here : Option Nat) {run : Run} (hm : run ∈ r.runs) :
    (r.unwind here run).Owned := by
  obtain ⟨i, key, hi, hk, same⟩ := o.beside_unwind here hm
  have hm₀ : run ∈ (r.stopSession run.session).runs := by
    rw [stopSession_runs]
    exact hm
  have retired := retire_owned (o.same (@aside_stopSession nobody r run.session).holders) hm₀ hi hk
    (fun _ hs => calm_stopSession r run.session hs) r.now
  exact retired.same same.holders

end Owned

end LoadGen.Runner
