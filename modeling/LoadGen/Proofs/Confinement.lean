import LoadGen.Proofs.GroupLocality

namespace LoadGen.Runner

/-- Nothing has changed outside a region. -/
structure Confined (R : Region) (r r' : Runner) : Prop where
  groups : ∀ key, ¬ R.keys key → r'.groups.get? key = r.groups.get? key
  phases : ∀ name, ¬ R.phases name → r'.instances.get? name = r.instances.get? name
  pacers : ∀ name, ¬ R.phases name → r'.pacers.get? name = r.pacers.get? name
  sessions : ∀ id s, ¬ R.keys s.group → (r'.session? id = some s ↔ r.session? id = some s)
  requests : ∀ key id q, ¬ R.keys key → q.session ∈ r.members key →
    (r'.request? id = some q ↔ r.request? id = some q)
  runs : ∀ run, ¬ R.phases run.phase → (run ∈ r'.runs ↔ run ∈ r.runs)

namespace Confined
variable {R : Region} {r r₁ r' : Runner}

theorem refl (R : Region) (r : Runner) : Confined R r r :=
  ⟨fun _ _ => rfl, fun _ _ => rfl, fun _ _ => rfl, fun _ _ _ => .rfl, fun _ _ _ _ _ => .rfl,
    fun _ _ => .rfl⟩

theorem member (h : Confined R r r') {key : String} {id : Nat} (hn : ¬ R.keys key)
    (hm : id ∈ r.members key) : id ∈ r'.members key := by
  obtain ⟨s, hs, rfl⟩ := mem_members.mp hm
  exact mem_members.mpr ⟨s, (h.sessions id s hn).mpr hs, rfl⟩

theorem trans (h : Confined R r r₁) (k : Confined R r₁ r') : Confined R r r' where
  groups := fun key hn => (k.groups key hn).trans (h.groups key hn)
  phases := fun name hn => (k.phases name hn).trans (h.phases name hn)
  pacers := fun name hn => (k.pacers name hn).trans (h.pacers name hn)
  sessions := fun id s hn => (k.sessions id s hn).trans (h.sessions id s hn)
  requests := fun key id q hn hm =>
    (k.requests key id q hn (h.member hn hm)).trans (h.requests key id q hn hm)
  runs := fun run hn => (k.runs run hn).trans (h.runs run hn)

section Writes

theorem modifyInstance (r : Runner) {phase : String} (hp : R.phases phase)
    (f : Instance → Instance) : Confined R r (r.modifyInstance phase f) :=
  { refl R r with
    phases := fun name hn =>
      Dict.get?_modify_of_ne (show name ≠ phase from fun he => hn (he ▸ hp)) .. }

theorem modifyGroup (r : Runner) {key : String} (hk : R.keys key) (f : Group → Group) :
    Confined R r (r.modifyGroup key f) :=
  { refl R r with
    groups := fun other hn =>
      Dict.get?_modify_of_ne (show other ≠ key from fun he => hn (he ▸ hk)) .. }

/-- A session of the region is, before and after, no session of another group. -/
theorem modifySession (r : Runner) (id : Nat) {f : Session → Session}
    (inside : r.Inside R id) (h : ∀ s, r.session? id = some s → (f s).group = s.group) :
    Confined R r (r.modifySession id f) :=
  { refl R r with
    sessions := by
      intro other s hn
      simp only [session?, Runner.modifySession, List.getElem?_modify]
      split
      · rename_i he
        subst he
        cases hs : r.sessions[id]? with
        | none => rfl
        | some t =>
          have keys : R.keys t.group := inside.keys (mem_members.mpr ⟨t, hs, rfl⟩)
          constructor <;> intro eq <;> cases eq
          · exact absurd ((h t hs).symm ▸ keys) hn
          · exact absurd keys hn
      · simp }

theorem modifyRequest (r : Runner) (id : Nat) {f : Request → Request}
    (h : ∀ q, r.request? id = some q → r.Inside R q.session ∧ (f q).session = q.session) :
    Confined R r (r.modifyRequest id f) :=
  { refl R r with
    requests := by
      intro key other q hn hm
      simp only [request?, Runner.modifyRequest, List.getElem?_modify]
      split
      · rename_i he
        subst he
        cases hq : r.requests[id]? with
        | none => rfl
        | some p =>
          obtain ⟨inside, same⟩ := h p hq
          constructor <;> intro eq <;> cases eq
          · exact absurd (inside.keys (same ▸ hm)) hn
          · exact absurd (inside.keys hm) hn
      · simp }

theorem drawn {key : String} {session : Nat} (hk : R.keys key) (h : Drawn r key session r') :
    Confined R r r' := by
  cases h with
  | again _ _ _ _ _ he =>
    rw [he]
    exact modifyGroup r hk _
  | @anew g pool _ _ _ _ _ _ _ _ he =>
    rw [he]
    exact { modifyGroup r hk fun g => { g with pool := pool } with
      sessions := by
        intro id s hn
        simp only [session?, List.getElem?_append]
        split
        · rfl
        · rename_i hlt
          rw [List.getElem?_eq_none (Nat.le_of_not_lt hlt)]
          refine iff_of_false (fun hs => hn ?_) (Option.some_ne_none s).symm
          rw [List.mem_singleton.mp (List.mem_of_getElem? hs)]
          exact hk }

theorem engage {home : String → Option String} (r : Runner) {session : Nat} {phase key : String}
    (hc : R.Covers home phase) (hk : home phase = some key) (hm : session ∈ r.members key) :
    Confined R r (r.engage session phase) := by
  exact (modifyInstance r hc.self fun i => { i with standing := i.standing.join }).trans
    (modifySession _ session ⟨key, hc.keys key hk, hm⟩ fun _ _ => rfl)

end Writes

end Confined

section Touch
variable {home : String → Option String} {R : Region} {x y : Scene}

theorem Touch.confined (k : Keyed home x.1) (h : Touch home R x y) : Confined R x.1 y.1 := by
  cases h with
  | apart h =>
    exact ⟨fun _ _ => by rw [h.groups], fun _ _ => by rw [h.instances], h.pacers,
      fun _ _ _ => by rw [session?, session?, h.sessions],
      fun _ _ _ _ _ => by rw [request?, request?, h.requests], fun _ _ => by rw [h.runs]⟩
  | phase _ hp => exact .modifyInstance _ hp _
  | group _ hk => exact .modifyGroup _ hk _
  | groups hk => exact { Confined.refl R _ with groups := fun key hn => absurd (hk key) hn }
  | session id inside h => exact .modifySession _ id inside fun s hs => (h s hs).group
  | request id h =>
    exact .modifyRequest _ id fun q hq => ⟨(h q hq).1, (h q hq).2.session⟩
  | @wish r held q hs _ =>
    exact { Confined.refl R r with
      requests := by
        intro key id p hn hm
        simp only [request?, List.getElem?_append]
        split
        · rfl
        · rename_i hlt
          rw [List.getElem?_eq_none (Nat.le_of_not_lt hlt)]
          refine iff_of_false (fun hp => hn ?_) (Option.some_ne_none p).symm
          rw [List.mem_singleton.mp (List.mem_of_getElem? hp)] at hm
          exact hs.keys hm }
  | @points r held f h =>
    exact { Confined.refl R r with
      runs := by
        intro run hn
        simp only [List.mem_map]
        constructor
        · intro moved
          obtain ⟨other, hm, rfl⟩ := moved
          obtain ⟨core, same | inside⟩ := h other hm
          · rwa [same]
          · exact absurd ((Run.core_eq core).2.2 ▸ inside) hn
        · intro hm
          refine ⟨run, hm, (h run hm).2.resolve_right hn⟩ }
  | take hk h => exact .drawn hk h
  | give hk => exact .modifyGroup _ hk _
  | @hire r held session phase key hc hk hm =>
    exact { Confined.engage r hc hk hm with
      runs := by
        intro run hn
        simp only [Runner.hire, List.mem_append, List.mem_singleton]
        refine or_iff_left fun he => hn ?_
        rw [he]
        exact hc.self }
  | lose hc hk hm => exact .engage _ hc hk hm
  | @part r held f run hm hp =>
    exact { Confined.modifyInstance r hp f with
      runs := by
        intro other hn
        simp only [List.mem_filter, bne_iff_ne, ne_eq]
        refine and_iff_left_of_imp fun ho he => hn ?_
        rw [List.inj_on_of_nodup_map k.ids ho hm he]
        exact hp }
  | drop hp =>
    exact { Confined.refl R _ with
      pacers := fun name hn => absurd (hp name) hn
      runs := fun run hn => absurd (hp run.phase) hn }

theorem Touches.confined (k : Keyed home x.1) (h : Touches home R x y) : Confined R x.1 y.1 := by
  induction h with
  | refl => exact .refl R _
  | tail h t ih => exact ih.trans (t.confined (k.touches h))

end Touch

end LoadGen.Runner
