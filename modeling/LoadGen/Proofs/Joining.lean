import LoadGen.Proofs.Rows
import LoadGen.Runner.Startups
import Mathlib.Data.List.Induction
import Mathlib.Tactic.Tauto

namespace LoadGen

namespace Dict
variable {α β : Type} {pairs : List (String × α)}

theorem map_insert (f : α → β) (d : Dict α) (key : String) (a : α) :
    (d.insert key a).map f = (d.map f).insert key (f a) := by
  obtain ⟨l⟩ := d
  simp only [insert, map]
  congr 1
  induction l with
  | nil => rfl
  | cons p rest ih =>
    obtain ⟨k, b⟩ := p
    simp only [put, List.map_cons]
    split
    · rfl
    · split
      · rfl
      · rw [List.map_cons, ih]

theorem map_ofList (f : α → β) (pairs : List (String × α)) :
    (ofList pairs).map f = ofList (pairs.map fun (k, a) => (k, f a)) := by
  have whole : ∀ d : Dict α, (pairs.foldl (fun d (k, a) => d.insert k a) d).map f =
      (pairs.map fun (k, a) => (k, f a)).foldl (fun d (k, a) => d.insert k a) (d.map f) := by
    induction pairs with
    | nil => exact fun _ => rfl
    | cons p rest ih =>
      intro d
      rw [List.foldl_cons, ih, map_insert, List.map_cons, List.foldl_cons]
  exact whole .empty

theorem mem_keys_iff {d : Dict α} {key : String} : key ∈ d.keys ↔ (d.get? key).isSome := by
  constructor
  · exact get?_isSome_of_mem_keys
  · intro there
    obtain ⟨a, ha⟩ := Option.isSome_iff_exists.mp there
    exact mem_keys_of_get? ha

theorem mem_keys_insert {d : Dict α} {key other : String} {a : α} :
    other ∈ (d.insert key a).keys ↔ other = key ∨ other ∈ d.keys := by
  by_cases he : other = key
  · simp [mem_keys_iff, he]
  · simp [mem_keys_iff, get?_insert_of_ne he, he]

theorem mem_keys_ofList {key : String} : key ∈ (ofList pairs).keys ↔ key ∈ pairs.map (·.1) := by
  have whole : ∀ d : Dict α, key ∈ (pairs.foldl (fun d (k, a) => d.insert k a) d).keys ↔
      key ∈ pairs.map (·.1) ∨ key ∈ d.keys := by
    induction pairs with
    | nil => simp
    | cons p rest ih =>
      intro d
      rw [List.foldl_cons, ih, mem_keys_insert, List.map_cons, List.mem_cons]
      tauto
  simpa [ofList, keys, empty] using whole .empty

theorem mem_entries_ofList {p : String × α} (h : p ∈ (ofList pairs).entries) : p ∈ pairs := by
  have whole : ∀ d : Dict α, p ∈ (pairs.foldl (fun d (k, a) => d.insert k a) d).entries →
      p ∈ pairs ∨ p ∈ d.entries := by
    clear h
    induction pairs with
    | nil => exact fun _ h => .inr h
    | cons q rest ih =>
      intro d h
      rcases ih _ h with h | h
      · exact .inl (List.mem_cons_of_mem _ h)
      · rcases mem_entries_insert h with rfl | h
        · exact .inl List.mem_cons_self
        · exact .inr h
  exact (whole .empty h).resolve_right nofun

end Dict

/-- What a client answered: its name, and how its start came out. -/
abbrev ClientAnswer := String × Except Failure Unit

/-- The answer of a client that counts is its first one. -/
def answerOf (answers : List ClientAnswer) (name : String) : Option (Except Failure Unit) :=
  (answers.find? (·.1 == name)).map (·.2)

namespace Runner

/-- A call that opens the connections of a runner, after some answers. Other things may have
happened to the runner before each of them. What the call itself notes in the journal is listed. -/
inductive Connects (r : Runner) : List ClientAnswer → Connecting → List Entry → Prop
  | starts : Connects r [] r.startConnecting.1
      (r.startConnecting.2.journal.drop r.journal.length)
  | hears {answers : List ClientAnswer} {o : Connecting} {notes : List Entry} {q : Runner}
      {name : String} {result : Except Failure Unit} :
      Connects r answers o notes → q.listening = r.listening →
      Connects r (answers ++ [(name, result)]) (q.hear o name result).1
        (notes ++ (q.hear o name result).2.journal.drop q.journal.length)

section Table
variable {r : Runner} {answers : List ClientAnswer} {name : String} {result : Except Failure Unit}

theorem answerOf_concat (answers : List ClientAnswer) (name other : String)
    (result : Except Failure Unit) : answerOf (answers ++ [(name, result)]) other =
      (answerOf answers other).or (if name = other then some result else none) := by
  rw [answerOf, answerOf, List.find?_append]
  cases answers.find? (·.1 == other) with
  | some a => rfl
  | none =>
    by_cases he : name = other
    · simp [he]
    · simp [he]

/-- How the start of a client has come out after some answers. -/
def startupOf (answers : List ClientAnswer) (name : String) : Startup :=
  (answerOf answers name).elim .pending .ofResult

theorem startupOf_concat (answers : List ClientAnswer) (name other : String)
    (result : Except Failure Unit) : startupOf (answers ++ [(name, result)]) other =
      if other = name then (startupOf answers other).settle result
      else startupOf answers other := by
  rw [startupOf, startupOf, answerOf_concat]
  by_cases he : other = name
  · subst he
    rw [if_pos rfl, if_pos rfl]
    rcases answerOf answers other with _ | ⟨_ | ⟨⟩⟩ <;> rfl
  · rw [if_neg he, if_neg (Ne.symm he), Option.or_none]

theorem isPending_startupOf :
    (startupOf answers name).isPending = (answerOf answers name).isNone := by
  rw [startupOf]
  rcases answerOf answers name with _ | ⟨_ | ⟨⟩⟩ <;> rfl

theorem failure?_startupOf {f : Failure} : (startupOf answers name).failure? = some f ↔
    answerOf answers name = some (.error f) := by
  rw [startupOf]
  rcases answerOf answers name with _ | ⟨e | ⟨⟩⟩
  · simp [Startup.failure?]
  · simp [Startup.ofResult, Startup.failure?]
  · simp [Startup.ofResult, Startup.failure?]

/-- The names of the targets that a runner has clients for, in order. -/
def targets (r : Runner) : List String :=
  (Dict.ofList (r.clients.map fun c => (c.target.name, Startup.pending))).keys

theorem mem_targets : name ∈ r.targets ↔ ∃ c ∈ r.clients, c.target.name = name := by
  simp [targets, Dict.mem_keys_ofList]

theorem targets_sorted (r : Runner) : r.targets.Pairwise (· < ·) :=
  Dict.sorted_iff.mp (Dict.sorted_ofList _)

/-- The starts of the clients, as they have come out after some answers. -/
def startups (r : Runner) (answers : List ClientAnswer) : Dict Startup :=
  ⟨r.targets.map fun name => (name, startupOf answers name)⟩

theorem startups_nil (r : Runner) :
    Dict.ofList (r.clients.map fun c => (c.target.name, Startup.pending)) = r.startups [] := by
  have same := Dict.map_ofList (fun _ : Startup => Startup.pending)
    (r.clients.map fun c => (c.target.name, Startup.pending))
  rw [List.map_map] at same
  rw [startups, targets, Dict.keys, List.map_map]
  exact same.symm

theorem startups_concat (r : Runner) (answers : List ClientAnswer) (name : String)
    (result : Except Failure Unit) : (r.startups answers).modify name (·.settle result) =
      r.startups (answers ++ [(name, result)]) := by
  simp only [Dict.modify, startups, List.map_map]
  congr 1
  refine List.map_congr_left fun other _ => ?_
  simp only [Function.comp, startupOf_concat]
  split <;> rfl

theorem pending_iff : (r.startups answers).values.any Startup.isPending = true ↔
    ∃ c ∈ r.clients, answerOf answers c.target.name = none := by
  simp only [Dict.values, startups, List.map_map, List.any_map, List.any_eq_true, Function.comp,
    mem_targets, isPending_startupOf, Option.isNone_iff_eq_none]
  constructor
  · rintro ⟨_, ⟨c, hc, rfl⟩, none⟩
    exact ⟨c, hc, none⟩
  · rintro ⟨c, hc, none⟩
    exact ⟨_, ⟨c, hc, rfl⟩, none⟩

theorem startups_decided (h : (r.startups answers).values.any Startup.isPending = false)
    (name : String) (result : Except Failure Unit) :
    r.startups (answers ++ [(name, result)]) = r.startups answers := by
  rw [← Bool.not_eq_true, pending_iff] at h
  push Not at h
  rw [startups, startups]
  congr 1
  refine List.map_congr_left fun other ho => ?_
  obtain ⟨c, hc, rfl⟩ := mem_targets.mp ho
  have answered := h c hc
  rw [startupOf, startupOf, answerOf_concat]
  cases ha : answerOf answers c.target.name with
  | none => exact absurd ha answered
  | some a => rfl

end Table

section Joining
variable {r q : Runner} {answers : List ClientAnswer} {o : Connecting} {notes : List Entry}

/-- What is written down of a failure that is reported. -/
def reportEntry (listening : Bool) (f : Failure) : Entry :=
  if listening then .reported f
  else .logged ("No error handler registered, dropping: " ++ f.message)

theorem journal_report (r : Runner) (f : Failure) :
    (r.report f).journal = r.journal ++ [reportEntry r.listening f] := by
  rw [report, reportEntry]
  split <;> rfl

theorem journal_conclude (q : Runner) (o : Connecting) :
    (q.conclude o).2.journal.drop q.journal.length =
      o.failure?.toList.map (reportEntry q.listening) := by
  simp only [conclude]
  cases o.failure? with
  | none => simp
  | some f => simp [journal_report]

theorem clients_conclude (q : Runner) (o : Connecting) : (q.conclude o).2.clients = q.clients := by
  simp only [conclude]
  cases o.failure? with
  | none => rfl
  | some f =>
    simp only [report]
    split <;> rfl

theorem waiting_of_join {d e : Dict Startup} (h : Connecting.join d = .waiting e) : d = e := by
  unfold Connecting.join at h
  split at h
  · cases h
    rfl
  · split at h <;> cases h

theorem decided_of_join {d : Dict Startup} {result : Except Failure Unit}
    (h : Connecting.join d = .resolved result) : d.values.any Startup.isPending = false := by
  unfold Connecting.join at h
  split at h
  · cases h
  · rename_i decided
    exact Bool.eq_false_iff.mpr decided

/-- How a call stands is a matter of the answers that there are. It has noted the failure that it
has come to, if any, and nothing else. -/
theorem Connects.stands (h : Connects r answers o notes) :
    o = .join (r.startups answers) ∧ notes = o.failure?.toList.map (reportEntry r.listening) := by
  induction h with
  | starts =>
    exact ⟨congrArg Connecting.join (startups_nil _), journal_conclude
      { r with clients := r.clients.map fun c => { c with starts := c.starts + 1 } } _⟩
  | @hears answers o notes q name result _ same ih =>
    obtain ⟨ho, hn⟩ := ih
    cases o with
    | waiting startups =>
      obtain rfl := waiting_of_join ho.symm
      refine ⟨congrArg Connecting.join (startups_concat r answers name result), ?_⟩
      rw [hn, ← same]
      exact journal_conclude q _
    | resolved known =>
      refine ⟨?_, ?_⟩
      · rw [startups_decided (decided_of_join ho.symm)]
        exact ho
      · rw [hn, hear, List.drop_length, List.append_nil]

/-- The failure that counts, as soon as all clients have answered. -/
def firstFailure (r : Runner) (answers : List ClientAnswer) : Option Failure :=
  r.targets.findSome? fun name =>
    (startupOf answers name).failure?.map (startupFailure name)

theorem join_eq (r : Runner) (answers : List ClientAnswer) : Connecting.join (r.startups answers) =
    if ∀ c ∈ r.clients, (answerOf answers c.target.name).isSome then
      .resolved ((r.firstFailure answers).elim (.ok ()) .error)
    else .waiting (r.startups answers) := by
  have failures : ((r.startups answers).entries.findSome? fun p =>
      p.2.failure?.map (startupFailure p.1)) = r.firstFailure answers := by
    rw [startups, List.findSome?_map]
    rfl
  rw [Connecting.join]
  split
  · rename_i pending
    obtain ⟨c, hc, none⟩ := pending_iff.mp pending
    rw [if_neg]
    exact fun all => Option.isSome_iff_ne_none.mp (all c hc) none
  · rename_i decided
    rw [pending_iff] at decided
    push Not at decided
    rw [if_pos fun c hc => Option.isSome_iff_ne_none.mpr (decided c hc), failures]
    cases r.firstFailure answers <;> rfl

theorem firstFailure_eq_none (all : ∀ c ∈ r.clients, (answerOf answers c.target.name).isSome) :
    r.firstFailure answers = none ↔
      ∀ c ∈ r.clients, answerOf answers c.target.name = some (.ok ()) := by
  simp only [firstFailure, List.findSome?_eq_none_iff, mem_targets, Option.map_eq_none_iff]
  constructor
  · intro none c hc
    have well := none _ ⟨c, hc, rfl⟩
    obtain ⟨e | ⟨⟩, ha⟩ := Option.isSome_iff_exists.mp (all c hc)
    · rw [failure?_startupOf.mpr ha] at well
      cases well
    · exact ha
  · rintro well _ ⟨c, hc, rfl⟩
    rw [startupOf, well c hc]
    rfl

theorem firstFailure_eq_some {f : Failure} (h : r.firstFailure answers = some f) :
    ∃ c ∈ r.clients, ∃ e, answerOf answers c.target.name = some (.error e) ∧
      f = startupFailure c.target.name e ∧
      ∀ d ∈ r.clients, d.target.name < c.target.name →
        ∀ e, answerOf answers d.target.name ≠ some (.error e) := by
  obtain ⟨before, name, after, he, hf, earlier⟩ := List.findSome?_eq_some_iff.mp h
  have sorted := r.targets_sorted
  obtain ⟨c, hc, rfl⟩ := mem_targets.mp (he ▸ List.mem_append_right _ List.mem_cons_self :
    name ∈ r.targets)
  obtain ⟨e, failed, rfl⟩ := Option.map_eq_some_iff.mp hf
  refine ⟨c, hc, e, failure?_startupOf.mp failed, rfl, fun d hd hlt e' failed' => ?_⟩
  have there : d.target.name ∈ before := by
    have there := mem_targets.mpr ⟨d, hd, rfl⟩
    rw [he] at there sorted
    rcases List.mem_append.mp there with there | there
    · exact there
    · obtain ⟨later, _⟩ := List.pairwise_cons.mp (List.pairwise_append.mp sorted).2.1
      rcases List.mem_cons.mp there with same | there
      · exact absurd (same ▸ hlt) (String.lt_irrefl _)
      · exact absurd (String.lt_trans hlt (later _ there)) (String.lt_irrefl _)
  have none := earlier _ there
  rw [failure?_startupOf.mpr failed'] at none
  cases none

theorem startupFailure_poolStartup (name : String) (f : Failure) :
    ∃ pool reason, startupFailure name f = .poolStartup pool reason := by
  cases f <;> exact ⟨_, _, rfl⟩

/-- What a call that opens the connections has come to. -/
structure Joined (r : Runner) (answers : List ClientAnswer) (o : Connecting) (notes : List Entry) :
    Prop where
  ok : o = .resolved (.ok ()) ↔
    ∀ c ∈ r.clients, answerOf answers c.target.name = some (.ok ())
  resolved : (∃ result, o = .resolved result) ↔
    ∀ c ∈ r.clients, (answerOf answers c.target.name).isSome
  failure : ∀ f, o = .resolved (.error f) → notes = [reportEntry r.listening f] ∧
    (∃ pool reason, f = .poolStartup pool reason) ∧
    ∃ c ∈ r.clients, ∃ e, answerOf answers c.target.name = some (.error e) ∧
      f = startupFailure c.target.name e ∧ ∀ d ∈ r.clients, d.target.name < c.target.name →
        answerOf answers d.target.name = some (.ok ())
  silent : (∀ f, o ≠ .resolved (.error f)) → notes = []

/-- Whatever the clients answer, in whatever order, and whichever of them never do: a call that
opens the connections starts every client once, when it begins. It succeeds exactly if all clients
have answered that they are ready. It fails if one of them has failed and all have answered, with
the first failure by target name as a failure of the pool, which is noted once; and nothing else
is. -/
theorem connections_joined (h : Connects r answers o notes) :
    (r.startConnecting.2.clients = r.clients.map fun c => { c with starts := c.starts + 1 }) ∧
      (∀ (q : Runner) name result, (q.hear o name result).2.clients = q.clients) ∧
      Joined r answers o notes := by
  obtain ⟨ho, hn⟩ := h.stands
  rw [join_eq] at ho
  refine ⟨clients_conclude .., fun q name result => ?_, ?_⟩
  · cases o with
    | waiting startups => exact clients_conclude ..
    | resolved known => rfl
  · by_cases all : ∀ c ∈ r.clients, (answerOf answers c.target.name).isSome
    · rw [if_pos all] at ho
      cases hf : r.firstFailure answers with
      | none =>
        rw [hf] at ho
        have well := (firstFailure_eq_none all).mp hf
        subst ho hn
        exact ⟨⟨fun _ => well, fun _ => rfl⟩, ⟨fun _ => all, fun _ => ⟨_, rfl⟩⟩, nofun,
          fun _ => rfl⟩
      | some f =>
        rw [hf] at ho
        obtain ⟨c, hc, e, failed, rfl, earlier⟩ := firstFailure_eq_some hf
        subst ho hn
        refine ⟨⟨nofun, fun well => ?_⟩, ⟨fun _ => all, fun _ => ⟨_, rfl⟩⟩, ?_, fun none => ?_⟩
        · rw [well c hc] at failed
          cases failed
        · rintro _ ⟨⟩
          refine ⟨rfl, startupFailure_poolStartup _ _, c, hc, e, failed, rfl, fun d hd hlt => ?_⟩
          obtain ⟨e' | ⟨⟩, ha⟩ := Option.isSome_iff_exists.mp (all d hd)
          · exact absurd ha (earlier d hd hlt e')
          · exact ha
        · exact absurd rfl (none _)
    · rw [if_neg all] at ho
      subst ho hn
      refine ⟨⟨nofun, fun well => absurd (fun c hc => ?_) all⟩, ⟨?_, fun h => absurd h all⟩, nofun,
        fun _ => rfl⟩
      · rw [well c hc]
        rfl
      · rintro ⟨_, ⟨⟩⟩

end Joining

section AtOnce
variable {r : Runner}

theorem exists_connects (r : Runner) (answers : List ClientAnswer) :
    ∃ o notes, Connects r answers o notes := by
  induction answers using List.reverseRecOn with
  | nil => exact ⟨_, _, .starts⟩
  | append_singleton answers a ih =>
    obtain ⟨o, notes, h⟩ := ih
    exact ⟨_, _, @Connects.hears _ _ _ _ r _ _ h rfl⟩

theorem answerOf_clients {clients : List Client}
    (distinct : (clients.map (·.target.name)).Nodup) {c : Client} (hc : c ∈ clients) :
    answerOf (clients.map fun c => (c.target.name, startResult c)) c.target.name =
      some (startResult c) := by
  induction clients with
  | nil => cases hc
  | cons d rest ih =>
    obtain ⟨fresh, distinct⟩ := List.nodup_cons.mp distinct
    rcases List.mem_cons.mp hc with rfl | hc
    · simp [answerOf]
    · have ne : d.target.name ≠ c.target.name := by
        intro same
        have there : c.target.name ∈ rest.map (·.target.name) := List.mem_map_of_mem hc
        rw [← same] at there
        exact fresh there
      rw [← ih distinct hc, answerOf, answerOf, List.map_cons, List.find?_cons_of_neg (by simpa)]

/-- Where every client answers at once, the connections are opened in one go. -/
theorem openConnections_connects (distinct : (r.clients.map (·.target.name)).Nodup) : ∃ notes,
    Connects r (r.clients.map fun c => (c.target.name, startResult c))
      (.resolved r.openConnections.1) notes ∧
    r.openConnections.2 = { r with
      clients := r.clients.map fun c => { c with starts := c.starts + 1 }
      journal := r.journal ++ notes } := by
  obtain ⟨o, notes, h⟩ := exists_connects r (r.clients.map fun c => (c.target.name, startResult c))
  have all : ∀ c ∈ r.clients, (answerOf (r.clients.map fun c => (c.target.name, startResult c))
      c.target.name).isSome := fun c hc => by
    rw [answerOf_clients distinct hc]
    rfl
  obtain ⟨ho, hn⟩ := h.stands
  rw [join_eq, if_pos all] at ho
  have names : r.targets = (Dict.ofList (r.clients.map fun c => (c.target.name, c))).keys := by
    rw [← Dict.keys_map fun _ => Startup.pending, Dict.map_ofList, List.map_map]
    rfl
  have failures : ((Dict.ofList (r.clients.map fun c => (c.target.name, c))).entries.findSome?
      fun p => p.2.startFailure.map (startupFailure p.1)) =
        r.firstFailure (r.clients.map fun c => (c.target.name, startResult c)) := by
    rw [firstFailure, names, Dict.keys, List.findSome?_map, ← List.head?_filterMap,
      ← List.head?_filterMap]
    refine congrArg List.head? (List.filterMap_congr fun p hp => ?_)
    obtain ⟨c, hc, rfl⟩ := List.mem_map.mp (Dict.mem_entries_ofList hp)
    dsimp only [Function.comp]
    rw [startupOf, answerOf_clients distinct hc, Option.elim_some, startResult]
    cases c.startFailure <;> rfl
  refine ⟨notes, ?_⟩
  rw [hn, ho] at h
  rw [hn, ho, openConnections]
  dsimp only
  rw [failures]
  cases hf : r.firstFailure _ with
  | none =>
    rw [hf] at h
    exact ⟨h, by simp [Connecting.failure?]⟩
  | some f =>
    rw [hf] at h
    refine ⟨h, ?_⟩
    by_cases hl : r.listening = true <;> simp [Connecting.failure?, report, reportEntry, log, hl]

end AtOnce

section TwoTargets

def twoTargets : Runner :=
  (create "bench" 0 0 1 {} [] (["api", "auth"].map fun name =>
    ({ name := name, host := "localhost", portNumber := 80 },
      .ok { target := { name := name, host := "localhost", portNumber := 80 }, lines := [{}] }))
    ).toOption.get rfl

/-- One client fails after the other has got ready. -/
theorem failure_joined : ∃ o notes,
    Connects twoTargets [("auth", .ok ()), ("api", .error .timeout)] o notes ∧
      o = .resolved (.error (.poolStartup "api" "request timed out")) ∧
      notes = [.reported (.poolStartup "api" "request timed out")] := by
  obtain ⟨o, notes, h⟩ :=
    exists_connects twoTargets [("auth", .ok ()), ("api", .error .timeout)]
  have joined := (connections_joined h).2.2
  obtain ⟨result, rfl⟩ := joined.resolved.mpr (by decide)
  cases result with
  | ok => exact absurd (joined.ok.mp rfl) (by decide)
  | error f =>
    obtain ⟨told, _, c, hc, e, failed, rfl, _⟩ := joined.failure f rfl
    have names : ∀ c ∈ twoTargets.clients, c.target.name = "api" ∨ c.target.name = "auth" := by
      decide
    rcases names c hc with name | name
    · rw [name] at failed told h
      cases failed
      exact ⟨_, notes, h, rfl, told⟩
    · rw [name] at failed
      cases failed

/-- A failure is not heard of as long as another client has not answered, and every further call
starts the clients again. -/
theorem failure_waits : (∃ startups,
    Connects twoTargets [("api", .error .timeout)] (.waiting startups) []) ∧
    (twoTargets.openConnections.2.openConnections.2.clients.map fun c =>
      (c.target.name, c.starts)) = [("api", 2), ("auth", 2)] :=
  ⟨⟨_, @Connects.hears _ _ _ _ twoTargets.startConnecting.2 _ _ .starts rfl⟩, rfl⟩

end TwoTargets

end Runner
end LoadGen
