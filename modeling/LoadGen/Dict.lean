namespace LoadGen

/-- A map from strings: its pairs, by increasing key. -/
structure Dict (α : Type) where
  entries : List (String × α)
  deriving Repr, DecidableEq, Inhabited

namespace Dict
variable {α β : Type}

def empty : Dict α := ⟨[]⟩

instance : EmptyCollection (Dict α) := ⟨empty⟩

def find (key : String) : List (String × α) → Option α
  | [] => none
  | (k, a) :: rest => if key = k then some a else find key rest

def put (key : String) (a : α) : List (String × α) → List (String × α)
  | [] => [(key, a)]
  | (k, b) :: rest =>
    if key < k then (key, a) :: (k, b) :: rest
    else if key = k then (key, a) :: rest
    else (k, b) :: put key a rest

def get? (d : Dict α) (key : String) : Option α := find key d.entries

def insert (d : Dict α) (key : String) (a : α) : Dict α := ⟨put key a d.entries⟩

def erase (d : Dict α) (key : String) : Dict α := ⟨d.entries.filter (·.1 != key)⟩

def contains (d : Dict α) (key : String) : Bool := (d.get? key).isSome

def keys (d : Dict α) : List String := d.entries.map (·.1)

def values (d : Dict α) : List α := d.entries.map (·.2)

def isEmpty (d : Dict α) : Bool := d.entries.isEmpty

def size (d : Dict α) : Nat := d.entries.length

/-- Replaces the value under `key`, if there is one. -/
def modify (d : Dict α) (key : String) (f : α → α) : Dict α :=
  ⟨d.entries.map fun (k, a) => if k = key then (k, f a) else (k, a)⟩

def map (f : α → β) (d : Dict α) : Dict β := ⟨d.entries.map fun (k, a) => (k, f a)⟩

/-- Later pairs replace earlier ones of the same key. -/
def ofList (pairs : List (String × α)) : Dict α :=
  pairs.foldl (fun d (k, a) => d.insert k a) empty

@[simp] theorem get?_empty (key : String) : (empty : Dict α).get? key = none := rfl

theorem find_put_self (key : String) (a : α) (l : List (String × α)) :
    find key (put key a l) = some a := by
  induction l with
  | nil => simp [put, find]
  | cons p rest ih =>
    obtain ⟨k, b⟩ := p
    simp only [put]
    split
    · simp [find]
    · split
      · simp [find]
      · rename_i hne
        simp [find, hne, ih]

theorem find_put_of_ne {key other : String} (h : other ≠ key) (a : α) (l : List (String × α)) :
    find other (put key a l) = find other l := by
  induction l with
  | nil => simp [put, find, h]
  | cons p rest ih =>
    obtain ⟨k, b⟩ := p
    simp only [put]
    split
    · simp [find, h]
    · split
      · rename_i he
        subst he
        simp [find, h]
      · simp [find, ih]

@[simp] theorem get?_insert_self (d : Dict α) (key : String) (a : α) :
    (d.insert key a).get? key = some a := find_put_self key a d.entries

theorem get?_insert_of_ne {key other : String} (h : other ≠ key) (d : Dict α) (a : α) :
    (d.insert key a).get? other = d.get? other := find_put_of_ne h a d.entries

theorem keys_modify (d : Dict α) (key : String) (f : α → α) : (d.modify key f).keys = d.keys := by
  simp only [keys, modify, List.map_map]
  apply List.map_congr_left
  intro p _
  simp only [Function.comp]
  split <;> rfl

theorem keys_map (f : α → β) (d : Dict α) : (d.map f).keys = d.keys := by
  simp only [keys, map, List.map_map]
  rfl

theorem get?_modify (d : Dict α) (key other : String) (f : α → α) :
    (d.modify key f).get? other = if other = key then (d.get? other).map f else d.get? other := by
  obtain ⟨l⟩ := d
  simp only [get?, modify]
  induction l with
  | nil => simp [find]
  | cons p rest ih =>
    obtain ⟨k, a⟩ := p
    by_cases hk : k = key <;> by_cases ho : other = k <;> simp_all [find]

@[simp] theorem get?_modify_self (d : Dict α) (key : String) (f : α → α) :
    (d.modify key f).get? key = (d.get? key).map f := by
  rw [get?_modify, if_pos rfl]

theorem get?_modify_of_ne {key other : String} (h : other ≠ key) (d : Dict α) (f : α → α) :
    (d.modify key f).get? other = d.get? other := by
  rw [get?_modify, if_neg h]

/-- A value after a change is the changed one, or has been there before. -/
theorem eq_of_get?_modify {d : Dict α} {key other : String} {f : α → α} {b : α}
    (h : (d.modify key f).get? other = some b) :
    (other = key ∧ ∃ a, d.get? key = some a ∧ f a = b) ∨ (other ≠ key ∧ d.get? other = some b) := by
  rw [get?_modify] at h
  split at h
  · rename_i he
    subst he
    exact .inl ⟨rfl, Option.map_eq_some_iff.mp h⟩
  · rename_i ne
    exact .inr ⟨ne, h⟩

/-- What a change leaves alone in one value it leaves alone in all of them. -/
theorem map_get?_modify {g : α → β} {f : α → α} {d : Dict α} {key : String}
    (h : ∀ a, d.get? key = some a → g (f a) = g a) (other : String) :
    ((d.modify key f).get? other).map g = (d.get? other).map g := by
  rw [get?_modify]
  split
  · rename_i he
    subst he
    cases ha : d.get? other with
    | none => rfl
    | some a => simp [h a ha]
  · rfl

@[simp] theorem get?_map (f : α → β) (d : Dict α) (key : String) :
    (d.map f).get? key = (d.get? key).map f := by
  obtain ⟨l⟩ := d
  simp only [get?, map]
  induction l with
  | nil => rfl
  | cons p rest ih =>
    obtain ⟨k, a⟩ := p
    by_cases hk : key = k <;> simp_all [find]

theorem mem_entries_of_get? {d : Dict α} {key : String} {a : α} (h : d.get? key = some a) :
    (key, a) ∈ d.entries := by
  obtain ⟨l⟩ := d
  simp only [get?] at h ⊢
  induction l with
  | nil => cases h
  | cons p rest ih =>
    obtain ⟨k, b⟩ := p
    simp only [find] at h
    split at h
    · rename_i he
      cases h
      subst he
      exact List.mem_cons_self
    · exact List.mem_cons_of_mem _ (ih h)

theorem get?_of_mem_entries {d : Dict α} (hd : d.keys.Nodup) {key : String} {a : α}
    (h : (key, a) ∈ d.entries) : d.get? key = some a := by
  obtain ⟨l⟩ := d
  simp only [get?, keys] at h hd ⊢
  induction l with
  | nil => cases h
  | cons p rest ih =>
    obtain ⟨k, b⟩ := p
    simp only [List.map_cons, List.nodup_cons] at hd
    simp only [find]
    rcases List.mem_cons.mp h with he | ht
    · cases he
      simp
    · split
      · rename_i he
        subst he
        exact absurd (List.mem_map.mpr ⟨_, ht, rfl⟩) hd.1
      · exact ih hd.2 ht

theorem keys_insert_perm {d : Dict α} {key : String} (h : d.get? key = none) (a : α) :
    (d.insert key a).keys.Perm (key :: d.keys) := by
  obtain ⟨l⟩ := d
  simp only [get?, keys, insert] at h ⊢
  induction l with
  | nil => exact .refl _
  | cons p rest ih =>
    obtain ⟨k, b⟩ := p
    simp only [find] at h
    split at h
    · cases h
    · rename_i hne
      simp only [put, if_neg hne]
      split
      · exact .refl _
      · exact ((ih h).cons k).trans (.swap key k _)

theorem mem_entries_insert {d : Dict α} {key : String} {a : α} {p : String × α}
    (h : p ∈ (d.insert key a).entries) : p = (key, a) ∨ p ∈ d.entries := by
  obtain ⟨l⟩ := d
  simp only [insert] at h
  induction l with
  | nil => exact .inl (List.mem_singleton.mp h)
  | cons q rest ih =>
    obtain ⟨k, b⟩ := q
    simp only [put] at h
    split at h
    · exact List.mem_cons.mp h
    · split at h
      · exact (List.mem_cons.mp h).imp_right (List.mem_cons_of_mem _)
      · rcases List.mem_cons.mp h with rfl | h
        · exact .inr List.mem_cons_self
        · exact (ih h).imp_right (List.mem_cons_of_mem _)

theorem mem_entries_insert_of_mem {d : Dict α} {key : String} {p : String × α} (hne : p.1 ≠ key)
    (a : α) (h : p ∈ d.entries) : p ∈ (d.insert key a).entries := by
  obtain ⟨l⟩ := d
  simp only [insert] at h ⊢
  induction l with
  | nil => cases h
  | cons q rest ih =>
    obtain ⟨k, b⟩ := q
    simp only [put]
    split
    · exact List.mem_cons_of_mem _ h
    · split
      · rename_i he
        rcases List.mem_cons.mp h with rfl | h
        · exact absurd he.symm hne
        · exact List.mem_cons_of_mem _ h
      · rcases List.mem_cons.mp h with rfl | h
        · exact List.mem_cons_self
        · exact List.mem_cons_of_mem _ (ih h)

theorem mem_keys_of_get? {d : Dict α} {key : String} {a : α} (h : d.get? key = some a) :
    key ∈ d.keys := List.mem_map_of_mem (mem_entries_of_get? h)

theorem get?_isSome_of_mem_keys {d : Dict α} {key : String} (h : key ∈ d.keys) :
    (d.get? key).isSome := by
  obtain ⟨l⟩ := d
  simp only [get?, keys] at h ⊢
  induction l with
  | nil => cases h
  | cons p rest ih =>
    obtain ⟨k, b⟩ := p
    simp only [List.map_cons, List.mem_cons] at h
    simp only [find]
    split
    · rfl
    · rename_i hne
      exact ih (h.resolve_left hne)

theorem keys_insert_nodup {d : Dict α} (hd : d.keys.Nodup) {key : String} (h : d.get? key = none)
    (a : α) : (d.insert key a).keys.Nodup := by
  rw [(keys_insert_perm h a).nodup_iff]
  refine List.nodup_cons.mpr ⟨fun hm => ?_, hd⟩
  have hs := get?_isSome_of_mem_keys hm
  rw [h] at hs
  cases hs

end Dict
end LoadGen
