import LoadGen.Text.Quoted

namespace LoadGen

/-- A pool. The things handed out are not listed; they are those made and not free. -/
structure Pool (α : Type) where
  max : Nat
  /-- The things that wait to be handed out, the next one first. -/
  free : List α := []
  created : Nat := 0
  minUsed : Nat := 0
  maxUsed : Nat := 0
  /-- How often nothing was left. -/
  depletions : Nat := 0
  deriving Repr

namespace Pool
variable {α : Type}

def used (p : Pool α) : Nat := p.created - p.free.length

/-- Takes a thing out, made by `make` from its number if none is free. -/
def acquire (p : Pool α) (make : Nat → α) : Option α × Pool α :=
  match p.free with
  | a :: rest =>
    let q := { p with free := rest }
    (some a, { q with maxUsed := Nat.max q.maxUsed q.used })
  | [] =>
    if p.created < p.max then
      let q := { p with created := p.created + 1 }
      (some (make p.created), { q with maxUsed := Nat.max q.maxUsed q.used })
    else (none, { p with depletions := p.depletions + 1 })

def release (p : Pool α) (a : α) : Pool α :=
  let q := { p with free := a :: p.free }
  { q with minUsed := Nat.min q.minUsed q.used }

/-- What comes of asking a pool for a thing. -/
inductive Acquired (make : Nat → α) (p : Pool α) : Option α → Pool α → Prop
  | again {a : α} {rest : List α} (free : p.free = a :: rest) :
      Acquired make p (some a) { p with
        free := rest, maxUsed := Nat.max p.maxUsed { p with free := rest }.used }
  | anew (free : p.free = []) (room : p.created < p.max) :
      Acquired make p (some (make p.created)) { p with
        created := p.created + 1
        maxUsed := Nat.max p.maxUsed { p with created := p.created + 1 }.used }
  | never (free : p.free = []) (full : p.max ≤ p.created) :
      Acquired make p none { p with depletions := p.depletions + 1 }

section Acquired
variable {p q : Pool α} {make : Nat → α} {o : Option α} {a : α}

theorem acquired (h : p.acquire make = (o, q)) : Acquired make p o q := by
  unfold acquire at h
  split at h
  · rename_i free
    cases h
    exact .again free
  · rename_i free
    split at h
    · rename_i room
      cases h
      exact .anew free room
    · rename_i full
      cases h
      exact .never free (Nat.le_of_not_lt full)

namespace Acquired

theorem depletions (h : Acquired make p (some a) q) : q.depletions = p.depletions := by
  cases h <;> rfl

theorem minUsed (h : Acquired make p (some a) q) : q.minUsed = p.minUsed := by cases h <;> rfl

theorem maxUsed (h : Acquired make p (some a) q) : q.maxUsed = Nat.max p.maxUsed q.used := by
  cases h <;> rfl

end Acquired

theorem acquire_none (h : (p.acquire make).1 = none) :
    (p.acquire make).2 = { p with depletions := p.depletions + 1 } := by
  cases asked : p.acquire make with
  | mk o q =>
    cases acquired asked with
    | again | anew => simp [asked] at h
    | never => rfl

theorem acquire_some (h : (p.acquire make).1 = some a) :
    (p.free = a :: (p.acquire make).2.free ∧ (p.acquire make).2.created = p.created) ∨
      (p.free = [] ∧ (p.acquire make).2.free = [] ∧ a = make p.created ∧
        (p.acquire make).2.created = p.created + 1) := by
  cases asked : p.acquire make with
  | mk o q =>
    rw [asked] at h
    cases acquired asked with
    | again free => cases h; exact .inl ⟨free, rfl⟩
    | anew free => cases h; exact .inr ⟨free, free, rfl, rfl⟩
    | never => cases h

theorem acquire_bound (h : p.created ≤ p.max) :
    (p.acquire make).2.max = p.max ∧ (p.acquire make).2.created ≤ p.max := by
  cases asked : p.acquire make with
  | mk o q =>
    cases acquired asked with
    | again | never => exact ⟨rfl, h⟩
    | anew _ room => exact ⟨rfl, room⟩

end Acquired

/-- Watches the lowest and the highest use from now on. -/
def resetMarks (p : Pool α) : Pool α := { p with minUsed := p.used, maxUsed := p.used }

def debugForm (p : Pool α) : String :=
  Text.recordForm "ElasticPool"
    [("used", toString p.used), ("capacity", toString p.created), ("max", toString p.max),
     ("min_used", toString p.minUsed), ("max_used", toString p.maxUsed)]

end Pool
end LoadGen
