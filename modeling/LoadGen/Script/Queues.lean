import LoadGen.Dict
import LoadGen.Script.Value

namespace LoadGen

/-- Queues by key; one that was never pushed to is empty. -/
structure Queues where
  lists : Dict (List Value) := .empty
  deriving DecidableEq, Repr

namespace Queues

def list (q : Queues) (key : String) : List Value := (q.lists.get? key).getD []

def push (q : Queues) (key : String) (v : Value) : Queues :=
  ⟨q.lists.insert key (q.list key ++ [v])⟩

def pull (q : Queues) (key : String) : Option Value × Queues :=
  match q.list key with
  | [] => (none, q)
  | v :: rest => (some v, ⟨q.lists.insert key rest⟩)

def length (q : Queues) (key : String) : Nat := (q.list key).length

end Queues
end LoadGen
