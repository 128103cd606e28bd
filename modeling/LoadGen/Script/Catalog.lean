import LoadGen.Script.Step

namespace LoadGen

abbrev StepMaker := Dict String → Except Failure Step

/-- Step makers by tag. -/
structure Catalog where
  makers : Dict StepMaker := .empty

namespace Catalog

def empty : Catalog := {}

/-- The maker replaces any other one of the same tag. -/
def register (c : Catalog) (tag : String) (make : StepMaker) : Catalog :=
  ⟨c.makers.insert tag make⟩

def builtIn : Catalog :=
  ((empty.register "log" Step.ofLog).register "set" Step.ofSet).register "pause" Step.ofPause

def build (c : Catalog) (tag : String) (params : Dict String) : Except Failure Step :=
  match c.makers.get? tag with
  | some make => make params
  | none => .error (.step ("unknown step '" ++ tag ++ "'"))

def tags (c : Catalog) : List String := c.makers.keys

end Catalog
end LoadGen
