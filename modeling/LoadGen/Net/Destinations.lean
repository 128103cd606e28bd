import LoadGen.Net.Connection

namespace LoadGen

/-- Where the sessions of one event loop send their requests. -/
structure Destinations where
  lines : Dict Lines := .empty
  default? : Option String := none
  deriving Repr

namespace Destinations

/-- The lines to the named target, or to the default one when no name is given. -/
def get? (d : Destinations) (name : Option String) : Option Lines :=
  (name.or d.default?).bind d.lines.get?

def list (d : Destinations) : List String := d.lines.entries.map fun (n, l) => l.describe n

def debugForm (d : Destinations) : String :=
  Text.recordForm "DestinationTable"
    [("pools", Text.listForm (d.lines.keys.map Text.quote)),
     ("default", Text.optionForm (d.default?.map Text.quote))]

end Destinations
end LoadGen
