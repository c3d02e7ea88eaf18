/-
  Reports: what a diagnostic says to its reader, apart from how it is drawn.
-/
import Orchestra.Location

namespace Orchestra

/-- A message with an optional piece of advice, the places it is about, and whether the source
    text goes with it. -/
structure Report where
  message : String
  help : Option String := none
  labels : List Label := []
  hasSource : Bool := false
deriving DecidableEq, Repr

/-- A message about `span`, drawn against the source text if there is one. -/
def Report.located (message : String) (span : Span) (source : Option String) : Report where
  message
  labels := (source.map fun code => span.labels code).getD []
  hasSource := source.isSome

end Orchestra
