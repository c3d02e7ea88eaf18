/-
  Events: what can be seen of a run from outside, in the order in which it happened.
-/
import Orchestra.Engine.Host

namespace Orchestra

/-- The three things that a cohort is told. -/
inductive Stage where
  | ready
  | confirm
  | rollback
deriving DecidableEq, Repr

/-- Something that can be seen from outside. -/
inductive Event where
  | publish (p : Publication)
  /-- A line written by the program. -/
  | print (line : String)
  | fail (f : Failure)
  /-- A cohort, named by the site that enlists it, was told something about a transaction at a
      depth of nesting. -/
  | cohort (stage : Stage) (site : String) (depth : Nat)

/-- What an event writes to the output. -/
def Event.output? : Event → Option String
  | .publish p => some p.value.text
  | .print line => some line
  | .fail _ | .cohort .. => none

end Orchestra
