/-
  Counters of a run.
-/

namespace Orchestra

/-- What a run has done so far. -/
structure Stats where
  /-- Nodes executed. -/
  steps : Nat := 0
  forks : Nat := 0
  /-- Calls to closures. -/
  calls : Nat := 0
  /-- Calls to closures that needed no return frame. -/
  tailCalls : Nat := 0
  siteCalls : Nat := 0
  publications : Nat := 0
  /-- Pruning cells bound. -/
  bindings : Nat := 0
  failures : Nat := 0
  commits : Nat := 0
  aborts : Nat := 0
  /-- Ticks of the virtual clocks. -/
  ticks : Nat := 0
  /-- The most tokens that were ever live at once. -/
  peakTokens : Nat := 0
deriving DecidableEq, Repr

/-- A length of time in whole microseconds as seconds. -/
def secondsOfMicros (micros : Nat) : Float :=
  (micros / 1000000).toUInt64.toFloat
    + (micros % 1000000 * 1000).toUInt64.toFloat / 1000000000.0

/-- Steps per second, rounded down; none in no time, and at most what a 64-bit word holds. -/
def stepsPerSecond (steps micros : Nat) : Nat :=
  if micros = 0 then 0
  else (steps.toUInt64.toFloat / secondsOfMicros micros).toUInt64.toNat

namespace Stats

/-- The counters, one to a line. -/
def counterLines (s : Stats) : List String :=
  [ "Steps: " ++ toString s.steps,
    "Forks: " ++ toString s.forks,
    "Calls: " ++ toString s.calls ++ " (" ++ toString s.tailCalls ++ " tail)",
    "Site Calls: " ++ toString s.siteCalls,
    "Publications: " ++ toString s.publications,
    "Pruning Bindings: " ++ toString s.bindings,
    "Failures: " ++ toString s.failures,
    "Commits: " ++ toString s.commits,
    "Aborts: " ++ toString s.aborts,
    "Virtual Ticks: " ++ toString s.ticks,
    "Peak Tokens: " ++ toString s.peakTokens ]

/-- The time the run took, given in microseconds, and its speed. -/
def timeLines (s : Stats) (micros : Nat) : List String :=
  [ "Time (ms): " ++ toString (micros / 1000),
    "Steps per second: " ++ toString (stepsPerSecond s.steps micros) ]

/-- All lines as a text, each indented by a tab. -/
def text (s : Stats) (micros : Nat) : String :=
  String.join ((s.counterLines ++ s.timeLines micros).map fun line => "\t" ++ line ++ "\n")

end Stats
end Orchestra
