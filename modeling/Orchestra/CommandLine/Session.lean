/-
  What a command does, apart from reading files and writing lines.

  A session is an engine that is ready to run a loaded program.  `execute` carries out a whole
  command against a function that says what a file holds.  Errors in the program cost an exit
  code of 1 (a crash of the compiler one of 101) and errors in the arguments one of 2; a token that
  fails costs nothing.
-/
import Orchestra.CommandLine.Arguments
import Orchestra.Engine.Turn
import Orchestra.Interchange.Load
import Orchestra.Library.Catalog

namespace Orchestra.CommandLine

open Interchange

/-- What a file holds. -/
abbrev Content := Except ReadFailure ByteArray

/-- Why there is no program to run, and the exit code that this costs. -/
structure Refusal where
  report : Report
  code : Nat := 1

/-- The compiled program in a file, and the world it runs in. -/
def build (file : String) (content : Content) : Except Refusal (Program × World) := do
  let (expr, _) ← (load file content).mapError fun e => { report := e.report none : Refusal }
  let (registry, world) := Catalog.standard.opening
  let program ← (expr.compile registry).mapError fun e => ⟨e.report, e.exitCode⟩
  return (program, world)

/-- The line that `check` writes about a program without errors. -/
def verdictLine (program : Program) : String :=
  "Program is well formed (" ++ toString program.code.nodes.size ++ " nodes)"

/-- An engine that is ready to run the program in a file. -/
def session (file : String) (content : Content) (maxTokens : Option UInt64) :
    Except Refusal (Engine World) := do
  let (program, world) ← build file content
  return (Engine.new program (maxTokens.map UInt64.toNat) world).start

/-! ## Whole commands -/

/-- What a command leads to. -/
structure Outcome where
  code : Nat
  /-- The lines of the output. -/
  output : List String := []
  /-- The counters, if they were asked for. -/
  stats : Option Stats := none
  /-- The lines about errors. -/
  complaints : List String := []

def Outcome.ofRefusal (r : Refusal) : Outcome := { code := r.code, complaints := [r.report.message] }

def Outcome.ofStop : Stop → Outcome
  | .version => { code := 0, output := [versionText] }
  | .help topic => { code := 0, output := helpText topic }
  | .usage e => { code := 2, complaints := [e.message] }

/-- What is said about an event of a run that writes no output. -/
def complaintOf? : Event → Option String
  | .fail f => some f.message
  | _ => none

/-- Checks the program in a file. -/
def executeCheck (file : String) (content : Content) : Outcome :=
  match build file content with
  | .error refusal => .ofRefusal refusal
  | .ok (program, _) => { code := 0, output := [verdictLine program] }

/-- Runs the program in a file, with as many turns as are allowed. -/
def executeRun (allowed : Nat) (file : String) (content : Content) (maxTokens : Option UInt64)
    (stats : Bool) : Outcome :=
  match session file content maxTokens with
  | .error refusal => .ofRefusal refusal
  | .ok engine =>
    match engine.run World.host allowed with
    | .error fault => { code := 1, complaints := [fault.message] }
    | .ok (_, engine) =>
      let events := engine.world.events.toList
      { code := 0
        output := events.filterMap Event.output?
        stats := if stats then some engine.stats else none
        complaints := events.filterMap complaintOf? }

/-- Carries out what the arguments ask for. -/
def execute (allowed : Nat) (read : String → Content) (args : List String) : Outcome :=
  match readArguments args with
  | .error stop => .ofStop stop
  | .ok (.check file) => executeCheck file (read file)
  | .ok (.run file maxTokens stats) => executeRun allowed file (read file) maxTokens stats

end Orchestra.CommandLine
