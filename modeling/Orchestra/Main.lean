/-
  The command line program.

  Reads the file, shows the events of a run as they happen, and waits in real time whenever the
  world has moved its own time forward.
-/
import Orchestra.CommandLine.Session

namespace Orchestra.CommandLine

open Interchange

/-- What the file system says about a file. -/
def readFile (file : String) : IO Content := do
  try
    return .ok (← IO.FS.readBinFile file)
  catch
    | .noFileOrDirectory .. => return .error .missing
    | .inappropriateType .. => return .error .directory
    | e => return .error (.other (toString e))

/-- Shows an event. -/
def showEvent (event : Event) : IO Unit := do
  if let some line := event.output? then IO.println line
  if let some line := complaintOf? event then IO.eprintln line

/-- Shows what has happened since `seen` events, and waits until the time of the world. -/
def catchUp (started seen : Nat) (world : World) : IO Unit := do
  let passed := (← IO.monoMsNow) - started
  if passed < world.schedule.now then
    IO.sleep (world.schedule.now - passed).toUInt32
  for event in world.events.toList.drop seen do showEvent event

/-- Takes turns until the run ends. -/
partial def drive (started : Nat) (engine : Engine World) : IO (Except Fault (Engine World)) := do
  let seen := engine.world.events.size
  match engine.turn World.host with
  | .error fault => return .error fault
  | .ok (.ended _ engine) => return .ok engine
  | .ok (.next engine) =>
    if seen < engine.world.events.size ∨ 0 < engine.world.schedule.now then
      catchUp started seen engine.world
    drive started engine

/-- Shows the outcome of a command that needs no run. -/
def showOutcome (outcome : Outcome) : IO UInt32 := do
  for line in outcome.output do IO.println line
  for line in outcome.complaints do IO.eprintln line
  return outcome.code.toUInt32

/-- Runs the program in a file. -/
def runFile (file : String) (maxTokens : Option UInt64) (stats : Bool) : IO UInt32 := do
  match session file (← readFile file) maxTokens with
  | .error refusal => showOutcome (.ofRefusal refusal)
  | .ok engine =>
    let before ← IO.monoNanosNow
    match ← drive (← IO.monoMsNow) engine with
    | .error fault => showOutcome { code := 1, complaints := ["Internal error: " ++ fault.message] }
    | .ok engine =>
      let micros := ((← IO.monoNanosNow) - before) / 1000
      if stats then IO.eprintln ("Statistics:\n" ++ engine.stats.text micros)
      return 0

end Orchestra.CommandLine

open Orchestra.CommandLine in
/-- Carries out what the arguments ask for. -/
def main (args : List String) : IO UInt32 := do
  match readArguments args with
  | .error stop => showOutcome (.ofStop stop)
  | .ok (.check file) => showOutcome (executeCheck file (← readFile file))
  | .ok (.run file maxTokens stats) => runFile file maxTokens stats
