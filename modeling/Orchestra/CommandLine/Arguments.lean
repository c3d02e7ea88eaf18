/-
  The arguments of the command line.

  Arguments are read from left to right, and the first one that is wrong, or that asks for help
  or for the version, decides.  The switch for more log messages may stand before or after the
  command and be repeated; every other option at most once.  After `--` everything is a file
  name.
-/

namespace Orchestra.CommandLine

/-- What the program is asked to do. -/
inductive Command where
  | run (file : String) (maxTokens : Option UInt64) (stats : Bool)
  | check (file : String)
deriving DecidableEq, Repr

/-- The name of a command. -/
inductive Verb where
  | run
  | check
deriving DecidableEq, Repr

/-- What help is about; also the place where an argument stands, which decides what it may be. -/
inductive Topic where
  | program
  | command (verb : Verb)
  /-- The command that prints help. -/
  | help
deriving DecidableEq, Repr

/-- What is wrong with the arguments. -/
inductive UsageError where
  | missingCommand
  | unknownCommand (name : String)
  | unknownArgument (text : String)
  | repeated (option : String)
  | missingValue (option : String)
  | unexpectedValue (option : String)
  | badNumber (option text : String)
  | missingFile
  | emptyFile
deriving DecidableEq, Repr

def UsageError.message : UsageError → String
  | .missingCommand => "a subcommand is required: run or check"
  | .unknownCommand name => "unrecognized subcommand '" ++ name ++ "'"
  | .unknownArgument text => "unexpected argument '" ++ text ++ "' found"
  | .repeated option => "the argument '" ++ option ++ "' cannot be used multiple times"
  | .missingValue option => "a value is required for '" ++ option ++ "' but none was supplied"
  | .unexpectedValue option => "the argument '" ++ option ++ "' takes no value"
  | .badNumber option text => "invalid value '" ++ text ++ "' for '" ++ option ++ "'"
  | .missingFile => "the argument <file> was not provided"
  | .emptyFile => "a value is required for <file> but none was supplied"

/-- Why reading the arguments stops before a command is found. -/
inductive Stop where
  | usage (e : UsageError)
  | version
  | help (topic : Topic)
deriving DecidableEq, Repr

/-- What the arguments of a command have said so far. -/
structure Settings where
  file : Option String := none
  maxTokens : Option UInt64 := none
  stats : Bool := false
deriving DecidableEq, Repr

/-! ## Pieces -/

/-- A count: decimal digits, with or without a plus sign, that fit into a 64-bit word. -/
def readCount (text : String) : Option UInt64 :=
  let digits := match text.toList with
    | '+' :: ds => ds
    | ds => ds
  if digits ≠ [] ∧ digits.all Char.isDigit then
    let n := digits.foldl (fun n d => 10 * n + (d.toNat - '0'.toNat)) 0
    if n < UInt64.size then some n.toUInt64 else none
  else none

/-- Whether an argument reads as an option rather than as a value. -/
def looksLikeOption (arg : String) : Bool :=
  match arg.toList with
  | '-' :: _ :: _ => true
  | _ => false

/-- One-letter switches written together.  The version is for all commands, so it is asked for
    before any. -/
def readSwitches (topic : Topic) (arg : String) : List Char → Except Stop Unit
  | [] => .ok ()
  | 'v' :: cs => readSwitches topic arg cs
  | 'h' :: _ => .error (.help topic)
  | 'V' :: cs =>
    if topic = .program then .error .version
    else .error (.usage (.unknownArgument (String.ofList ('-' :: 'V' :: cs))))
  | _ => .error (.usage (.unknownArgument arg))

/-- A long switch that every place knows.  It takes no value. -/
def readLongSwitch (topic : Topic) (arg : String) : Except Stop Unit :=
  let name := String.ofList (arg.toList.takeWhile (· ≠ '='))
  let known := name = "--verbose" ∨ name = "--help" ∨ (name = "--version" ∧ topic = .program)
  if known ∧ name ≠ arg then .error (.usage (.unexpectedValue name))
  else if name = "--verbose" then .ok ()
  else if name = "--help" then .error (.help topic)
  else if known then .error .version
  else .error (.usage (.unknownArgument arg))

/-- Any switch that every place knows. -/
def readSwitch (topic : Topic) (arg : String) : Except Stop Unit :=
  match arg.toList with
  | '-' :: '-' :: _ => readLongSwitch topic arg
  | '-' :: cs => readSwitches topic arg cs
  | _ => .error (.usage (.unknownArgument arg))

/-! ## The arguments of a command -/

/-- Takes a file name; there is place for one. -/
def Settings.setFile (s : Settings) (arg : String) : Except Stop Settings :=
  if s.file.isSome then .error (.usage (.unknownArgument arg))
  else if arg = "" then .error (.usage .emptyFile)
  else .ok { s with file := some arg }

/-- Takes the ceiling on live tokens. -/
def Settings.setMaxTokens (s : Settings) (text : String) : Except Stop Settings :=
  if s.maxTokens.isSome then .error (.usage (.repeated "--max-tokens"))
  else
    match readCount text with
    | some n => .ok { s with maxTokens := some n }
    | none => .error (.usage (.badNumber "--max-tokens" text))

def Settings.setStats (s : Settings) : Except Stop Settings :=
  if s.stats then .error (.usage (.repeated "--stats")) else .ok { s with stats := true }

/-- The value that is written into the same argument as the ceiling, after an equals sign. -/
def attachedCount (arg : String) : Option String :=
  let option := "--max-tokens=".toList
  if option.isPrefixOf arg.toList then some (String.ofList (arg.toList.drop option.length))
  else none

/-- Reads what follows the name of a command. -/
def readSettings (verb : Verb) (s : Settings) : List String → Except Stop Settings
  | [] => .ok s
  | arg :: rest =>
    if arg = "--" then rest.foldlM Settings.setFile s
    else if ¬ looksLikeOption arg then do readSettings verb (← s.setFile arg) rest
    else if verb = .run ∧ arg = "--stats" then do readSettings verb (← s.setStats) rest
    else if verb = .run ∧ arg.toList.takeWhile (· ≠ '=') = "--stats".toList then
      .error (.usage (.unexpectedValue "--stats"))
    else if verb = .run ∧ arg = "--max-tokens" then
      match rest with
      | [] => .error (.usage (.missingValue arg))
      | text :: rest =>
        if looksLikeOption text then .error (.usage (.missingValue arg))
        else do readSettings verb (← s.setMaxTokens text) rest
    else
      match (if verb = .run then attachedCount arg else none) with
      | some text => do readSettings verb (← s.setMaxTokens text) rest
      | none => do
        readSwitch (.command verb) arg
        readSettings verb s rest

/-- The command that the settings make. -/
def Settings.command (s : Settings) (verb : Verb) : Except Stop Command :=
  match s.file, verb with
  | none, _ => .error (.usage .missingFile)
  | some file, .run => .ok (.run file s.maxTokens s.stats)
  | some file, .check => .ok (.check file)

/-! ## All arguments -/

/-- The command with a name. -/
def Verb.ofName? : String → Option Verb
  | "run" => some .run
  | "check" => some .check
  | _ => none

/-- The topic with a name. -/
def Topic.ofName? (name : String) : Option Topic :=
  if name = "help" then some .help else (Verb.ofName? name).map .command

/-- The help that is asked for by words.  A path of names leads from the program to the topic, and
    below a command there is nothing. -/
def helpOn : List String → Stop
  | [] => .help .program
  | name :: below =>
    match Topic.ofName? name, below with
    | none, _ => .usage (.unknownCommand name)
    | some topic, [] => .help topic
    | some _, name :: _ => .usage (.unknownCommand name)

/-- The command that the arguments ask for. -/
def readArguments : List String → Except Stop Command
  | [] => .error (.usage .missingCommand)
  | arg :: rest =>
    match Verb.ofName? arg with
    | some verb => do (← readSettings verb {} rest).command verb
    | none =>
      if arg = "help" then .error (helpOn rest)
      else if arg = "--" then .error (.usage .missingCommand)
      else if looksLikeOption arg then do
        readSwitch .program arg
        readArguments rest
      else .error (.usage (.unknownCommand arg))

/-! ## Examples -/

example : (readArguments ["-v", "run", "p", "-vv", "--max-tokens=2"]).toOption
    = some (.run "p" (some 2) false) := by decide +kernel

example : (readArguments ["check", "--", "--stats"]).toOption = some (.check "--stats") := by
  decide +kernel

example : (readArguments ["run", "p", "--max-tokens", "-1"]).toOption = none := by decide +kernel

/-! ## Texts -/

def versionText : String := "orc 0.1.0"

def helpText : Topic → List String
  | .program =>
    [ "Usage: orc [OPTIONS] <COMMAND>",
      "",
      "Commands:",
      "  run    Run a compiled Orc program",
      "  check  Load and compile a program without running it",
      "  help   Print this message or the help of the given subcommand(s)",
      "",
      "Options:",
      "  -v, --verbose...  Log more; repeat for more detail",
      "  -h, --help        Print help",
      "  -V, --version     Print version" ]
  | .command .run =>
    [ "Run a compiled Orc program",
      "",
      "Usage: orc run [OPTIONS] <file>",
      "",
      "Arguments:",
      "  <file>  The program, as JSON",
      "",
      "Options:",
      "      --max-tokens <N>  Fail forks beyond this many live tokens",
      "  -v, --verbose...      Log more; repeat for more detail",
      "      --stats           Print execution statistics",
      "  -h, --help            Print help" ]
  | .command .check =>
    [ "Load and compile a program without running it",
      "",
      "Usage: orc check [OPTIONS] <file>",
      "",
      "Arguments:",
      "  <file>  The program, as JSON",
      "",
      "Options:",
      "  -v, --verbose...  Log more; repeat for more detail",
      "  -h, --help        Print help" ]
  | .help =>
    [ "Print this message or the help of the given subcommand(s)",
      "",
      "Usage: orc help [COMMAND]...",
      "",
      "Arguments:",
      "  [COMMAND]...  Print help for the subcommand(s)" ]

end Orchestra.CommandLine
