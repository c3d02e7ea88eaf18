/-
  Reading the configuration of an engine.

  A configuration is a structure with one optional field, the ceiling on live tokens; fields
  that it does not know are refused.
-/
import Orchestra.Interchange.Program

namespace Orchestra

/-- The configuration of an engine. -/
structure Config where
  /-- At most this many tokens may be live at once. -/
  maxTokens : Option UInt64 := none
deriving DecidableEq, Repr

namespace Interchange

namespace Reader

/-- A number, or `null` for none. -/
def optionalCount : Reader (Option UInt64) := do
  match ← peekAfterBlanks with
  | some 'n' => null; return none
  | _ => return some (← uint64)

def config (depth : Nat) : Reader Config :=
  structure' depth "struct EngineConfig"
    (do return { maxTokens := ← elementOr 0 (pure none) optionalCount })
    (do
      let maxTokens ← allFields (fun (d : Option (Option UInt64)) key =>
        if key = "max_tokens" then once key d optionalCount
        else failNowhere (.unknownField key ["max_tokens"])) none
      return { maxTokens := maxTokens.getD none })

end Reader

/-- The configuration written in a text, or what is wrong with it. -/
def parseConfig (source : String) : Except String Config :=
  match Reader.readAll (Reader.config nesting) source with
  | .ok c => .ok c
  | .error flaw => .error (flaw.message source)

end Interchange
end Orchestra
