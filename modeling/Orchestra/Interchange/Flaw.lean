/-
  Flaws of a program text.

  Reading stops at the first FLAW: what is wrong, and the byte offset at which it was noticed.
  A few flaws are noticed only after the fact, when the reader no longer stands at the cause;
  such a flaw has no offset of its own, and the innermost list or object around it lends it the
  place behind its closing bracket.
-/
import Orchestra.Text.Quoted
import Orchestra.Text.Shortest

namespace Orchestra.Interchange

/-- What was found in place of something else. -/
inductive Found where
  | null
  | bool (b : Bool)
  | integer (n : Int)
  | float (x : Float)
  | string (s : String)
  | sequence
  | map
  /-- A name alone, for an alternative that has content. -/
  | unitVariant

/-- Numbers in messages are positional from `0.00001` up to sixteen digits; beyond, the exponent has
    a sign and as many digits as it needs. -/
def floatFormat : Text.FloatFormat := ⟨-5, 15⟩

example : floatFormat.text 0.00001 = "0.00001" ∧ floatFormat.text 0.000001 = "1e-6" := by
  decide +kernel

-- halfway between two decimals of seventeen digits
example : floatFormat.text 1505111213909819.75 = "1505111213909819.8" := by decide +kernel

example : floatFormat.text 1505111213909819.25 = "1505111213909819.2" := by decide +kernel

def Found.text : Found → String
  | .null => "null"
  | .bool b => "boolean `" ++ (if b then "true" else "false") ++ "`"
  | .integer n => "integer `" ++ toString n ++ "`"
  | .float x => "floating point `" ++ floatFormat.text x ++ "`"
  | .string s => "string " ++ Text.quoted s
  | .sequence => "sequence"
  | .map => "map"
  | .unitVariant => "unit variant"

/-- What is wrong with a text. -/
inductive Cause where
  | endInValue
  | endInString
  | endInList
  | endInObject
  | expectedValue
  | expectedColon
  | expectedListEnd
  | expectedObjectEnd
  | trailingComma
  | trailingCharacters
  | keyNotString
  | expectedIdent
  | invalidNumber
  | numberOutOfRange
  | controlCharacter
  | invalidEscape
  | incompleteSurrogate
  | loneSurrogate
  | nestedTooDeep
  | wrongType (found : Found) (wanted : String)
  | wrongValue (found : Found) (wanted : String)
  | wrongLength (found : Nat) (wanted : String)
  | unknownVariant (name : String) (choices : List String)
  | unknownField (name : String) (choices : List String)
  | duplicateField (name : String)
  | missingField (name : String)

/-- The names to choose from, as messages list them. -/
def choicesText : List String → String
  | [a] => "`" ++ a ++ "`"
  | [a, b] => "`" ++ a ++ "` or `" ++ b ++ "`"
  | names => "one of " ++ ", ".intercalate (names.map fun n => "`" ++ n ++ "`")

def Cause.message : Cause → String
  | .endInValue => "EOF while parsing a value"
  | .endInString => "EOF while parsing a string"
  | .endInList => "EOF while parsing a list"
  | .endInObject => "EOF while parsing an object"
  | .expectedValue => "expected value"
  | .expectedColon => "expected `:`"
  | .expectedListEnd => "expected `,` or `]`"
  | .expectedObjectEnd => "expected `,` or `\x7d`"
  | .trailingComma => "trailing comma"
  | .trailingCharacters => "trailing characters"
  | .keyNotString => "key must be a string"
  | .expectedIdent => "expected ident"
  | .invalidNumber => "invalid number"
  | .numberOutOfRange => "number out of range"
  | .controlCharacter => "control character (\\u0000-\\u001F) found while parsing a string"
  | .invalidEscape => "invalid escape"
  | .incompleteSurrogate => "unexpected end of hex escape"
  | .loneSurrogate => "lone leading surrogate in hex escape"
  | .nestedTooDeep => "recursion limit exceeded"
  | .wrongType found wanted => "invalid type: " ++ found.text ++ ", expected " ++ wanted
  | .wrongValue found wanted => "invalid value: " ++ found.text ++ ", expected " ++ wanted
  | .wrongLength found wanted =>
    "invalid length " ++ toString found ++ ", expected " ++ wanted
  | .unknownVariant name choices =>
    "unknown variant `" ++ name ++ "`, expected " ++ choicesText choices
  | .unknownField name choices =>
    "unknown field `" ++ name ++ "`, expected " ++ choicesText choices
  | .duplicateField name => "duplicate field `" ++ name ++ "`"
  | .missingField name => "missing field `" ++ name ++ "`"

/-- What is wrong and, if it is known, at which byte offset it was noticed. -/
structure Flaw where
  cause : Cause
  offset : Option Nat

/-- A flaw keeps its own place if it has one. -/
def Flaw.locate (f : Flaw) (offset : Nat) : Flaw :=
  { f with offset := some (f.offset.getD offset) }

/-! ## Lines and columns -/

/-- The line of a byte offset, counted from one, and the number of bytes before the offset on
    that line.  `at'` is the offset of the first character, `line` and `start` are the line
    reached and the offset at which it starts. -/
def lineColumnFrom (offset : Nat) : List Char → (at' line start : Nat) → Nat × Nat
  | [], _, line, start => (line, offset - start)
  | c :: rest, at', line, start =>
    if offset ≤ at' then (line, offset - start)
    else if c = '\n' then lineColumnFrom offset rest (at' + 1) (line + 1) (at' + 1)
    else lineColumnFrom offset rest (at' + c.utf8Size) line start

/-- The line and column of a byte offset in a text. -/
def lineColumn (source : String) (offset : Nat) : Nat × Nat :=
  lineColumnFrom offset source.toList 0 1 0

/-- The line and column of a flaw; zeros if it has no place. -/
def Flaw.lineColumn (f : Flaw) (source : String) : Nat × Nat :=
  match f.offset with
  | some offset => Interchange.lineColumn source offset
  | none => (0, 0)

/-- What is wrong, with the line and column if they are known. -/
def Flaw.message (f : Flaw) (source : String) : String :=
  match f.offset with
  | some offset =>
    let (line, column) := Interchange.lineColumn source offset
    f.cause.message ++ " at line " ++ toString line ++ " column " ++ toString column
  | none => f.cause.message

end Orchestra.Interchange
