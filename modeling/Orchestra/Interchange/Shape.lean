/-
  Lists, objects and alternatives.

  An ALTERNATIVE is written as its name alone, if it has no content, or as an object with one
  field whose key is the name.  A STRUCTURE is an object, or a list of its fields in order.
  Every bracket that is opened takes one level of nesting from the `depth` that is left, and the
  last level cannot be opened.  Fields that a structure does not know are passed over, whatever
  they hold and however deep it is nested.
-/
import Orchestra.Interchange.Scalar

namespace Orchestra.Interchange.Reader

variable {α σ : Type}

/-! ## Passing over values -/

/-- An open bracket. -/
inductive Bracket where
  | list
  | object
deriving DecidableEq

def Bracket.closing : Bracket → Char
  | .list => ']'
  | .object => '\x7d'

/-- Moves past the key and the colon of a field. -/
def skipKey : Reader Unit := do
  match ← peekAfterBlanks with
  | none => failNext .endInObject
  | some c =>
    if c = '"' then
      skip
      skipString
      match ← peekAfterBlanks with
      | none => failNext .endInObject
      | some c => if c = ':' then skip else failNext .expectedColon
    else failNext .keyNotString

/-- Moves past a value that is no list and no object; says which bracket was opened instead. -/
def skipScalar : Reader (Option Bracket) := do
  match ← peekAfterBlanks with
  | none => failNext .endInValue
  | some c =>
    if c = 'n' then skip; wordRest ['u', 'l', 'l']; return none
    else if c = 't' then skip; wordRest ['r', 'u', 'e']; return none
    else if c = 'f' then skip; wordRest ['a', 'l', 's', 'e']; return none
    else if c = '-' then skip; skipNumber; return none
    else if c.isDigit then skipNumber; return none
    else if c = '"' then skip; skipString; return none
    else if c = '[' then skip; return some .list
    else if c = '\x7b' then skip; return some .object
    else failNext .expectedValue

/-- What is passed over next: a value, or the rest of the innermost open bracket, behind a value
    or just behind the bracket. -/
inductive Stage where
  | value
  | behindValue
  | behindBracket
deriving DecidableEq

/-- Moves past a value inside the given open brackets.  Every round but one in two moves past a
    character. -/
def skipRounds : (fuel : Nat) → Stage → List Bracket → Reader Unit
  | 0, _, _ => return
  | fuel + 1, .value, open' => do
    match ← skipScalar with
    | some b => skipRounds fuel .behindBracket (b :: open')
    | none => skipRounds fuel .behindValue open'
  | _ + 1, _, [] => return
  | fuel + 1, stage, b :: open' => do
    match ← peekAfterBlanks with
    | none => failNext (match b with | .list => .endInList | .object => .endInObject)
    | some c =>
      if c = b.closing then
        skip
        skipRounds fuel .behindValue open'
      else if c = ',' && stage = .behindValue then
        skip
        if b = .object then skipKey
        skipRounds fuel .value (b :: open')
      else if stage = .behindBracket then
        if b = .object then skipKey
        skipRounds fuel .value (b :: open')
      else failNext (match b with | .list => .expectedListEnd | .object => .expectedObjectEnd)

/-- Moves past a value. -/
def skipValue : Reader Unit := do
  skipRounds (2 * (← get).rest.length + 2) .value []

/-! ## Lists -/

/-- Opens a bracket, which takes a level of nesting. -/
def openBracket (depth : Nat) : Reader Unit :=
  if depth ≤ 1 then failNext .nestedTooDeep else skip

/-- The end of a list. -/
def closeList : Reader Unit := do
  match ← peekAfterBlanks with
  | none => failNext .endInList
  | some c =>
    if c = ']' then skip
    else if c = ',' then
      skip
      match ← peekAfterBlanks with
      | some ']' => failNext .trailingComma
      | _ => failNext .trailingCharacters
    else failNext .trailingCharacters

/-- Whether another element of a list is to come; the cursor then stands before it. -/
def hasElement (first : Bool) : Reader Bool := do
  match ← peekAfterBlanks with
  | none => failNext .endInList
  | some c =>
    if c = ']' then return false
    else if first then return true
    else if c = ',' then
      skip
      match ← peekAfterBlanks with
      | none => failNext .endInValue
      | some c => if c = ']' then failNext .trailingComma else return true
    else failNext .expectedListEnd

/-- The elements of a list, at most `fuel` of them. -/
def elements (element : Reader α) : (fuel : Nat) → (first : Bool) → Reader (List α)
  | 0, _ => return []
  | fuel + 1, first => do
    if ← hasElement first then
      let a ← element
      return a :: (← elements element fuel false)
    else return []

/-- A list. -/
def list (depth : Nat) (element : Reader α) : Reader (List α) := do
  match ← peekAfterBlanks with
  | none => failNext .endInValue
  | some c =>
    if c = '[' then
      openBracket depth
      enclosed closeList do elements element ((← get).rest.length + 1) true
    else wrongType "a sequence"

/-- The element at a place of a list that stands for a structure; `short` if it is missing. -/
def elementOr (index : Nat) (short : Reader α) (element : Reader α) : Reader α := do
  if ← hasElement (index = 0) then element else short

/-- The element at a place of a list that stands for something with a fixed number of parts. -/
def elementAt (index : Nat) (wanted : String) (element : Reader α) : Reader α :=
  elementOr index (failNowhere (.wrongLength index wanted)) element

/-! ## Objects -/

/-- The end of an object. -/
def closeObject : Reader Unit := do
  match ← peekAfterBlanks with
  | none => failNext .endInObject
  | some c =>
    if c = '\x7d' then skip
    else if c = ',' then failNext .trailingComma
    else failNext .trailingCharacters

/-- Whether another field of an object is to come; the cursor then stands before its key. -/
def hasField (first : Bool) : Reader Bool := do
  match ← peekAfterBlanks with
  | none => failNext .endInObject
  | some c =>
    if c = '\x7d' then return false
    else if first then
      if c = '"' then return true else failNext .keyNotString
    else if c = ',' then
      skip
      match ← peekAfterBlanks with
      | none => failNext .endInValue
      | some c =>
        if c = '"' then return true
        else if c = '\x7d' then failNext .trailingComma
        else failNext .keyNotString
    else failNext .expectedObjectEnd

/-- The colon behind a key. -/
def colon : Reader Unit := do
  match ← peekAfterBlanks with
  | none => failNext .endInObject
  | some c => if c = ':' then skip else failNext .expectedColon

/-- The fields of an object, at most `fuel` of them.  `field` is given what has been gathered so
    far and a key, and reads from the colon on. -/
def fields (field : σ → String → Reader σ) : (fuel : Nat) → (first : Bool) → σ → Reader σ
  | 0, _, s => return s
  | fuel + 1, first, s => do
    if ← hasField first then
      skip
      let key ← stringBody
      fields field fuel false (← field s key)
    else return s

/-- The fields of an object whose bracket is open. -/
def allFields (field : σ → String → Reader σ) (start : σ) : Reader σ := do
  fields field ((← get).rest.length + 1) true start

/-- The value of a field that may be given once. -/
def once (name : String) (old : Option α) (value : Reader α) : Reader (Option α) := do
  if old.isSome then failNowhere (.duplicateField name)
  else
    colon
    return some (← value)

/-- A field that the structure does not know. -/
def unknown (s : σ) : Reader σ := do
  colon
  skipValue
  return s

/-- The value of a field that must be given. -/
def required (name : String) : Option α → Reader α
  | some a => return a
  | none => failNowhere (.missingField name)

/-- A structure: a list of its fields, or an object. -/
def structure' (depth : Nat) (wanted : String) (ofList ofObject : Reader α) : Reader α := do
  match ← peekAfterBlanks with
  | none => failNext .endInValue
  | some c =>
    if c = '[' then
      openBracket depth
      enclosed closeList ofList
    else if c = '\x7b' then
      openBracket depth
      enclosed closeObject ofObject
    else wrongType wanted

/-! ## Alternatives -/

/-- The name of an alternative, from behind its opening quote. -/
def variantName (names : List String) : Reader String := do
  let name ← stringBody
  if names.contains name then return name else failHere (.unknownVariant name names)

/-- The name of an alternative that has content, as the key of an object. -/
def variantKey (names : List String) : Reader String := do
  match ← peekAfterBlanks with
  | none => failNext .endInObject
  | some c =>
    if c = '"' then
      skip
      variantName names
    else if c = '\x7d' then failNext .expectedValue
    else failNext .keyNotString

/-- An alternative: its name `alone`, or an object with its name and its `content`. -/
def variant (depth : Nat) (names : List String) (alone content : String → Reader α) :
    Reader α := do
  match ← peekAfterBlanks with
  | none => failNext .endInValue
  | some c =>
    if c = '"' then
      skip
      alone (← variantName names)
    else if c = '\x7b' then
      openBracket depth
      let name ← variantKey names
      colon
      let a ← content name
      match ← peekAfterBlanks with
      | none => failHere .endInObject
      | some c => if c = '\x7d' then skip; return a else failHere .expectedValue
    else failNext .expectedValue

/-- The flaw of a name alone for an alternative that has content of the given sort. -/
def needsContent (sort : String) : Reader α := failNowhere (.wrongType .unitVariant sort)

/-! ## Whole texts -/

/-- The end of the text. -/
def endOfText : Reader Unit := do
  match ← peekAfterBlanks with
  | none => return
  | some _ => failNext .trailingCharacters

/-- Reads all of a text. -/
def readAll (reader : Reader α) (source : String) : Except Flaw α :=
  match (do let a ← reader; endOfText; return a : Reader α) { rest := source.toList } with
  | .ok a _ => .ok a
  | .error flaw _ => .error flaw

end Orchestra.Interchange.Reader
