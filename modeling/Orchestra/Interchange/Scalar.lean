/-
  Strings, numbers and words.

  Strings are read from behind their opening quote.  The escapes are those of JSON; a character
  outside the basic plane is escaped as two surrogates, the high one first.

  A number is an integer if it has neither a point nor an exponent and fits into 64 bits, signed
  or unsigned; everything else, and minus zero, is a floating-point number.  Such a number only
  ever appears in messages.
-/
import Orchestra.Interchange.Cursor

namespace Orchestra.Interchange

/-! ## Strings -/

/-- The value of a hexadecimal digit. -/
def hexDigit? (c : Char) : Option Nat :=
  if '0' ≤ c && c ≤ '9' then some (c.toNat - '0'.toNat)
  else if 'a' ≤ c && c ≤ 'f' then some (c.toNat - 'a'.toNat + 10)
  else if 'A' ≤ c && c ≤ 'F' then some (c.toNat - 'A'.toNat + 10)
  else none

/-- The value of four hexadecimal digits. -/
def hexDigits? (a b c d : Char) : Option Nat := do
  return (((← hexDigit? a) * 16 + (← hexDigit? b)) * 16 + (← hexDigit? c)) * 16 + (← hexDigit? d)

def isHighSurrogate (n : Nat) : Bool := 0xd800 ≤ n && n ≤ 0xdbff

def isLowSurrogate (n : Nat) : Bool := 0xdc00 ≤ n && n ≤ 0xdfff

/-- The character that a high and a low surrogate stand for. -/
def pairedChar (high low : Nat) : Char :=
  Char.ofNat ((high - 0xd800) * 0x400 + (low - 0xdc00) + 0x10000)

/-- The character of a two-character escape. -/
def escapedChar? (c : Char) : Option Char :=
  if c = '"' then some '"'
  else if c = '\\' then some '\\'
  else if c = '/' then some '/'
  else if c = 'b' then some '\x08'
  else if c = 'f' then some '\x0c'
  else if c = 'n' then some '\n'
  else if c = 'r' then some '\r'
  else if c = 't' then some '\t'
  else none

/-- The number of bytes of some characters. -/
def byteLength (cs : List Char) : Nat := cs.foldl (fun n c => n + c.utf8Size) 0

/-- The flaw of an escape with fewer than four characters behind the `u`. -/
def shortHexFlaw (offset : Nat) (rest : List Char) : Flaw :=
  if byteLength rest < 4 then ⟨.endInString, some (offset + byteLength rest)⟩
  else ⟨.invalidEscape, some (offset + 4)⟩

/-- The flaw of a high surrogate that is not followed by an escape with four characters. -/
def unpairedFlaw (offset : Nat) : List Char → Flaw
  | [] => ⟨.endInString, some offset⟩
  | ['\\'] => ⟨.endInString, some (offset + 1)⟩
  | '\\' :: 'u' :: rest => shortHexFlaw (offset + 2) rest
  | '\\' :: _ => ⟨.incompleteSurrogate, some (offset + 2)⟩
  | _ => ⟨.incompleteSurrogate, some (offset + 1)⟩

/-- Reads up to the closing quote; `acc` holds what has been read, in reverse. -/
def readString (offset : Nat) (acc : List Char) : List Char → Except Flaw (String × Cursor)
  | [] => .error ⟨.endInString, some offset⟩
  | '"' :: rest => .ok (String.ofList acc.reverse, ⟨rest, offset + 1⟩)
  | '\\' :: 'u' :: a :: b :: c :: d :: rest =>
    match hexDigits? a b c d with
    | none => .error ⟨.invalidEscape, some (offset + 6)⟩
    | some n =>
      if isLowSurrogate n then .error ⟨.loneSurrogate, some (offset + 6)⟩
      else if isHighSurrogate n then
        match rest with
        | '\\' :: 'u' :: a :: b :: c :: d :: rest =>
          match hexDigits? a b c d with
          | none => .error ⟨.invalidEscape, some (offset + 12)⟩
          | some m =>
            if isLowSurrogate m then readString (offset + 12) (pairedChar n m :: acc) rest
            else .error ⟨.loneSurrogate, some (offset + 12)⟩
        | rest => .error (unpairedFlaw (offset + 6) rest)
      else readString (offset + 6) (Char.ofNat n :: acc) rest
  | '\\' :: 'u' :: rest => .error (shortHexFlaw (offset + 2) rest)
  | ['\\'] => .error ⟨.endInString, some (offset + 1)⟩
  | '\\' :: c :: rest =>
    match escapedChar? c with
    | some x => readString (offset + 2) (x :: acc) rest
    | none => .error ⟨.invalidEscape, some (offset + 2)⟩
  | c :: rest =>
    if c.toNat < 0x20 then .error ⟨.controlCharacter, some (offset + 1)⟩
    else readString (offset + c.utf8Size) (c :: acc) rest

/-- Moves past the closing quote without caring for surrogates.  A control character is met but not
    taken, so its flaw lies in front of it, where `readString` has it behind. -/
def passString (offset : Nat) : List Char → Except Flaw Cursor
  | [] => .error ⟨.endInString, some offset⟩
  | '"' :: rest => .ok ⟨rest, offset + 1⟩
  | '\\' :: 'u' :: a :: b :: c :: d :: rest =>
    match hexDigits? a b c d with
    | none => .error ⟨.invalidEscape, some (offset + 6)⟩
    | some _ => passString (offset + 6) rest
  | '\\' :: 'u' :: rest => .error (shortHexFlaw (offset + 2) rest)
  | ['\\'] => .error ⟨.endInString, some (offset + 1)⟩
  | '\\' :: c :: rest =>
    match escapedChar? c with
    | some _ => passString (offset + 2) rest
    | none => .error ⟨.invalidEscape, some (offset + 2)⟩
  | c :: rest =>
    if c.toNat < 0x20 then .error ⟨.controlCharacter, some offset⟩
    else passString (offset + c.utf8Size) rest

namespace Reader

/-- A string, from behind its opening quote. -/
def stringBody : Reader String := do
  let cursor ← get
  match readString cursor.offset [] cursor.rest with
  | .ok (s, cursor) => set cursor; return s
  | .error flaw => throw flaw

/-- Moves past a string, from behind its opening quote. -/
def skipString : Reader Unit := do
  let cursor ← get
  match passString cursor.offset cursor.rest with
  | .ok cursor => set cursor
  | .error flaw => throw flaw

/-! ## Words -/

/-- The rest of a word whose first letter has been read. -/
def wordRest : List Char → Reader Unit
  | [] => return
  | x :: xs => do
    match ← peek with
    | none => failHere .endInValue
    | some c =>
      if c = x then
        skip
        wordRest xs
      else failPast 1 .expectedIdent

end Reader

/-! ## Numbers -/

/-- A number as it is written. -/
inductive Number where
  | natural (n : Nat)
  | negative (n : Int)
  | float (x : Float)

def Number.found : Number → Found
  | .natural n => .integer n
  | .negative n => .integer n
  | .float x => .float x

/-- The value of some decimal digits, continuing from `acc`. -/
def digitsValue (acc : Nat) (ds : List Char) : Nat :=
  ds.foldl (fun n d => n * 10 + (d.toNat - '0'.toNat)) acc

/-- The longest part of some digits whose value, continuing from `acc`, fits into 64 bits: that
    value, and the digits left over. -/
def fittingDigits (acc : Nat) : List Char → Nat × List Char
  | [] => (acc, [])
  | d :: ds =>
    let n := acc * 10 + (d.toNat - '0'.toNat)
    if n < UInt64.size then fittingDigits n ds else (acc, d :: ds)

/-- How many of some digits, from the front, it takes until their value, continuing from `acc`,
    exceeds 31 bits. -/
def digitsToOverflow (acc : Nat) : List Char → Nat
  | [] => 0
  | d :: ds =>
    let n := acc * 10 + (d.toNat - '0'.toNat)
    if n < 0x80000000 then digitsToOverflow n ds + 1 else 1

/-- The largest power of ten below the range of floating-point numbers has exponent 308. -/
def maxTenExponent : Nat := 308

/-- `f · 10^e` by one multiplication or by divisions, each by at most `10^308`; nothing if the
    result is too large. -/
def scaleByTen (f : Float) (e : Int) : (fuel : Nat) → Option Float
  | 0 => some 0.0
  | fuel + 1 =>
    if e.natAbs ≤ maxTenExponent then
      let power := Float.ofScientific 1 false e.natAbs
      if 0 ≤ e then
        let x := f * power
        if x.isInf then none else some x
      else some (f / power)
    else if f == 0.0 then some f
    else if 0 ≤ e then none
    else scaleByTen (f / 1e308) (e + 308) fuel

namespace Reader

/-- The digits to come; the cursor moves past them. -/
def digits : Reader (List Char) := do
  let cursor ← get
  let ds := cursor.rest.takeWhile Char.isDigit
  set ({ rest := cursor.rest.dropWhile Char.isDigit, offset := cursor.offset + ds.length } : Cursor)
  return ds

/-- The floating-point number `± significand · 10^e`. -/
def floatOf (positive : Bool) (significand : Nat) (e : Int) : Reader Number := do
  -- after two divisions by 10^308 nothing is left of a significand of 64 bits
  match scaleByTen significand.toUInt64.toFloat e 4 with
  | some x => return .float (if positive then x else -x)
  | none => failHere .numberOutOfRange

/-- The exponent of a number, from its letter on. -/
def exponent (positive : Bool) (significand : Nat) (e : Int) : Reader Number := do
  skip
  let up ← match ← peek with
    | some '+' => skip; pure true
    | some '-' => skip; pure false
    | _ => pure true
  match ← peek with
  | none => failHere .endInValue
  | some c =>
    if !c.isDigit then failPast 1 .invalidNumber
    else
      let cursor ← get
      let ds ← digits
      if digitsValue 0 ds < 0x80000000 then
        floatOf positive significand (if up then e + digitsValue 0 ds else e - digitsValue 0 ds)
      else if significand ≠ 0 && up then
        -- noticed at the first digit that is too many
        set cursor
        failPast (digitsToOverflow 0 ds) .numberOutOfRange
      else return .float (if positive then 0.0 else -0.0)

/-- The decimals of a number, from its point on. -/
def decimals (positive : Bool) (significand : Nat) (e : Int) : Reader Number := do
  skip
  let ds ← digits
  if ds.isEmpty then
    match ← peek with
    | some _ => failNext .invalidNumber
    | none => failNext .endInValue
  else
    let (significand, ignored) := fittingDigits significand ds
    let e := e - (ds.length - ignored.length : Nat)
    match ← peek with
    | some 'e' | some 'E' => exponent positive significand e
    | _ => floatOf positive significand e

/-- A number from its first digit on; the sign has been read. -/
def number (positive : Bool) : Reader Number := do
  match ← peek with
  | none => failHere .endInValue
  | some c =>
    if !c.isDigit then failPast 1 .invalidNumber
    else
      let leadingZero := c = '0'
      if leadingZero then
        skip
        if (← peek).any Char.isDigit then failNext .invalidNumber
      let (significand, ignored) := fittingDigits 0 (← if leadingZero then pure [] else digits)
      match ← peek with
      | some '.' => decimals positive significand ignored.length
      | some 'e' | some 'E' => exponent positive significand ignored.length
      | _ =>
        if !ignored.isEmpty then floatOf positive significand ignored.length
        else if positive then return .natural significand
        else if significand = 0 || 0x8000000000000000 < significand then
          return .float (-significand.toUInt64.toFloat)
        else return .negative (-(significand : Int))

/-- Moves past an exponent, from its letter on. -/
def skipExponent : Reader Unit := do
  skip
  match ← peek with
  | some '+' | some '-' => skip
  | _ => pure ()
  match ← peek with
  | none => failHere .invalidNumber
  | some c => if c.isDigit then let _ ← digits else failPast 1 .invalidNumber

/-- Moves past a number from its first digit on, without finding its value. -/
def skipNumber : Reader Unit := do
  match ← peek with
  | none => failHere .invalidNumber
  | some c =>
    if !c.isDigit then failPast 1 .invalidNumber
    else
      if c = '0' then
        skip
        if (← peek).any Char.isDigit then failNext .invalidNumber
      else
        let _ ← digits
      match ← peek with
      | some '.' =>
        skip
        if (← digits).isEmpty then failNext .invalidNumber
        match ← peek with
        | some 'e' | some 'E' => skipExponent
        | _ => return
      | some 'e' | some 'E' => skipExponent
      | _ => return

/-! ## The wrong type -/

/-- Reads what is there instead of what was `wanted` and says so.  Of a list or an object only
    the opening bracket is looked at. -/
def wrongType {α : Type} (wanted : String) : Reader α := do
  match ← peek with
  | none => failNext .expectedValue
  | some c =>
    if c = 'n' then
      skip
      wordRest ['u', 'l', 'l']
      failHere (.wrongType .null wanted)
    else if c = 't' then
      skip
      wordRest ['r', 'u', 'e']
      failHere (.wrongType (.bool true) wanted)
    else if c = 'f' then
      skip
      wordRest ['a', 'l', 's', 'e']
      failHere (.wrongType (.bool false) wanted)
    else if c = '-' then
      skip
      let n ← number false
      failHere (.wrongType n.found wanted)
    else if c.isDigit then
      let n ← number true
      failHere (.wrongType n.found wanted)
    else if c = '"' then
      skip
      let s ← stringBody
      failHere (.wrongType (.string s) wanted)
    else if c = '[' then failHere (.wrongType .sequence wanted)
    else if c = '\x7b' then failHere (.wrongType .map wanted)
    else failNext .expectedValue

/-! ## Scalars of a type -/

/-- A string. -/
def string : Reader String := do
  match ← peekAfterBlanks with
  | none => failNext .endInValue
  | some c =>
    if c = '"' then
      skip
      stringBody
    else wrongType "a string"

/-- A truth value. -/
def boolean : Reader Bool := do
  match ← peekAfterBlanks with
  | none => failNext .endInValue
  | some c =>
    if c = 't' then
      skip
      wordRest ['r', 'u', 'e']
      return true
    else if c = 'f' then
      skip
      wordRest ['a', 'l', 's', 'e']
      return false
    else wrongType "a boolean"

/-- The word `null`, where nothing else may stand. -/
def null : Reader Unit := do
  match ← peekAfterBlanks with
  | none => failNext .endInValue
  | some c =>
    if c = 'n' then
      skip
      wordRest ['u', 'l', 'l']
    else wrongType "unit"

/-- An integer that has been read, if it is from `low` to `high`. -/
def inRange (wanted : String) (low high n : Int) : Reader Int :=
  if low ≤ n ∧ n ≤ high then return n else failHere (.wrongValue (.integer n) wanted)

/-- An integer from `low` to `high`, called `wanted` in messages. -/
def integer (wanted : String) (low high : Int) : Reader Int := do
  match ← peekAfterBlanks with
  | none => failNext .endInValue
  | some c =>
    if c = '-' || c.isDigit then
      let n ← if c = '-' then do skip; number false else number true
      match n with
      | .float _ => failHere (.wrongType n.found wanted)
      | .natural m => inRange wanted low high m
      | .negative m => inRange wanted low high m
    else wrongType wanted

/-- A signed 64-bit integer. -/
def int64 : Reader Int64 :=
  return Int64.ofInt (← integer "i64" (-0x8000000000000000) 0x7fffffffffffffff)

/-- An unsigned 64-bit integer. -/
def uint64 : Reader UInt64 := return (← integer "usize" 0 0xffffffffffffffff).toNat.toUInt64

/-- An unsigned 32-bit integer. -/
def uint32 : Reader UInt32 := return (← integer "u32" 0 0xffffffff).toNat.toUInt32

end Reader
end Orchestra.Interchange
