/-
  Reading a text from left to right.

  A reader moves a CURSOR over the characters of a text and gives a result or a flaw.  The
  cursor survives a flaw, because a list or an object still looks for its end when its content
  is flawed.  Blanks are the space, the line feed, the tab and the carriage return.
-/
import Orchestra.Interchange.Flaw

namespace Orchestra.Interchange

/-- The characters still to be read, and the number of bytes before them. -/
structure Cursor where
  rest : List Char
  offset : Nat := 0
deriving DecidableEq, Repr

/-- Past one character. -/
def Cursor.advance (c : Cursor) : Cursor :=
  match c.rest with
  | [] => c
  | x :: rest => ⟨rest, c.offset + x.utf8Size⟩

def isBlank (c : Char) : Bool := c = ' ' || c = '\n' || c = '\t' || c = '\r'

/-- The cursor past the blanks in front of `rest`. -/
def skipBlanksFrom (offset : Nat) : (rest : List Char) → Cursor
  | [] => ⟨[], offset⟩
  | c :: rest => if isBlank c then skipBlanksFrom (offset + 1) rest else ⟨c :: rest, offset⟩

/-- Past the blanks. -/
def Cursor.skipBlanks (c : Cursor) : Cursor := skipBlanksFrom c.offset c.rest

/-- A reader of something of type `α`. -/
abbrev Reader := EStateM Flaw Cursor

namespace Reader

variable {α : Type}

/-- A flaw noticed at the cursor. -/
def failHere (cause : Cause) : Reader α := do
  throw ⟨cause, some (← get).offset⟩

/-- A flaw noticed `n` bytes past the cursor. -/
def failPast (n : Nat) (cause : Cause) : Reader α := do
  throw ⟨cause, some ((← get).offset + n)⟩

/-- A flaw of the character to come; its place is behind the first byte of that character, or at
    the end if there is no more. -/
def failNext (cause : Cause) : Reader α := do
  failPast (if (← get).rest.isEmpty then 0 else 1) cause

/-- A flaw whose place is to be lent by what is around it. -/
def failNowhere (cause : Cause) : Reader α := throw ⟨cause, none⟩

/-- The character to come. -/
def peek : Reader (Option Char) := return (← get).rest.head?

/-- Moves past one character. -/
def skip : Reader Unit := modify Cursor.advance

/-- The first character to come that is no blank; the cursor stands before it. -/
def peekAfterBlanks : Reader (Option Char) := do
  modify Cursor.skipBlanks
  peek

/-- Runs `body`, then `close`, which looks for the closing bracket.  The bracket is looked for
    even if the body is flawed, and a flaw that has no place gets the one reached then. -/
def enclosed (close : Reader Unit) (body : Reader α) : Reader α := fun cursor =>
  match body cursor with
  | .ok a cursor =>
    match close cursor with
    | .ok _ cursor => .ok a cursor
    | .error flaw cursor => .error (flaw.locate cursor.offset) cursor
  | .error flaw cursor =>
    let cursor := match close cursor with
      | .ok _ cursor => cursor
      | .error _ cursor => cursor
    .error (flaw.locate cursor.offset) cursor

end Reader
end Orchestra.Interchange
