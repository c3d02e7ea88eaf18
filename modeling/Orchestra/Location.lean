/-
  Source locations.

  The front end attaches a SPAN to the calls of a program.  A token remembers the span of the
  last call it entered, so a failure is reported where the call was written even if it shows
  later.  Offsets count bytes; offsets, rows and columns are 32-bit words and start at zero.
-/

namespace Orchestra

/-- A place in a source text. -/
structure Point where
  offset : UInt32
  row : UInt32
  column : UInt32
deriving DecidableEq, Repr

/-- A stretch of a source file, or no known location. -/
inductive Span where
  | none
  | at (start stop : Point) (file : String)
deriving DecidableEq, Repr

instance : Inhabited Span := ⟨.none⟩

/-- An underlined stretch of a source text: where it starts and how many bytes it covers. -/
structure Label where
  offset : Nat
  length : Nat
deriving DecidableEq, Repr

namespace Span

/-- The span that starts and stops at `p`. -/
def ofPoint (p : Point) (file : String) : Span := .at p p file

/-- The two ends of a known span. -/
def points : Span → Option (Point × Point)
  | .none => Option.none
  | .at start stop _ => some (start, stop)

/-- People count rows and columns from one. -/
def text : Span → String
  | .none => "<unknown location>"
  | .at start _ file =>
    file ++ ":" ++ toString (start.row + 1).toNat ++ ":" ++ toString (start.column + 1).toNat

/-- The label of a span in `code`.  There is none for a span that does not stop inside it. -/
def labels (code : String) : Span → List Label
  | .none => []
  | .at start stop _ =>
    if stop.offset.toNat ≤ code.utf8ByteSize then
      [{ offset := start.offset.toNat, length := stop.offset.toNat - start.offset.toNat }]
    else []

end Span

/-! ## Lines and columns

  A text is cut after every line feed; only the last line may lack one. -/

/-- The lengths in bytes of the lines of a text, line feeds included. -/
def lineLengths : List Char → List Nat
  | [] => []
  | c :: rest =>
    if c = '\n' then 1 :: lineLengths rest
    else
      match lineLengths rest with
      | [] => [c.utf8Size]
      | n :: ns => (c.utf8Size + n) :: ns

/-- The point at a line and column counted from one; a zero counts as one.  A column past the
    end of the text is taken back to the end. -/
def Point.ofLineColumn (source : String) (line column : Nat) : Point :=
  let lineStart := ((lineLengths source.toList).take (line - 1)).foldl (· + ·) 0
  { offset := (min (lineStart + (column - 1)) source.utf8ByteSize).toUInt32
    row := (line - 1).toUInt32
    column := (column - 1).toUInt32 }

end Orchestra
