/-
  Printing programs.

  The printed form is compact and complete: fields stand in the order of their declaration, a
  call always has its arguments and its span, and a string escapes only what it has to.
-/
import Orchestra.Expr
import Orchestra.Text.Quoted

namespace Orchestra.Interchange

/-- A lower-case hexadecimal number with four digits. -/
def fourHex (n : Nat) : String :=
  let s := Text.hexadecimal n
  String.ofList (List.replicate (4 - s.length) '0') ++ s

/-- How a character is written in a string. -/
def printChar (c : Char) : String :=
  if c = '"' then "\\\""
  else if c = '\\' then "\\\\"
  else if c = '\x08' then "\\b"
  else if c = '\x0c' then "\\f"
  else if c = '\n' then "\\n"
  else if c = '\r' then "\\r"
  else if c = '\t' then "\\t"
  else if c.toNat < 0x20 then "\\u" ++ fourHex c.toNat
  else c.toString

def printString (s : String) : String :=
  "\"" ++ String.join (s.toList.map printChar) ++ "\""

/-- Values in square brackets. -/
def printList (items : List String) : String := "[" ++ ",".intercalate items ++ "]"

/-- Keys and values in braces. -/
def printObject (fields : List (String × String)) : String :=
  "\x7b" ++ ",".intercalate (fields.map fun f => printString f.1 ++ ":" ++ f.2) ++ "\x7d"

/-- An alternative with content. -/
def printVariant (name content : String) : String := printObject [(name, content)]

def printLiteral : Literal → String
  | .signal => printString "signal"
  | .bool b => printVariant "bool" (if b then "true" else "false")
  | .int n => printVariant "int" (toString n.toInt)
  | .string s => printVariant "string" (printString s)

def printArgument : Argument → String
  | .literal l => printVariant "literal" (printLiteral l)
  | .variable i => printVariant "variable" (toString i.toNat)
  | .site name => printVariant "site" (printString name)

def printPoint (p : Point) : String :=
  printObject
    [("offset", toString p.offset.toNat), ("row", toString p.row.toNat),
      ("column", toString p.column.toNat)]

def printSpan : Span → String
  | .none => printString "none"
  | .at start stop file =>
    printVariant "at" <| printObject
      [("start", printPoint start), ("end", printPoint stop), ("file", printString file)]

mutual

/-- The text of an expression. -/
def print : Expr → String
  | .stop => printString "stop"
  | .value a => printVariant "value" (printArgument a)
  | .call target args span =>
    printVariant "call" <| printObject
      [("target", printArgument target), ("args", printList (args.map printArgument)),
        ("span", printSpan span)]
  | .field target name =>
    printVariant "field" <| printObject
      [("target", printArgument target), ("field", printString name)]
  | .parallel left right => printVariant "parallel" (printList [print left, print right])
  | .sequential left right => printVariant "sequential" (printList [print left, print right])
  | .pruning left right =>
    printVariant "pruning" (printObject [("left", print left), ("right", print right)])
  | .otherwise left right => printVariant "otherwise" (printList [print left, print right])
  | .declare defs body =>
    printVariant "declare" <| printObject
      [("defs", printList (printDefinitions defs)), ("body", print body)]
  | .atomic body => printVariant "atomic" (print body)

def printDefinition : Definition → String
  | .mk name arity body =>
    printObject
      [("name", printString name), ("arity", toString arity.toNat), ("body", print body)]

def printDefinitions : List Definition → List String
  | [] => []
  | d :: ds => printDefinition d :: printDefinitions ds

end

end Orchestra.Interchange
