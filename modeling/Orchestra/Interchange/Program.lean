/-
  Reading programs.

  An expression, an argument, a literal and a span are alternatives; the content of an
  alternative is a single value, a list of two expressions or a structure.  In the object form of
  a call the arguments and the span may be left out, and in its list form they may be missing at
  the end.  Brackets may be nested 127 deep.
-/
import Orchestra.Expr
import Orchestra.Interchange.Shape
import Orchestra.Report

namespace Orchestra.Interchange

namespace Reader

/-! ## Parts of expressions -/

def literalNames : List String := ["signal", "bool", "int", "string"]

def literal (depth : Nat) : Reader Literal :=
  variant depth literalNames
    (fun name => if name = "signal" then return .signal else needsContent "newtype variant")
    (fun name =>
      if name = "signal" then do null; return .signal
      else if name = "bool" then return .bool (← boolean)
      else if name = "int" then return .int (← int64)
      else return .string (← string))

def argumentNames : List String := ["literal", "variable", "site"]

def argument (depth : Nat) : Reader Argument :=
  variant depth argumentNames
    (fun _ => needsContent "newtype variant")
    (fun name =>
      if name = "literal" then return .literal (← literal (depth - 1))
      else if name = "variable" then return .variable (← uint64)
      else return .site (← string))

/-- The fields of a point that have been read. -/
structure PointDraft where
  offset : Option UInt32 := none
  row : Option UInt32 := none
  column : Option UInt32 := none

def point (depth : Nat) : Reader Point :=
  structure' depth "struct Point"
    (do
      let wanted := "struct Point with 3 elements"
      let offset ← elementAt 0 wanted uint32
      let row ← elementAt 1 wanted uint32
      let column ← elementAt 2 wanted uint32
      return { offset, row, column })
    (do
      let d ← allFields (fun (d : PointDraft) key =>
        if key = "offset" then return { d with offset := ← once key d.offset uint32 }
        else if key = "row" then return { d with row := ← once key d.row uint32 }
        else if key = "column" then return { d with column := ← once key d.column uint32 }
        else unknown d) {}
      let offset ← required "offset" d.offset
      let row ← required "row" d.row
      let column ← required "column" d.column
      return { offset, row, column })

/-- The fields of a span that have been read. -/
structure SpanDraft where
  start : Option Point := none
  stop : Option Point := none
  file : Option String := none

def spanNames : List String := ["none", "at"]

def span (depth : Nat) : Reader Span :=
  variant depth spanNames
    (fun name => if name = "none" then return .none else needsContent "struct variant")
    (fun name =>
      if name = "none" then do null; return .none
      else
        let inner := point (depth - 2)
        structure' (depth - 1) "struct variant Span::At"
          (do
            let wanted := "struct variant Span::At with 3 elements"
            let start ← elementAt 0 wanted inner
            let stop ← elementAt 1 wanted inner
            let file ← elementAt 2 wanted string
            return .at start stop file)
          (do
            let d ← allFields (fun (d : SpanDraft) key =>
              if key = "start" then return { d with start := ← once key d.start inner }
              else if key = "end" then return { d with stop := ← once key d.stop inner }
              else if key = "file" then return { d with file := ← once key d.file string }
              else unknown d) {}
            let start ← required "start" d.start
            let stop ← required "end" d.stop
            let file ← required "file" d.file
            return .at start stop file))

/-! ## Expressions -/

/-- The fields of a call that have been read. -/
structure CallDraft where
  target : Option Argument := none
  args : Option (List Argument) := none
  span : Option Span := none

/-- The content of a call. -/
def call (depth : Nat) : Reader Expr :=
  let inner := depth - 1
  structure' depth "struct variant Expression::Call"
    (do
      let target ← elementAt 0 "struct variant Expression::Call with 3 elements" (argument inner)
      let args ← elementOr 1 (pure []) (list inner (argument (inner - 1)))
      let span ← elementOr 2 (pure .none) (span inner)
      return .call target args span)
    (do
      let d ← allFields (fun (d : CallDraft) key =>
        if key = "target" then return { d with target := ← once key d.target (argument inner) }
        else if key = "args" then
          return { d with args := ← once key d.args (list inner (argument (inner - 1))) }
        else if key = "span" then return { d with span := ← once key d.span (span inner) }
        else unknown d) {}
      let target ← required "target" d.target
      return .call target (d.args.getD []) (d.span.getD .none))

/-- The fields of a field access that have been read. -/
structure FieldDraft where
  target : Option Argument := none
  field : Option String := none

/-- The content of a field access. -/
def fieldAccess (depth : Nat) : Reader Expr :=
  let inner := depth - 1
  structure' depth "struct variant Expression::Field"
    (do
      let wanted := "struct variant Expression::Field with 2 elements"
      let target ← elementAt 0 wanted (argument inner)
      let field ← elementAt 1 wanted string
      return .field target field)
    (do
      let d ← allFields (fun (d : FieldDraft) key =>
        if key = "target" then return { d with target := ← once key d.target (argument inner) }
        else if key = "field" then return { d with field := ← once key d.field string }
        else unknown d) {}
      let target ← required "target" d.target
      let field ← required "field" d.field
      return .field target field)

/-- Two expressions in a list; `inner` reads an expression inside it. -/
def pair (depth : Nat) (name : String) (inner : Reader Expr) : Reader (Expr × Expr) := do
  let wanted := "tuple variant Expression::" ++ name
  match ← peekAfterBlanks with
  | none => failNext .endInValue
  | some c =>
    if c = '[' then
      openBracket depth
      enclosed closeList do
        let left ← elementAt 0 (wanted ++ " with 2 elements") inner
        let right ← elementAt 1 (wanted ++ " with 2 elements") inner
        return (left, right)
    else wrongType wanted

/-- The fields of a pruning that have been read. -/
structure PruningDraft where
  left : Option Expr := none
  right : Option Expr := none

/-- The content of a pruning; `inner` reads an expression inside it. -/
def pruning (depth : Nat) (inner : Reader Expr) : Reader Expr :=
  structure' depth "struct variant Expression::Pruning"
    (do
      let wanted := "struct variant Expression::Pruning with 2 elements"
      let left ← elementAt 0 wanted inner
      let right ← elementAt 1 wanted inner
      return .pruning left right)
    (do
      let d ← allFields (fun (d : PruningDraft) key =>
        if key = "left" then return { d with left := ← once key d.left inner }
        else if key = "right" then return { d with right := ← once key d.right inner }
        else unknown d) {}
      let left ← required "left" d.left
      let right ← required "right" d.right
      return .pruning left right)

/-- The fields of a definition that have been read. -/
structure DefinitionDraft where
  name : Option String := none
  arity : Option UInt64 := none
  body : Option Expr := none

/-- A definition; `inner` reads an expression inside it. -/
def definition (depth : Nat) (inner : Reader Expr) : Reader Definition :=
  structure' depth "struct Definition"
    (do
      let wanted := "struct Definition with 3 elements"
      let name ← elementAt 0 wanted string
      let arity ← elementAt 1 wanted uint64
      let body ← elementAt 2 wanted inner
      return .mk name arity body)
    (do
      let d ← allFields (fun (d : DefinitionDraft) key =>
        if key = "name" then return { d with name := ← once key d.name string }
        else if key = "arity" then return { d with arity := ← once key d.arity uint64 }
        else if key = "body" then return { d with body := ← once key d.body inner }
        else unknown d) {}
      let name ← required "name" d.name
      let arity ← required "arity" d.arity
      let body ← required "body" d.body
      return .mk name arity body)

/-- The fields of a declaration that have been read. -/
structure DeclareDraft where
  defs : Option (List Definition) := none
  body : Option Expr := none

/-- The content of a declaration; `inner` reads an expression inside it and `deep` one inside a
    definition of its list. -/
def declare (depth : Nat) (inner deep : Reader Expr) : Reader Expr :=
  let defs := list (depth - 1) (definition (depth - 2) deep)
  structure' depth "struct variant Expression::Declare"
    (do
      let wanted := "struct variant Expression::Declare with 2 elements"
      let defs ← elementAt 0 wanted defs
      let body ← elementAt 1 wanted inner
      return .declare defs body)
    (do
      let d ← allFields (fun (d : DeclareDraft) key =>
        if key = "defs" then return { d with defs := ← once key d.defs defs }
        else if key = "body" then return { d with body := ← once key d.body inner }
        else unknown d) {}
      let defs ← required "defs" d.defs
      let body ← required "body" d.body
      return .declare defs body)

def exprNames : List String :=
  ["stop", "value", "call", "field", "parallel", "sequential", "pruning", "otherwise",
    "declare", "atomic"]

/-- The sort of content that an expression has. -/
def contentSort (name : String) : String :=
  if name = "value" || name = "atomic" then "newtype variant"
  else if name = "parallel" || name = "sequential" || name = "otherwise" then "tuple variant"
  else "struct variant"

/-- An expression whose own bracket leaves `depth` levels of nesting.  `body` reads an expression
    just inside it, `inner` one inside a list or structure in it, and `deep` one inside a definition
    of a list there. -/
def exprOf (depth : Nat) (body inner deep : Reader Expr) : Reader Expr :=
  variant (depth + 1) exprNames
    (fun name => if name = "stop" then return .stop else needsContent (contentSort name))
    (fun name =>
      if name = "stop" then do null; return .stop
      else if name = "value" then return .value (← argument depth)
      else if name = "call" then call depth
      else if name = "field" then fieldAccess depth
      else if name = "parallel" then
        return Function.uncurry .parallel (← pair depth "Parallel" inner)
      else if name = "sequential" then
        return Function.uncurry .sequential (← pair depth "Sequential" inner)
      else if name = "pruning" then pruning depth inner
      else if name = "otherwise" then
        return Function.uncurry .otherwise (← pair depth "Otherwise" inner)
      else if name = "declare" then declare depth inner deep
      else return .atomic (← body))

/-- An expression with `depth` levels of nesting left.  Its own bracket takes one; a list or
    structure inside takes another, and a list of definitions two more. -/
def expr : (depth : Nat) → Reader Expr
  | 0 => failNext .nestedTooDeep
  | depth + 1 =>
    let inner := match depth with
      | d + 1 => expr d
      | _ => failNext .nestedTooDeep
    let deep := match depth with
      | d + 3 => expr d
      | _ => failNext .nestedTooDeep
    exprOf depth (expr depth) inner deep

end Reader

/-- The levels of nesting of a program text, the last of which cannot be opened. -/
def nesting : Nat := 128

/-! ## Programs -/

/-- Why there is no program. -/
inductive ProgramError where
  /-- The file cannot be read, for the given reason. -/
  | unreadable (file reason : String)
  /-- The text is flawed at a place. -/
  | malformed (span : Span) (message : String)

namespace ProgramError

def message : ProgramError → String
  | .unreadable file reason => "Could not read `" ++ file ++ "`: " ++ reason
  | .malformed _ message => "Malformed program: " ++ message

def report (e : ProgramError) (source : Option String) : Report :=
  match e with
  | .unreadable .. => { message := e.message }
  | .malformed span _ => Report.located e.message span source

end ProgramError

/-- The expression written in a text. -/
def parse (file source : String) : Except ProgramError Expr :=
  match Reader.readAll (Reader.expr nesting) source with
  | .ok e => .ok e
  | .error flaw =>
    let (line, column) := flaw.lineColumn source
    .error (.malformed (Span.ofPoint (.ofLineColumn source line column) file)
      (flaw.message source))

end Orchestra.Interchange
