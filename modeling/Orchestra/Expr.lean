/-
  Expressions of the orchestration calculus.

  An expression publishes any number of values while it runs.  The four combinators are
  `parallel` (both sides), `sequential` (the right side once for every publication of the left),
  `pruning` (the left side, with the first publication of the right) and `otherwise` (the right
  side if the left publishes nothing); `atomic` runs its body as a transaction.

  Variables are counted outward from the place of use, `variable 0` being the innermost binding.
  `sequential` binds one variable in its right side, `pruning` one in its left side, and
  `declare` one for each definition, in order, in its body and in the definitions; inside a
  definition the parameters come after the definitions.  Indices and arities are 64-bit words.
-/
import Orchestra.Location

namespace Orchestra

/-- A constant written in a program. -/
inductive Literal where
  | signal
  | bool (b : Bool)
  | int (n : Int64)
  | string (s : String)
deriving DecidableEq

/-- What may stand as the target or an argument of a call. -/
inductive Argument where
  | literal (l : Literal)
  | variable (index : UInt64)
  | site (name : String)
deriving DecidableEq

mutual

/-- An expression. -/
inductive Expr where
  | stop
  | value (a : Argument)
  | call (target : Argument) (args : List Argument) (span : Span)
  | field (target : Argument) (name : String)
  | parallel (left right : Expr)
  | sequential (left right : Expr)
  | pruning (left right : Expr)
  | otherwise (left right : Expr)
  | declare (defs : List Definition) (body : Expr)
  | atomic (body : Expr)

/-- A definition; all definitions of one `declare` see each other. -/
inductive Definition where
  | mk (name : String) (arity : UInt64) (body : Expr)

end

instance : Inhabited Expr := ⟨.stop⟩

namespace Definition

def name : Definition → String
  | .mk name _ _ => name

def arity : Definition → UInt64
  | .mk _ arity _ => arity

def body : Definition → Expr
  | .mk _ _ body => body

end Definition

namespace Expr

/-! ## Equality -/

mutual

/-- Whether two expressions are the same tree, spans included. -/
def equal : Expr → Expr → Bool
  | .stop, .stop => true
  | .value a, .value b => a = b
  | .call t as s, .call u bs r => t = u && as = bs && s = r
  | .field t n, .field u m => t = u && n = m
  | .parallel a b, .parallel c d => equal a c && equal b d
  | .sequential a b, .sequential c d => equal a c && equal b d
  | .pruning a b, .pruning c d => equal a c && equal b d
  | .otherwise a b, .otherwise c d => equal a c && equal b d
  | .declare ds b, .declare es c => equalDefs ds es && equal b c
  | .atomic a, .atomic b => equal a b
  | _, _ => false

def equalDef : Definition → Definition → Bool
  | .mk n a b, .mk m c d => n = m && a = c && equal b d

def equalDefs : List Definition → List Definition → Bool
  | [], [] => true
  | d :: ds, e :: es => equalDef d e && equalDefs ds es
  | _, _ => false

end

/-! ## Shifting -/

/-- An argument under `amount` more binders, put between the `cutoff` innermost ones and the
    rest. -/
def shiftArgument (amount cutoff : UInt64) : Argument → Argument
  | .variable i => if cutoff ≤ i then .variable (i + amount) else .variable i
  | a => a

mutual

/-- The same expression under `amount` more binders, put between the `cutoff` innermost ones and
    the rest. -/
def shiftAbove (amount : UInt64) : Expr → (cutoff : UInt64) → Expr
  | .stop, _ => .stop
  | .value a, c => .value (shiftArgument amount c a)
  | .call t as s, c => .call (shiftArgument amount c t) (as.map (shiftArgument amount c)) s
  | .field t n, c => .field (shiftArgument amount c t) n
  | .parallel a b, c => .parallel (shiftAbove amount a c) (shiftAbove amount b c)
  | .sequential a b, c => .sequential (shiftAbove amount a c) (shiftAbove amount b (c + 1))
  | .pruning a b, c => .pruning (shiftAbove amount a (c + 1)) (shiftAbove amount b c)
  | .otherwise a b, c => .otherwise (shiftAbove amount a c) (shiftAbove amount b c)
  | .declare ds b, c =>
    let inner := c + ds.length.toUInt64
    .declare (shiftDefs amount ds inner) (shiftAbove amount b inner)
  | .atomic a, c => .atomic (shiftAbove amount a c)

def shiftDef (amount : UInt64) : Definition → (inner : UInt64) → Definition
  | .mk n a b, inner => .mk n a (shiftAbove amount b (inner + a))

def shiftDefs (amount : UInt64) : List Definition → (inner : UInt64) → List Definition
  | [], _ => []
  | d :: ds, inner => shiftDef amount d inner :: shiftDefs amount ds inner

end

/-- The same expression under `amount` more binders around it. -/
def shift (e : Expr) (amount : UInt64) : Expr := e.shiftAbove amount 0

/-! ## Building -/

/-- All branches side by side; silence if there are none. -/
def any : List Expr → Expr
  | [] => .stop
  | [e] => e
  | e :: es => .parallel e (any es)

/-- The steps one after the other, each once for every publication of the one before, whose
    value it does not see.  No steps publish a signal. -/
def thenAll : List Expr → Expr
  | [] => .value (.literal .signal)
  | [e] => e
  | e :: es => .sequential e ((thenAll es).shift 1)

/-- A call with another span.  Other expressions have no place for one. -/
def withSpan (e : Expr) (span : Span) : Expr :=
  match e with
  | .call target args _ => .call target args span
  | other => other

end Expr
end Orchestra
