/-
  What can go wrong while a program runs.

  There are three levels.  A site answers a bad call with a `SiteError`.  A `TokenError` ends
  one token: it is reported once, with the span of the call that the token entered last, and the
  rest of the program goes on.  A `Fault` is the engine finding its own records inconsistent; it
  ends the whole run.
-/
import Orchestra.Report
import Orchestra.Value

namespace Orchestra

/-! ## Errors of sites -/

/-- Why a site refuses a call. -/
inductive SiteError where
  | expected (what : String) (found : Value)
  | arity (wanted found : Nat)
  | divisionByZero
  | overflow
  /-- The call could not be handed to a worker. -/
  | unspawned
  /-- An error in the site's own words. -/
  | other (text : String)

def SiteError.message : SiteError → String
  | .expected what found =>
    "expected " ++ what ++ ", found " ++ found.kind ++ " `" ++ found.text ++ "`"
  | .arity wanted found =>
    "expected " ++ toString wanted ++ " argument(s), found " ++ toString found
  | .divisionByZero => "division by zero"
  | .overflow => "integer overflow"
  | .unspawned => "could not spawn the call"
  | .other text => text

/-! ## Errors of tokens -/

/-- Why a token fails. -/
inductive TokenError where
  | arityMismatch (name : String) (expected found : Nat)
  | uncallable (v : Value)
  | notARecord (v : Value)
  | noSuchField (name : String)
  | site (name : String) (error : SiteError)
  /-- The ceiling on live tokens is reached. -/
  | resourceExhausted (limit : Nat)

def TokenError.message : TokenError → String
  | .arityMismatch name expected found =>
    "`" ++ name ++ "` takes " ++ toString expected ++ " argument(s) but was called with "
      ++ toString found
  | .uncallable v => v.kind ++ " `" ++ v.text ++ "` cannot be called"
  | .notARecord v => v.kind ++ " `" ++ v.text ++ "` has no fields"
  | .noSuchField name => "no field named `" ++ name ++ "`"
  | .site name error => name ++ ": " ++ error.message
  | .resourceExhausted limit =>
    "too many live tokens (limit is " ++ toString limit ++ ")"

/-- A failed token: the error and the call it is reported against. -/
structure Failure where
  span : Span
  error : TokenError

def Failure.message (f : Failure) : String :=
  f.error.message ++ " (at " ++ f.span.text ++ ")"

/-- The report shows the location as a label, so its message leaves it out. -/
def Failure.report (f : Failure) (source : Option String) : Report :=
  Report.located f.error.message f.span source

/-! ## Faults of the engine -/

/-- An inconsistency in the engine's own records. -/
inductive Fault where
  | unboundIndex (index depth : Nat)
  | envUnderflow (count depth : Nat)
  | stackUnderflow
  /-- A pruning cell was given a second value. -/
  | doubleBind
  /-- A pruning result reached a group that is no cell. -/
  | notACell
  /-- A token reached the exit of a scope that it is not in. -/
  | scopeMismatch (what : String)
  | missing (what : String)
deriving DecidableEq

def Fault.message : Fault → String
  | .unboundIndex index depth =>
    "environment lookup of #" ++ toString index ++ " in an environment of depth "
      ++ toString depth
  | .envUnderflow count depth =>
    "cannot unwind " ++ toString count ++ " binding(s) from an environment of depth "
      ++ toString depth
  | .stackUnderflow => "return with an empty call stack"
  | .doubleBind => "a pruning cell was bound twice"
  | .notACell => "a pruning result reached a group that is not a cell"
  | .scopeMismatch what => "token left a " ++ what ++ " it was not in"
  | .missing what => "reference to a " ++ what ++ " that no longer exists"

end Orchestra
