/-
  Primitives: sites whose answer depends on the arguments alone.

  `evaluate` says what each of them answers.  A bad call is an error; a call that is declined,
  which only a guard does, ends the caller without one.
-/
import Orchestra.Engine.Host
import Orchestra.Library.Integer

namespace Orchestra

/-- A site whose answer depends on its arguments alone. -/
inductive Primitive where
  /-- Publishes a signal, the one argument, or a tuple of all arguments. -/
  | bundle
  /-- Publishes a signal if the argument is the given truth value, and declines otherwise. -/
  | guard (wanted : Bool)
  /-- Adds integers and joins strings. -/
  | add
  | sub
  | mul
  | div
  | mod
  | eq
  | less
  | greater
  /-- Fails with the argument as its message. -/
  | error
  /-- Makes a record of names and values, which take turns. -/
  | record
deriving DecidableEq, Repr

namespace Primitive

/-! ## Arguments -/

/-- The only argument. -/
def one : List Value → Except SiteError Value
  | [v] => .ok v
  | args => .error (.arity 1 args.length)

/-- Two integers; an error names the first argument that is none. -/
def twoIntegers : List Value → Except SiteError (Int64 × Int64)
  | [.int a, .int b] => .ok (a, b)
  | [a, b] => .error (.expected "two integers" (if a.asInt.isNone then a else b))
  | args => .error (.arity 2 args.length)

def condition (args : List Value) : Except SiteError Bool := do
  let v ← one args
  match v.asBool with
  | some b => return b
  | none => throw (.expected "a boolean" v)

/-- Names and values that take turns. -/
def fields : List Value → Except SiteError (List (String × Value))
  | [] => .ok []
  | .str name :: v :: rest => return (name, v) :: (← fields rest)
  | _ => .error (.other "bad fields")

/-! ## Answers -/

/-- The answer of an integer operation; no result means that it does not fit. -/
def integer (f : Int64 → Int64 → Option Int64) (args : List Value) : Except SiteError Reply := do
  let (a, b) ← twoIntegers args
  match f a b with
  | some n => return .publish (.int n)
  | none => throw .overflow

/-- The answer of an operation that divides. -/
def division (f : Int64 → Int64 → Option Int64) (args : List Value) : Except SiteError Reply := do
  let (_, b) ← twoIntegers args
  if b = 0 then throw .divisionByZero else integer f args

def comparison (f : Int64 → Int64 → Bool) (args : List Value) : Except SiteError Reply := do
  let (a, b) ← twoIntegers args
  return .publish (.bool (f a b))

def evaluate : Primitive → List Value → Except SiteError Reply
  | .bundle, [] => .ok (.publish .signal)
  | .bundle, [v] => .ok (.publish v)
  | .bundle, args => .ok (.publish (.tuple args))
  | .guard wanted, args => return if (← condition args) = wanted then .publish .signal else .halt
  | .add, [.str a, .str b] => .ok (.publish (.str (a ++ b)))
  | .add, args => integer Integer.add? args
  | .sub, args => integer Integer.sub? args
  | .mul, args => integer Integer.mul? args
  | .div, args => division Integer.divide? args
  | .mod, args => division Integer.modulo? args
  | .eq, [a, b] => .ok (.publish (.bool (a.equal b)))
  | .eq, args => .error (.arity 2 args.length)
  | .less, args => comparison (fun a b => decide (a < b)) args
  | .greater, args => comparison (fun a b => decide (b < a)) args
  | .error, args => do throw (.other (← one args).display)
  | .record, args => return .publish (.ofFields (← fields args))

end Primitive

/-- An answer that may be an error. -/
def Reply.ofExcept : Except SiteError Reply → Reply
  | .ok reply => reply
  | .error e => .fail e

/-- The answer of a primitive. -/
def Primitive.apply (f : Primitive) (args : List Value) : Reply := .ofExcept (f.evaluate args)

end Orchestra
