/-
  Arithmetic on 64-bit integers.

  Every operation is the one on integers.  A result that does not fit into 64 bits is refused,
  never wrapped.  Division goes toward zero; the remainder that `modulo?` gives is never
  negative.
-/

namespace Orchestra.Integer

/-- The word for an integer, if there is one. -/
def ofInt? (n : Int) : Option Int64 :=
  if Int64.minValue.toInt ≤ n ∧ n ≤ Int64.maxValue.toInt then some (Int64.ofInt n) else none

def add? (a b : Int64) : Option Int64 := ofInt? (a.toInt + b.toInt)

def sub? (a b : Int64) : Option Int64 := ofInt? (a.toInt - b.toInt)

def mul? (a b : Int64) : Option Int64 := ofInt? (a.toInt * b.toInt)

/-- The quotient by `b`, which is not zero. -/
def divide? (a b : Int64) : Option Int64 := ofInt? (a.toInt.tdiv b.toInt)

/-- The remainder by `b`, which is not zero.  It is refused as well if the quotient that goes
    with it does not fit, which happens for the least integer and -1. -/
def modulo? (a b : Int64) : Option Int64 := do
  let _ ← ofInt? (a.toInt / b.toInt)
  ofInt? (a.toInt % b.toInt)

example : divide? (-7) 3 = some (-2) ∧ modulo? (-7) 3 = some 2 ∧ modulo? (-7) (-3) = some 2 := by
  decide

example : divide? Int64.minValue (-1) = none ∧ modulo? Int64.minValue (-1) = none := by decide

end Orchestra.Integer
