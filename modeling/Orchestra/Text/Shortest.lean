/-
  The shortest decimal text of a binary floating-point number.

  A finite number other than zero is `m · 2^q` for naturals `m` and integers `q`.  Every real
  between the midpoints to its two neighbours reads back as that number, the midpoints
  themselves only if `m` is even.  The SHORTEST text has the fewest digits among the decimals in
  this interval.  Of several such decimals it is the nearest one, and of two that are equally near
  the one whose last digit is even.

  For `n = 1, 2, …` digits the decimals of `n` digits form a grid; only the two grid points next
  to the number can be the nearest in the interval, so the search tests two candidates for each
  `n` and needs at most 17 rounds.  All arithmetic is on naturals.
-/

namespace Orchestra.Text

/-! ## Decoding -/

/-- A positive number together with the interval of reals that read back as it, all three as
    fractions over `den`.  The ends belong to the interval if `closed`. -/
structure Rounding where
  low : Nat
  value : Nat
  high : Nat
  den : Nat
  closed : Bool

/-- The interval of the number with mantissa field `frac` and exponent field `expo`. -/
def Rounding.ofFields (frac expo : Nat) : Rounding :=
  let m := if expo = 0 then frac else frac + Nat.pow 2 52
  -- the neighbour below is nearer at the bottom of a binade
  let below := if frac = 0 ∧ 1 < expo then 1 else 2
  -- quarter units: the exponent of the last place is `max expo 1 - 1075`, two less for a quarter
  let e : Int := (max expo 1 : Nat) - 1077
  let up := Nat.pow 2 e.toNat
  { low := (4 * m - below) * up
    value := 4 * m * up
    high := (4 * m + 2) * up
    den := Nat.pow 2 (-e).toNat
    closed := m % 2 = 0 }

/-- Whether the decimal `num / den'` lies in the interval. -/
def Rounding.contains (r : Rounding) (num den' : Nat) : Bool :=
  let x := num * r.den
  if r.closed then r.low * den' ≤ x && x ≤ r.high * den'
  else r.low * den' < x && x < r.high * den'

/-! ## The search -/

/-- The number of decimal digits of `n`; one for zero. -/
def digitCount (n : Nat) : Nat :=
  (Nat.toDigits 10 n).length

/-- The decimal exponent of `num / den`: the `k` with `10^k ≤ num / den < 10^(k+1)`. -/
def decimalExponent (num den : Nat) : Int :=
  if den ≤ num then digitCount (num / den) - 1
  else
    let t := digitCount (den / num)
    if den ≤ num * Nat.pow 10 (t - 1) then -(t - 1 : Nat) else -t

/-- The digits `d` of a decimal `d · 10^k`. -/
structure Decimal where
  digits : Nat
  exponent : Int

/-- Whether `num / den`, which lies between `d` and `d + 1`, is rounded down to `d`: it is nearer
    to `d`, or halfway and `d` is even. -/
def roundsDown (num den d : Nat) : Bool :=
  match compare (2 * (num - d * den)) den with
  | .lt => true
  | .eq => d % 2 = 0
  | .gt => false

/-- The better one of the two grid points next to the number, if one of them reads back as it.
    The grid has the points `d · 10^k`. -/
def Rounding.onGrid (r : Rounding) (k : Int) : Option Decimal :=
  let up := Nat.pow 10 k.toNat
  let down := Nat.pow 10 (-k).toNat
  -- the number in units of the grid is `(value · down) / (den · up)`
  let num := r.value * down
  let den := r.den * up
  let d := num / den
  let lower := r.contains (d * up) down
  let upper := r.contains ((d + 1) * up) down
  if lower && (!upper || roundsDown num den d) then some ⟨d, k⟩
  else if upper then some ⟨d + 1, k⟩
  else none

/-- The first grid, from `n` digits on, that holds a decimal in the interval. -/
def Rounding.search (r : Rounding) (k : Int) : Nat → Nat → Decimal
  | 0, _ => ⟨0, 0⟩
  | fuel + 1, n =>
    match r.onGrid (k - n + 1) with
    | some d => d
    | none => r.search k fuel (n + 1)

/-- The shortest decimal that reads back as the number. -/
def Rounding.shortest (r : Rounding) : Decimal :=
  r.search (decimalExponent r.value r.den) 18 1

/-! ## The text -/

/-- The decisions of a format for floating-point numbers: the least and the greatest decimal
    exponent that is written positionally. -/
structure FloatFormat where
  leastPositional : Int
  greatestPositional : Int

/-- The text of the digits `ds` of a decimal whose first digit has exponent `e`. -/
def FloatFormat.write (f : FloatFormat) (ds : List Char) (e : Int) : String :=
  if f.leastPositional ≤ e ∧ e ≤ f.greatestPositional then
    if e < 0 then
      "0." ++ String.ofList (List.replicate (-e - 1).toNat '0' ++ ds)
    else
      let whole := ds.take (e.toNat + 1)
      let rest := ds.drop (e.toNat + 1)
      let fill := List.replicate (e.toNat + 1 - ds.length) '0'
      String.ofList (whole ++ fill) ++ "." ++ (if rest.isEmpty then "0" else String.ofList rest)
  else
    let head := String.ofList (ds.take 1)
    let rest := ds.drop 1
    let mantissa := if rest.isEmpty then head else head ++ "." ++ String.ofList rest
    let sign := if e < 0 then "-" else "+"
    mantissa ++ "e" ++ sign ++ toString e.natAbs

/-- The text of a finite number under `f`, from its bit pattern. -/
def FloatFormat.text (f : FloatFormat) (x : Float) : String :=
  let bits := x.toBits.toNat
  let frac := bits % Nat.pow 2 52
  let expo := bits / Nat.pow 2 52 % Nat.pow 2 11
  let sign := if bits / Nat.pow 2 63 = 1 then "-" else ""
  if frac = 0 ∧ expo = 0 then sign ++ "0.0"
  else
    let d := (Rounding.ofFields frac expo).shortest
    let ds := Nat.toDigits 10 d.digits
    let trimmed := (ds.reverse.dropWhile (· = '0')).reverse
    sign ++ f.write trimmed (d.exponent + ds.length - 1)

end Orchestra.Text
