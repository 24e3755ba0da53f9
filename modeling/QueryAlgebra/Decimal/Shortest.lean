/-! # The shortest decimal inside an interval

A value and the two bounds of an interval around it are fractions over one denominator. Among the
decimals inside the interval, those with the fewest digits are wanted, and of these the one nearest
to the value, the greater one on a tie. If a point of a decimal grid lies in the interval, so does
one of the value's two neighbours on that grid, so only these are tried.
-/

namespace QueryAlgebra.Decimal

/-- A positive fraction and how far an interval reaches below and above it, all over `denominator`;
the bounds themselves belong to the interval if it is `closed`. -/
structure Interval where
  numerator : Nat
  below : Nat
  above : Nat
  denominator : Nat
  closed : Bool
deriving DecidableEq

/-- A decimal `digits · 10 ^ exponent`. -/
structure Scaled where
  digits : Nat
  exponent : Int
deriving DecidableEq

/-- The number of decimal digits of a number. -/
def length (n : Nat) : Nat := (Nat.toDigits 10 n).length

/-- The exponent of the leading digit of a positive fraction. -/
def leadingExponent (numerator denominator : Nat) : Int :=
  let a := length numerator
  let b := length denominator
  let reached := denominator * Nat.pow 10 (a - b) ≤ numerator * Nat.pow 10 (b - a)
  if reached then (a : Int) - b else (a : Int) - b - 1

namespace Interval

/-- Whether a distance stays within a reach. -/
def within (interval : Interval) (distance reach : Nat) : Bool :=
  if interval.closed then distance ≤ reach else distance < reach

/-- The neighbour of the value on the grid of multiples of `10 ^ exponent` that lies in the
interval. -/
def onGrid? (interval : Interval) (exponent : Int) : Option Scaled :=
  let up := Nat.pow 10 (-exponent).toNat
  let value := interval.numerator * up
  let step := interval.denominator * Nat.pow 10 exponent.toNat
  let lower := value / step
  let toLower := value - lower * step
  let toUpper := (lower + 1) * step - value
  let lowerFits := interval.within toLower (interval.below * up)
  let upperFits := interval.within toUpper (interval.above * up)
  if upperFits && (!lowerFits || toUpper ≤ toLower) then some ⟨lower + 1, exponent⟩
  else if lowerFits then some ⟨lower, exponent⟩
  else none

/-- The shortest decimal in the interval of at most `places` digits. -/
def shortest? (interval : Interval) (places : Nat) : Option Scaled :=
  let leading := leadingExponent interval.numerator interval.denominator
  (List.range places).findSome? fun (more : Nat) => interval.onGrid? (leading - more)

end Interval

/-- The digits of a decimal without the final zeros, and how many digits stand before its point. -/
def Scaled.significant (decimal : Scaled) : List Char × Int :=
  let digits := Nat.toDigits 10 decimal.digits
  ((digits.reverse.dropWhile (· == '0')).reverse, decimal.exponent + digits.length)

/-- The text of a decimal in scientific notation, without final zeros in its digits. -/
def Scaled.scientific (decimal : Scaled) : String :=
  let (kept, before) := decimal.significant
  let mantissa :=
    match kept with
    | [] => "0"
    | [digit] => digit.toString
    | digit :: rest => digit.toString ++ "." ++ String.ofList rest
  mantissa ++ "e" ++ toString (before - 1)

/-- The text of a decimal with its point in place, or in scientific notation if the point is far
away from the digits. -/
def Scaled.positional (decimal : Scaled) : String :=
  let (kept, before) := decimal.significant
  let zeros := fun (count : Int) => List.replicate count.toNat '0'
  if 16 < before ∨ before ≤ -5 then decimal.scientific
  else if before ≤ 0 then String.ofList ("0.".toList ++ zeros (-before) ++ kept)
  else if kept.length ≤ before then
    String.ofList (kept ++ zeros (before - kept.length) ++ ".0".toList)
  else String.ofList (kept.take before.toNat ++ '.' :: kept.drop before.toNat)

end QueryAlgebra.Decimal
