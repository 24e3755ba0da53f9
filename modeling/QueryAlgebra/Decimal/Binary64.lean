import QueryAlgebra.Decimal.Shortest

/-! # Double-precision numbers and their text

A number is its sixty-four bits. Its text is the shortest decimal that reads back as the number, in
scientific notation or with the point in place.
-/

namespace QueryAlgebra

/-- A double-precision number in its interchange format. -/
structure Binary64 where
  bits : UInt64
deriving DecidableEq, Inhabited

namespace Binary64

/-- Whether the sign bit is set. -/
def isNegative (number : Binary64) : Bool := number.bits.toNat / Nat.pow 2 63 == 1

/-- The eleven bits of the exponent. -/
def exponentField (number : Binary64) : Nat := number.bits.toNat / Nat.pow 2 52 % Nat.pow 2 11

/-- The fifty-two bits of the fraction. -/
def fraction (number : Binary64) : Nat := number.bits.toNat % Nat.pow 2 52

/-- The decimals that are nearer to a positive finite number than to its neighbours. Numbers are
counted in quarters of the last place; below a power of two the neighbour is half as far. -/
def interval (number : Binary64) : Decimal.Interval :=
  let normal := number.exponentField != 0
  let significand := if normal then number.fraction + Nat.pow 2 52 else number.fraction
  let exponent : Int := (if normal then (number.exponentField : Int) else 1) - 1077
  let scale := Nat.pow 2 exponent.toNat
  { numerator := 4 * significand * scale
    below := (if normal && number.fraction == 0 then 1 else 2) * scale
    above := 2 * scale
    denominator := Nat.pow 2 (-exponent).toNat
    closed := significand % 2 == 0 }

/-- Whether the number is neither infinite nor undefined. -/
def isFinite (number : Binary64) : Bool := number.exponentField != 2047

/-- Whether the number is zero, with either sign. -/
def isZero (number : Binary64) : Bool := number.exponentField == 0 && number.fraction == 0

/-- What stands before the digits of a number. -/
def sign (number : Binary64) : String := if number.isNegative then "-" else ""

/-- The text of a number in scientific notation. -/
def toText (number : Binary64) : String :=
  if !number.isFinite then
    if number.fraction == 0 then number.sign ++ "inf" else "NaN"
  else if number.isZero then number.sign ++ "0e0"
  else
    match number.interval.shortest? 17 with
    | some decimal => number.sign ++ decimal.scientific
    | none => "NaN"

/-- The text of a finite number with its point in place. -/
def toPositional (number : Binary64) : String :=
  if number.isZero then number.sign ++ "0.0"
  else
    match number.interval.shortest? 17 with
    | some decimal => number.sign ++ decimal.positional
    | none => "NaN"

end Binary64

end QueryAlgebra
