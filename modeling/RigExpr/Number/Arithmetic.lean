import RigExpr.Number.Text

/-!
# Arithmetic on doubles

The few operations on doubles that a rig needs beyond those of `Float`, with
their behaviour on zeros, infinities and values that are not a number spelled
out.
-/

namespace RigExpr.Number

/-- Euler's number. -/
def e : Float := 2.718281828459045

/-- The ratio of a circle's circumference to its diameter. -/
def pi : Float := 3.141592653589793

/-- The integer part, towards zero; the sign of a zero is kept. -/
def truncate (x : Float) : Float := if x < 0 then x.ceil else x.floor

/-- The larger of two numbers: the other one if one is not a number, and the
    first of two equal ones. -/
def larger (x y : Float) : Float :=
  if x.isNaN then y else if x < y then y else x

/-- The smaller of two numbers: the other one if one is not a number, and the
    first of two equal ones. -/
def smaller (x y : Float) : Float :=
  if x.isNaN then y else if y < x then y else x

/-- The number moved into the interval from `low` to `high`; what is not a
    number stays so. -/
def clamp (x low high : Float) : Float :=
  let x := if x < low then low else x
  if high < x then high else x

/-- The sum from the left. The empty sum is `-0`, the neutral element of
    addition. -/
def sum (xs : List Float) : Float := xs.foldl (· + ·) (-0.0)

/-- The sum of the products of the components, as far as both lists go. -/
def dot (xs ys : List Float) : Float := sum (List.zipWith (· * ·) xs ys)

/-- The Euclidean length. -/
def length (xs : List Float) : Float := (dot xs xs).sqrt

/-- The number as an index: its integer part, with everything below zero and
    what is not a number at zero, and at most `2^64 - 1`. -/
def toIndex (x : Float) : Nat := x.toUInt64.toNat

/-- An index as a number. -/
def ofIndex (n : Nat) : Float := Binary64.round false n 1

end RigExpr.Number
