/-!
# Doubles as dyadic rationals

A finite double is `± m · 2^q` for natural `m` and integer `q`. This module
reads the two off the bits of a `Float`, and goes the other way: it rounds a
nonnegative rational to the nearest double, a tie to the one with the even
significand. Both work in exact natural arithmetic.
-/

namespace RigExpr

/-- What the bits of a double say. -/
inductive Binary64
  /-- Not a number. -/
  | nan
  /-- An infinity. -/
  | infinite (negative : Bool)
  /-- The number `± significand · 2^exponent`. -/
  | finite (negative : Bool) (significand : Nat) (exponent : Int)
  deriving Repr, DecidableEq

namespace Binary64

/-- The exponent of the smallest positive double, `2^minExponent`. -/
def minExponent : Int := -1074

/-- The double with the bits of `x`. -/
def ofFloat (x : Float) : Binary64 :=
  let bits := x.toBits.toNat
  let negative := decide (Nat.pow 2 63 ≤ bits)
  let field : Nat := bits / Nat.pow 2 52 % Nat.pow 2 11
  let fraction : Nat := bits % Nat.pow 2 52
  if field = Nat.pow 2 11 - 1 then
    if fraction = 0 then .infinite negative else .nan
  else if field = 0 then .finite negative fraction minExponent
  else .finite negative (Nat.pow 2 52 + fraction) ((field : Int) - 1075)

/-- The quotient `n / d` to the nearest integer, a tie to the even one. -/
def divEven (n d : Nat) : Nat :=
  let q := n / d
  let r := n % d
  if 2 * r < d then q
  else if d < 2 * r then q + 1
  else q + q % 2

/-- The double `± m · 2^q`, for a significand of at most 53 bits, or the
    infinity of that sign when it is too large. -/
def pack (negative : Bool) (m : Nat) (q : Int) : Float :=
  let magnitude :=
    if m < Nat.pow 2 52 then m
    else (q + 1075).toNat * Nat.pow 2 52 + (m - Nat.pow 2 52)
  let capped := min magnitude ((Nat.pow 2 11 - 1) * Nat.pow 2 52)
  Float.ofBits (UInt64.ofNat (capped + if negative then Nat.pow 2 63 else 0))

/-- The double nearest to `± num / den`, for a positive `den`. -/
def round (negative : Bool) (num den : Nat) : Float :=
  if num = 0 then pack negative 0 minExponent
  else
    let guess : Int := (Nat.log2 num : Int) - Nat.log2 den
    let reached :=
      if 0 ≤ guess then den * Nat.pow 2 guess.toNat ≤ num else den ≤ num * Nat.pow 2 (-guess).toNat
    let e := if reached then guess else guess - 1
    let q := max (e - 52) minExponent
    let m :=
      if 0 ≤ q then divEven num (den * Nat.pow 2 q.toNat)
      else divEven (num * Nat.pow 2 (-q).toNat) den
    pack negative m q

end Binary64

end RigExpr
