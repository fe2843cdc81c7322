import RigExpr.Number.Text

/-!
# Numerals of JSON

A numeral is kept as it is written. Its value is an integer of 64 bits if it is
one without point and exponent, and a double otherwise: the longest run of
leading digits that fits 64 bits, as a double, times a power of ten, as a
double. A value beyond the range of doubles is none at all.

Doubles are written with the fewest digits that read back, a tie going to the
even digit, positionally from `0.00001` up to sixteen digits before the point
and with a signed exponent otherwise, and always with a point or an exponent.
-/

namespace RigExpr

/-- A number as written in JSON. -/
structure Numeral where
  /-- Whether there is a minus sign. -/
  negative : Bool
  /-- The digits before the point. -/
  whole : List Char
  /-- The digits after the point, none if there is no point. -/
  fraction : List Char := []
  /-- The exponent, if one is written. -/
  exponent : Option Int := none
  deriving Repr, DecidableEq

namespace Numeral

/-- The value of a numeral. -/
inductive Value
  /-- A natural number below `2^64`. -/
  | natural (n : Nat)
  /-- A negative integer not below `-2^63`. -/
  | negative (n : Int)
  /-- A double. -/
  | real (x : Float)

/-- The significand `n` extended by the leading digits that keep it below `2^64`,
    and how many these are. -/
def accumulate (n : Nat) : List Char → Nat × Nat
  | [] => (n, 0)
  | c :: cs =>
    let next := 10 * n + (c.toNat - '0'.toNat)
    if next < UInt64.size then
      let (m, taken) := accumulate next cs
      (m, taken + 1)
    else (n, 0)

/-- A power of ten as a double, for an exponent of at most 308. -/
def power (n : Nat) : Float := Binary64.round false (Nat.pow 10 n) 1

/-- The double `x · 10^k`, by one product or quotient with a power of ten where
    one is a double. `fuel` bounds the steps for exponents below the range; three
    bring every significand to zero. -/
def scale (x : Float) (k : Int) : (fuel : Nat) → Option Float
  | 0 => some x
  | fuel + 1 =>
    if k.natAbs ≤ 308 then
      if 0 ≤ k then
        let y := x * power k.natAbs
        if y.isInf then none else some y
      else some (x / power k.natAbs)
    else if x == 0 then some x
    else if 0 ≤ k then none
    else scale (x / power 308) (k + 308) fuel

/-- The value as a double, from all parts of the numeral. -/
def real? (n : Numeral) : Option Float :=
  let (whole, taken) := accumulate 0 n.whole
  let dropped : Int := n.whole.length - taken
  let (digits, places) := accumulate whole n.fraction
  let k := dropped - places + n.exponent.getD 0
  (scale (Binary64.round false digits 1) k 4).map fun x => if n.negative then -x else x

/-- The value of the numeral, if it is in range. -/
def value? (n : Numeral) : Option Value :=
  let integer := Number.digitsValue n.whole
  if n.fraction.isEmpty ∧ n.exponent.isNone ∧ integer < UInt64.size then
    if !n.negative then some (.natural integer)
    else if 0 < integer ∧ integer ≤ Nat.pow 2 63 then some (.negative (-(integer : Int)))
    else some (.real (-(Binary64.round false integer 1)))
  else n.real?.map .real

/-- The value as a double, if it is in range. -/
def toFloat? (n : Numeral) : Option Float :=
  match n.value? with
  | some (.natural k) => some (Binary64.round false k 1)
  | some (.negative k) => some (Binary64.round true k.natAbs 1)
  | some (.real x) => some x
  | none => none

/-- The value as a natural number below `2^64`, if it is written as one. -/
def toNat? (n : Numeral) : Option Nat :=
  match n.value? with
  | some (.natural k) => some k
  | _ => none

/-- The numeral of a natural number. -/
def ofNat (n : Nat) : Numeral := { negative := false, whole := (toString n).toList }

/-- The numeral of the finite double `± digits · 10^exponent`. -/
def ofDecimal (negative : Bool) (d : Decimal) : Numeral :=
  let ds := (toString d.digits).toList
  let point : Int := ds.length + d.exponent
  let zeros (n : Int) : List Char := List.replicate n.toNat '0'
  if 0 ≤ d.exponent ∧ point ≤ 16 then
    { negative, whole := ds ++ zeros d.exponent, fraction := ['0'] }
  else if 0 < point ∧ point ≤ 16 then
    { negative, whole := ds.take point.toNat, fraction := ds.drop point.toNat }
  else if -5 < point ∧ point ≤ 0 then
    { negative, whole := ['0'], fraction := zeros (-point) ++ ds }
  else
    { negative, whole := ds.take 1, fraction := ds.drop 1, exponent := some (point - 1) }

/-- The numeral of a double, if it is finite. -/
def ofFloat? (x : Float) : Option Numeral :=
  match Binary64.ofFloat x with
  | .finite negative 0 _ => some { negative, whole := ['0'], fraction := ['0'] }
  | .finite negative m q => some (ofDecimal negative (Decimal.shortest .even m q))
  | _ => none

/-- An exponent, with its sign. -/
def exponentText (k : Int) : String := (if 0 ≤ k then "e+" else "e-") ++ toString k.natAbs

/-- The numeral as written, an exponent always with its sign. -/
def text (n : Numeral) : String :=
  Number.signed n.negative (String.ofList n.whole) ++
    (if n.fraction.isEmpty then "" else "." ++ String.ofList n.fraction) ++
    match n.exponent with
    | some k => exponentText k
    | none => ""

/-- The numeral in the form in which its value is written. -/
def normalize (n : Numeral) : Numeral :=
  match n.value? with
  | some (.natural k) => ofNat k
  | some (.negative k) => { ofNat k.natAbs with negative := true }
  | some (.real x) => (ofFloat? x).getD n
  | none => n

end Numeral

end RigExpr
