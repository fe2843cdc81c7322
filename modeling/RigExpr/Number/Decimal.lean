import RigExpr.Number.Binary64

/-!
# Decimal digits of a double

The decimal digits of a positive double `m · 2^q` are the fewest that still read
back as that double, and of those the ones nearest to it, a tie going as asked
(`Decimal.shortest`).

The double is compared with the points of a decimal grid `10^k · ℕ`, which
takes only natural arithmetic once numbers are written over a common
denominator.
-/

namespace RigExpr

/-- Which of two equally near numbers to take. -/
inductive Tie
  /-- The larger one. -/
  | up
  /-- The one with the even last digit. -/
  | even
  deriving Repr, DecidableEq

/-- The number `digits · 10^exponent`. -/
structure Decimal where
  digits : Nat
  exponent : Int
  deriving Repr, DecidableEq

namespace Decimal

/-- The points of a rational interval and a value in it, over one denominator. -/
structure Target where
  /-- The numerator of the value. -/
  value : Nat
  /-- The numerator of the lower end. -/
  low : Nat
  /-- The numerator of the upper end. -/
  high : Nat
  /-- The common denominator. -/
  denominator : Nat
  /-- Whether the ends belong to the interval. -/
  closed : Bool

/-- The double `m · 2^q` with the interval of numbers that round to it. The gap
    below a power of two is half the gap above it, and an end belongs to the
    interval when ties go to the significand `m`, that is, when it is even. -/
def target (m : Nat) (q : Int) : Target :=
  let scale := Nat.pow 2 (q - 2).toNat
  let narrow := m = Nat.pow 2 52 ∧ Binary64.minExponent < q
  { value := 4 * m * scale
    low := (if narrow then 4 * m - 1 else 4 * m - 2) * scale
    high := (4 * m + 2) * scale
    denominator := Nat.pow 2 (2 - q).toNat
    closed := m % 2 = 0 }

namespace Target

/-- The target with the grid `10^k · ℕ` stretched to the integers. -/
def onGrid (t : Target) (k : Int) : Target :=
  let up := Nat.pow 10 (-k).toNat
  { t with
    value := t.value * up
    low := t.low * up
    high := t.high * up
    denominator := t.denominator * Nat.pow 10 k.toNat }

/-- Whether the integer `n` lies in the interval. -/
def covers (t : Target) (n : Nat) : Bool :=
  let x := n * t.denominator
  if t.closed then t.low ≤ x && x ≤ t.high else t.low < x && x < t.high

/-- The integer of the interval nearest to the value, if there is one: since the
    value is inside, one of its two neighbours is the nearest. -/
def nearest? (t : Target) (tie : Tie) : Option Nat :=
  let below := t.value / t.denominator
  let gap := 2 * (t.value % t.denominator)
  let down := gap < t.denominator ∨ gap = t.denominator ∧ tie = .even ∧ below % 2 = 0
  let nearer := if down then below else below + 1
  let farther := if down then below + 1 else below
  if t.covers nearer then some nearer
  else if t.covers farther then some farther
  else none

end Target

/-- An exponent `k` with `10^k` above `m · 2^q`, and at most a hundred times as
    large. -/
def ceiling (m : Nat) (q : Int) : Int :=
  (Nat.log2 m + q) * 30103 / 100000 + 2

/-- The nearest point on the coarsest of `fuel` grids from `10^k` downwards that
    meets the interval. -/
def search (t : Target) (tie : Tie) : (fuel : Nat) → (k : Int) → Decimal
  | 0, k => ⟨t.value / t.denominator, k⟩
  | fuel + 1, k =>
    match (t.onGrid k).nearest? tie with
    | some n => ⟨n, k⟩
    | none => search t tie fuel (k - 1)

/-- The fewest digits that read back as the positive double `m · 2^q`. Seventeen
    digits always do, so the search ends within its twenty grids. -/
def shortest (tie : Tie) (m : Nat) (q : Int) : Decimal :=
  search (target m q) tie 20 (ceiling m q)

end Decimal

end RigExpr
