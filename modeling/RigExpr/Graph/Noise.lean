import RigExpr.Number.Arithmetic

/-!
# Smooth noise

A function of one number that takes a pseudo-random value at every integer and
goes smoothly from one to the next.
-/

namespace RigExpr.Noise

/-- A pseudo-random number from -1 to 1, given by the bits of an integer. -/
def lattice (i : UInt64) : Float :=
  let x := i + 0x9E3779B97F4A7C15
  let x := (x ^^^ (x >>> 30)) * 0xBF58476D1CE4E5B9
  let x := (x ^^^ (x >>> 27)) * 0x94D049BB133111EB
  let x := x ^^^ (x >>> 31)
  (x >>> 11).toFloat / 9007199254740992 * 2 - 1

/-- The values at the ends of the unit interval that `x` is in, and how far into
    it `x` is. Intervals beyond 64 bits are those at the ends of the range. -/
def interval (x : Float) : Float × Float × Float :=
  let floor := x.floor
  let i := floor.toInt64.toUInt64
  (lattice i, lattice (i + 1), x - floor)

/-- The noise at `x`. -/
def value (x : Float) : Float :=
  if x.isFinite then
    let (a, b, t) := interval x
    a + (b - a) * (t * t * (3 - 2 * t))
  else Number.nan

/-- The derivative of the noise at `x`. -/
def slope (x : Float) : Float :=
  if x.isFinite then
    let (a, b, t) := interval x
    (b - a) * 6 * t * (1 - t)
  else Number.nan

end RigExpr.Noise
