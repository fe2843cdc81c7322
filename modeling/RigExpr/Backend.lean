import RigExpr.Action
import RigExpr.Operation

/-!
# Backends

A backend carries out operations and drives outputs. It hands out handles for
what it cannot give a literal for, and it may refuse an operation.

The operations that come down to others are here too: `modulo`, `inverse`,
`exp`, `sqrt`, `abs`, `sign`, `min`, `max` and `tan` mean the same on every
backend.
-/

namespace RigExpr

/-- A backend with the state `β`, the handles `H` and the refusals `ε`. -/
class Backend (β : Type) (H ε : outParam Type) where
  /-- A refusal in words. -/
  explain : ε → String
  /-- Carry out an operation. -/
  perform : Operation H → Action ε β (Value H)
  /-- Drive `destination` by `source`. -/
  drive (source destination : Value H) : Action ε β Unit
  /-- Take note of the value of a whole expression. -/
  conclude : Value H → Action ε β (Value H)
  /-- Whether the value is known to be a single number or truth value. -/
  isScalar : β → Value H → Bool
  /-- Whether the value is known to be a vector. -/
  isVector : β → Value H → Bool

namespace Backend

variable {β H ε : Type} [Backend β H ε]

/-- `a - b * int (a / b)` -/
def modulo (a b : Value H) : Action ε β (Value H) := do
  let ratio ← perform (.arith .divide a b)
  let whole ← perform (.int ratio)
  let scaled ← perform (.arith .multiply b whole)
  perform (.arith .subtract a scaled)

/-- `-1 * a` -/
def negate (a : Value H) : Action ε β (Value H) :=
  perform (.arith .multiply (.scalar (-1)) a)

/-- `a ^ -1` -/
def inverse (a : Value H) : Action ε β (Value H) :=
  perform (.arith .power a (.scalar (-1)))

/-- `e ^ a` -/
def exp (a : Value H) : Action ε β (Value H) :=
  perform (.arith .power (.scalar Number.e) a)

/-- `a ^ 0.5` -/
def sqrt (a : Value H) : Action ε β (Value H) :=
  perform (.arith .power a (.scalar 0.5))

/-- `a >= 0 ? a : -1 * a`, with the negation first. -/
def abs (a : Value H) : Action ε β (Value H) := do
  let negated ← negate a
  perform (.condition .greaterEqual a (.scalar 0) a negated)

/-- `a == 0 ? 0 : (a >= 0 ? 1 : -1)` -/
def sign (a : Value H) : Action ε β (Value H) := do
  let nonzero ← perform (.condition .greaterEqual a (.scalar 0) (.scalar 1) (.scalar (-1)))
  perform (.condition .equal a (.scalar 0) (.scalar 0) nonzero)

/-- `a < b ? a : b` -/
def min (a b : Value H) : Action ε β (Value H) :=
  perform (.condition .less a b a b)

/-- `a > b ? a : b` -/
def max (a b : Value H) : Action ε β (Value H) :=
  perform (.condition .greater a b a b)

/-- `sin a / cos a` -/
def tan (a : Value H) : Action ε β (Value H) := do
  let sin ← perform (.trig .sin a)
  let cos ← perform (.trig .cos a)
  perform (.arith .divide sin cos)

end Backend

end RigExpr
