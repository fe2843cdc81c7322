/-!
# Functions

The functions that an expression can call, with the number of arguments each
of them takes.
-/

namespace RigExpr

/-- How many arguments are accepted. -/
inductive Arity
  | exactly (n : Nat)
  | between (low high : Nat)
  | atLeast (n : Nat)
  deriving Repr, DecidableEq

namespace Arity

/-- Whether this many arguments are accepted. -/
def accepts : Arity → Nat → Bool
  | exactly n, count => count = n
  | between low high, count => low ≤ count && count ≤ high
  | atLeast n, count => n ≤ count

/-- The arity in words. -/
def text : Arity → String
  | exactly n => toString n
  | between low high => toString low ++ " to " ++ toString high
  | atLeast n => "at least " ++ toString n

end Arity

/-- The functions that an expression can call. -/
inductive Function
  | clamp | lerp | remap
  | cos | sin | tan | acos | asin | atan
  | noise | dnoise
  | norm | dot | cross | len | distance | angle
  | vector | euler | rotateOrder | quat | transform | matrix | slerp
  | int | bool | switch | isScalar | isVector | xor
  | pow | modulo | inverse | exp | sqrt | abs | sign | min | max | value
  deriving Repr, DecidableEq

namespace Function

/-- Every function. -/
def all : List Function :=
  [clamp, lerp, remap, cos, sin, tan, acos, asin, atan, noise, dnoise, norm, dot, cross, len,
   distance, angle, vector, euler, rotateOrder, quat, transform, matrix, slerp, int, bool,
   switch, isScalar, isVector, xor, pow, modulo, inverse, exp, sqrt, abs, sign, min, max, value]

/-- The name by which a function is called. -/
def name : Function → String
  | clamp => "clamp"
  | lerp => "lerp"
  | remap => "remap"
  | cos => "cos"
  | sin => "sin"
  | tan => "tan"
  | acos => "acos"
  | asin => "asin"
  | atan => "atan"
  | noise => "noise"
  | dnoise => "dnoise"
  | norm => "norm"
  | dot => "dot"
  | cross => "cross"
  | len => "len"
  | distance => "distance"
  | angle => "angle"
  | vector => "vector"
  | euler => "euler"
  | rotateOrder => "rotate_order"
  | quat => "quat"
  | transform => "transform"
  | matrix => "matrix"
  | slerp => "slerp"
  | int => "int"
  | bool => "bool"
  | switch => "switch"
  | isScalar => "is_scalar"
  | isVector => "is_vector"
  | xor => "xor"
  | pow => "pow"
  | modulo => "modulo"
  | inverse => "inverse"
  | exp => "exp"
  | sqrt => "sqrt"
  | abs => "abs"
  | sign => "sign"
  | min => "min"
  | max => "max"
  | value => "value"

/-- The function with this name. -/
def ofName? (word : String) : Option Function := all.find? fun f => f.name = word

/-- The number of arguments of a function. -/
def arity : Function → Arity
  | clamp | lerp | slerp => .exactly 3
  | remap => .exactly 5
  | dot | cross | distance | angle | xor | pow | modulo | min | max => .exactly 2
  | vector => .between 2 4
  | euler | quat => .between 1 4
  | transform => .between 1 3
  | matrix => .atLeast 1
  | switch => .atLeast 2
  | cos | sin | tan | acos | asin | atan | noise | dnoise | norm | len | rotateOrder | int | bool
  | isScalar | isVector | inverse | exp | sqrt | abs | sign | value => .exactly 1

@[simp] theorem ofName?_name (f : Function) : ofName? f.name = some f := by
  cases f <;> rfl

/-- No function can be called without arguments. -/
theorem accepts_zero (f : Function) : f.arity.accepts 0 = false := by
  cases f <;> rfl

end Function

end RigExpr
