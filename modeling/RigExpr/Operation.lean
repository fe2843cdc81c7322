import RigExpr.Token
import RigExpr.Value

/-!
# Operations

The operations that a backend carries out, with their operands. Everything an
expression does comes down to these.
-/

namespace RigExpr

/-- The arithmetic operations on two numbers. -/
inductive Arith
  | add | subtract | multiply | divide | power
  deriving Repr, DecidableEq

namespace Arith

/-- The operation on doubles. -/
def apply (op : Arith) (x y : Float) : Float :=
  match op with
  | add => x + y
  | subtract => x - y
  | multiply => x * y
  | divide => x / y
  | power => x.pow y

end Arith

/-- The logical operations on two truth values. -/
inductive Logic
  | or | and | xor
  deriving Repr, DecidableEq

/-- The operation on truth values. -/
def Logic.apply (op : Logic) (a b : Bool) : Bool :=
  match op with
  | or => a || b
  | and => a && b
  | xor => a != b

/-- The trigonometric functions. -/
inductive Trig
  | cos | sin | acos | asin | atan
  deriving Repr, DecidableEq

/-- The function on doubles. -/
def Trig.apply (f : Trig) (x : Float) : Float :=
  match f with
  | cos => x.cos
  | sin => x.sin
  | acos => x.acos
  | asin => x.asin
  | atan => x.atan

/-- An operation with its operands. -/
inductive Operation (H : Type)
  | arith (op : Arith) (a b : Value H)
  | logic (op : Logic) (a b : Value H)
  | not (a : Value H)
  /-- The value moved into an interval. -/
  | clamp (value low high : Value H)
  /-- One of two values, by a comparison. -/
  | condition (test : Comparison) (first second ifTrue ifFalse : Value H)
  /-- The value a fraction `t` of the way from `a` to `b`. -/
  | lerp (a b t : Value H)
  /-- The value carried from one interval to another. -/
  | remap (value inLow inHigh outLow outHigh : Value H)
  | trig (f : Trig) (a : Value H)
  /-- Smooth noise. -/
  | noise (a : Value H)
  /-- The derivative of smooth noise. -/
  | slope (a : Value H)
  | component (object : Value H) (which : Component)
  | normalize (v : Value H)
  | length (v : Value H)
  | dot (a b : Value H)
  | cross (a b : Value H)
  | distance (a b : Value H)
  | angle (a b : Value H)
  /-- A vector of its components. -/
  | vector (components : List (Value H))
  /-- An Euler rotation from a vector or three angles, perhaps with an order. -/
  | euler (args : List (Value H))
  | rotateOrder (v : Value H)
  /-- A quaternion from a rotation, an axis and an angle, or its components. -/
  | quat (args : List (Value H))
  /-- A transform from a displacement, a rotation and a scale. -/
  | transform (args : List (Value H))
  | matrix (args : List (Value H))
  /-- The rotation a fraction `t` of the way from `a` to `b`. -/
  | slerp (a b t : Value H)
  /-- The integer part. -/
  | int (a : Value H)
  /-- The truth value. -/
  | bool (a : Value H)
  /-- The option that the selector counts to. -/
  | switch (selector : Value H) (options : List (Value H))
  deriving Repr

namespace Operation

variable {H : Type}

/-- The name of an operation. -/
def name : Operation H → String
  | arith .add _ _ => "add"
  | arith .subtract _ _ => "subtract"
  | arith .multiply _ _ => "multiply"
  | arith .divide _ _ => "divide"
  | arith .power _ _ => "pow"
  | logic .or _ _ => "logical_or"
  | logic .and _ _ => "logical_and"
  | logic .xor _ _ => "logical_xor"
  | not _ => "logical_not"
  | clamp _ _ _ => "clamp"
  | condition _ _ _ _ _ => "condition"
  | lerp _ _ _ => "lerp"
  | remap _ _ _ _ _ => "remap"
  | trig .cos _ => "cos"
  | trig .sin _ => "sin"
  | trig .acos _ => "acos"
  | trig .asin _ => "asin"
  | trig .atan _ => "atan"
  | noise _ => "noise"
  | slope _ => "dnoise"
  | component _ _ => "get_component"
  | normalize _ => "norm"
  | length _ => "len"
  | dot _ _ => "dot"
  | cross _ _ => "cross"
  | distance _ _ => "distance"
  | angle _ _ => "angle"
  | vector _ => "vector"
  | euler _ => "euler"
  | rotateOrder _ => "rotate_order"
  | quat _ => "quat"
  | transform _ => "transform"
  | matrix _ => "matrix"
  | slerp _ _ _ => "slerp"
  | int _ => "int"
  | bool _ => "bool"
  | switch _ _ => "switch"

/-- The operands of an operation. -/
def operands : Operation H → List (Value H)
  | arith _ a b | logic _ a b | dot a b | cross a b | distance a b | angle a b => [a, b]
  | not a | trig _ a | noise a | slope a | normalize a | length a | rotateOrder a | int a
  | bool a => [a]
  | component object _ => [object]
  | clamp value low high => [value, low, high]
  | lerp a b t | slerp a b t => [a, b, t]
  | condition _ first second ifTrue ifFalse => [first, second, ifTrue, ifFalse]
  | remap value inLow inHigh outLow outHigh => [value, inLow, inHigh, outLow, outHigh]
  | vector args | euler args | quat args | transform args | matrix args => args
  | switch selector options => selector :: options

end Operation

end RigExpr
