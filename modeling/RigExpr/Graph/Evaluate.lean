import RigExpr.Graph.Basic
import RigExpr.Graph.Error
import RigExpr.Graph.Noise
import RigExpr.Graph.Rotation
import RigExpr.Graph.Variadic
import RigExpr.Operation

/-!
# Evaluating a node

What the outputs of a node carry, given the signals that it reads. An input that
is not connected reads as zero.

* `Node.outputs` gives the signal of each output.
-/

namespace RigExpr

/-- What a node is given. -/
structure Inlet where
  /-- The signals that the node reads, by key. -/
  signals : Table String Signal := {}
  /-- What the host gives for the name of the node, if it is an input. -/
  staged : Option Signal := none

namespace Inlet

/-- The signal under a key. -/
def get (i : Inlet) (key : String) : Signal := (i.signals.get? key).getD default

/-- The signal under a key as a number. -/
def float (i : Inlet) (key : String) : Float := (i.get key).toFloat

/-- The components of the signal under a key. -/
def components (i : Inlet) (key : String) : List Float := (i.get key).components

/-- The signals of the numbered inputs. -/
def numbered (i : Inlet) : List Signal := Variadic.collect i.signals

end Inlet

namespace Node

/-- The outputs of a node. -/
abbrev Outlets := Table String Signal

/-- The signal at the default output alone. -/
def single (s : Signal) : Outlets := Table.ofList [(Kind.mainOutlet, s)]

/-- The quotient, which division by zero does not have. -/
def quotient (x y : Float) : Float := if y != 0 then x / y else Number.nan

/-- Three components, all equal if there is only one. -/
def three? (s : Signal) : Option (Float × Float × Float) :=
  match s.components with
  | [x, y, z] => some (x, y, z)
  | [x] => some (x, x, x)
  | _ => none

/-- The rotate order at the nearest index. -/
def orderAt (s : Signal) : RotateOrder :=
  let index := Number.clamp s.toFloat.round 0 5
  (RotateOrder.ofIndex? (Number.toIndex index)).getD .xyz

/-- The order of a rotation: as connected, as given, or that of the axes. -/
def order (n : Node) (i : Inlet) : RotateOrder :=
  match i.signals.get? "order" with
  | some s => orderAt s
  | none => n.params.order.getD .xyz

/-- The number carried from one interval to another, and into the latter. -/
def remapped (inLow inHigh outLow outHigh x : Float) : Float :=
  let t := Number.clamp ((x - inLow) / (inHigh - inLow)) 0 1
  outLow + t * (outHigh - outLow)

/-- The vector of length one in this direction, or zero if there is none. -/
def direction (xs : List Float) : List Float :=
  let n := Number.length xs
  if 0 < n then xs.map (· / n) else List.replicate xs.length 0

/-- The product orthogonal to both vectors, which have to have three components. -/
def orthogonal : List Float → List Float → List Float
  | [a, b, c], [x, y, z] => [b * z - c * y, c * x - a * z, a * y - b * x]
  | _, _ => List.replicate 3 Number.nan

/-- The angle between two vectors. -/
def angle (xs ys : List Float) : Float :=
  let size := Number.length xs * Number.length ys
  if xs.length = ys.length ∧ 0 < size then
    (Number.clamp (Number.dot xs ys / size) (-1) 1).acos
  else Number.nan

/-- The three angles of an Euler rotation. -/
def angles (i : Inlet) : Except NodeFault (Float × Float × Float) :=
  match i.signals.get? "in" with
  | some s =>
    match s.components with
    | [x, y, z] => .ok (x, y, z)
    | _ => .error .eulerSize
  | none => .ok (i.float (Variadic.key 0), i.float (Variadic.key 1), i.float (Variadic.key 2))

/-- The quaternion of some signals: a rotation, an axis and an angle, three
    angles, or four components. -/
def quaternion? (order : RotateOrder) : List Signal → Option Quaternion
  | [s] =>
    match s.components with
    | [x, y, z] => some (.ofEuler x y z order)
    | v => Quaternion.ofComponents? v
  | [axis, angle] => Quaternion.ofAxisAngle? axis.components angle.toFloat
  | [x, y, z] => some (.ofEuler x.toFloat y.toFloat z.toFloat order)
  | [x, y, z, w] => Quaternion.ofComponents? [x.toFloat, y.toFloat, z.toFloat, w.toFloat]
  | _ => none

/-- What there is, or the fault that there is none. -/
def orFault {α : Type} (fault : NodeFault) : Option α → Except NodeFault α
  | some a => .ok a
  | none => .error fault

/-- The outputs of a transform. -/
def transform (i : Inlet) : Except NodeFault Outlets := do
  let translate ←
    match i.signals.get? "translate" with
    | some s => orFault .translateSize (three? s)
    | none => .ok (0, 0, 0)
  let rotate ←
    match i.signals.get? "rotate" with
    | some s => orFault .rotateSize (Quaternion.ofVector? s.components)
    | none => .ok .identity
  let scale ←
    match i.signals.get? "scale" with
    | some s => orFault .scaleSize (three? s)
    | none => .ok (1, 1, 1)
  let matrix := Matrix4.ofTransform translate scale rotate
  let list (v : Float × Float × Float) : Signal := .vector [v.1, v.2.1, v.2.2]
  return Table.ofList
    [(Kind.mainOutlet, .vector matrix.components), ("translate", list translate),
     ("rotate", .vector rotate.components), ("scale", list scale)]

/-- The option at the nearest index below the selector. -/
def choose (selector : Float) (options : List Signal) : Except NodeFault Signal :=
  let last := Number.ofIndex (options.length - 1)
  let index := Number.toIndex (Number.clamp selector.floor 0 last)
  orFault .noOptions options[index]?

/-- The signals at the outputs of a node. -/
def outputs (n : Node) (i : Inlet) : Except NodeFault Outlets :=
  let arith (f : Float → Float → Float) : Except NodeFault Outlets :=
    .ok (single (.zipWith f (i.get "lhs") (i.get "rhs")))
  let logic (op : Logic) : Except NodeFault Outlets :=
    .ok (single (.bool (op.apply (i.get "lhs").toBool (i.get "rhs").toBool)))
  let each (f : Float → Float) : Except NodeFault Outlets := .ok (single (.map f (i.get "in")))
  match n.kind with
  | .constant => .ok (single (n.params.value.getD default))
  | .input => .ok (single ((i.staged.or n.params.value).getD default))
  | .output => .ok (single (i.get "in"))
  | .add => arith Arith.add.apply
  | .subtract => arith Arith.subtract.apply
  | .multiply => arith Arith.multiply.apply
  | .divide => arith quotient
  | .power => arith Arith.power.apply
  | .and => logic .and
  | .or => logic .or
  | .xor => logic .xor
  | .not => .ok (single (.bool (!(i.get "in").toBool)))
  | .condition => do
    let test ← orFault .noComparison n.params.comparison
    return single (if test.test (i.float "lhs") (i.float "rhs") then i.get "then" else i.get "else")
  | .clamp =>
    .ok (single (.zipWith Number.smaller
      (.zipWith Number.larger (i.get "in") (i.get "min")) (i.get "max")))
  | .lerp =>
    let delta := Signal.zipWith (· - ·) (i.get "b") (i.get "a")
    let scaled := Signal.zipWith (· * ·) delta (i.get "t")
    .ok (single (.zipWith (· + ·) (i.get "a") scaled))
  | .remap =>
    each (remapped (i.float "in_min") (i.float "in_max") (i.float "out_min") (i.float "out_max"))
  | .cos => each Trig.cos.apply
  | .sin => each Trig.sin.apply
  | .acos => each Trig.acos.apply
  | .asin => each Trig.asin.apply
  | .atan => each Trig.atan.apply
  | .noise => each Noise.value
  | .dnoise => each Noise.slope
  | .component =>
    .ok (single (.float ((i.components "in")[n.params.index.getD 0]?.getD Number.nan)))
  | .join => .ok (single (.vector (i.numbered.flatMap Signal.components)))
  | .normalize => .ok (single (.vector (direction (i.components "in"))))
  | .dot =>
    let (xs, ys) := (i.components "a", i.components "b")
    .ok (single (.float (if xs.length = ys.length then Number.dot xs ys else Number.nan)))
  | .cross => .ok (single (.vector (orthogonal (i.components "a") (i.components "b"))))
  | .length => .ok (single (.float (Number.length (i.components "in"))))
  | .distance =>
    .ok (single (.float (Number.length
      (Signal.zipWith (· - ·) (i.get "a") (i.get "b")).components)))
  | .angle => .ok (single (.float (angle (i.components "a") (i.components "b"))))
  | .euler => do
    let (x, y, z) ← angles i
    return Table.ofList
      [(Kind.mainOutlet, .vector [x, y, z]),
       ("quat", .vector (Quaternion.ofEuler x y z (n.order i)).components)]
  | .rotateOrder => .ok (single (.float (Number.ofIndex (orderAt (i.get "in")).index)))
  | .quat => do
    let q ← orFault .noQuaternion (quaternion? (n.order i) i.numbered)
    return single (.vector q.components)
  | .slerp => do
    let p ← orFault .slerpStart (Quaternion.ofVector? (i.components "a"))
    let q ← orFault .slerpEnd (Quaternion.ofVector? (i.components "b"))
    return single (.vector (p.slerp q (i.float "t")).components)
  | .transform => transform i
  | .matrix => do
    let m ← orFault .matrixSize (Matrix4.ofComponents? (i.numbered.flatMap Signal.components))
    return single (.vector m.components)
  | .int => each Number.truncate
  | .bool => .ok (single (.bool (i.get "in").toBool))
  | .switch => do return single (← choose (i.float "selector") i.numbered)

end Node

end RigExpr
