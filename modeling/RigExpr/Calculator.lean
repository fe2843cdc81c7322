import RigExpr.Backend

/-!
# The calculator

A backend that computes. An operation on literals has a literal as its result;
where a handle takes part, the result is a fresh handle named after the
operation. Every operation is recorded with the texts of its operands, and so
is every assignment.

* `Calculator.compute` says which operations have a literal result.
-/

namespace RigExpr

namespace Calculator

/-- A handle, which goes by its name. -/
structure Name where
  text : String
  deriving Repr, DecidableEq

instance : ToString Name := ⟨Name.text⟩

/-- Why an operation is refused. -/
inductive Refusal
  /-- A vector does not have two to four components. -/
  | sequenceLength (count : Nat)
  /-- A sequence does not have this component. -/
  | componentRange (which : Component) (object : Value Name)
  /-- The literal does not have components. -/
  | noComponents (which : Component) (object : Value Name)
  /-- There is no rotate order at this index. -/
  | noOrder (index : Float)
  /-- There is no option at this index. -/
  | noOption (index : Float)

/-- The refusal in words. -/
def Refusal.message : Refusal → String
  | sequenceLength count => (CompileError.sequenceLength count).message
  | componentRange which object =>
    "component " ++ which.text ++ " out of range for " ++ object.text
  | noComponents which object => "cannot read " ++ which.text ++ " from " ++ object.text
  | noOrder index => "no rotate order at index " ++ Number.text index
  | noOption index => "switch selector " ++ Number.text index ++ " out of range"

/-- The truth value of a literal: of a number, whether it is not zero. -/
def truth? : Value Name → Option Bool
  | .bool b => some b
  | .scalar x => some (x != 0)
  | _ => none

/-- The cosine of the angle between two vectors. -/
def cosine (xs ys : List Float) : Float :=
  Number.dot xs ys / (Number.length xs * Number.length ys)

/-- The product of two vectors of three components that is orthogonal to both. -/
def cross? : List Float → List Float → Option (Value Name)
  | [a, b, c], [x, y, z] =>
    some (.triple (.scalar (b * z - c * y)) (.scalar (c * x - a * z)) (.scalar (a * y - b * x)))
  | _, _ => none

/-- The sequence of the numbers. -/
def vector (xs : List Float) : Option (Value Name) := Value.ofItems? (xs.map .scalar)

/-- The result of an operation on literals, or none if a handle takes part. -/
def compute : Operation Name → Except Refusal (Option (Value Name))
  | .arith op a b => .ok do return .scalar (op.apply (← a.scalar?) (← b.scalar?))
  | .logic op a b => .ok do return .bool (op.apply (← truth? a) (← truth? b))
  | .not a => .ok do return .bool (!(← truth? a))
  | .clamp value low high => .ok do
    let (x, l, h) := (← value.scalar?, ← low.scalar?, ← high.scalar?)
    return .scalar (Number.smaller (Number.larger x l) h)
  | .condition test first second ifTrue ifFalse => .ok do
    return if test.test (← first.scalar?) (← second.scalar?) then ifTrue else ifFalse
  | .lerp a b t => .ok do
    let (x, y, s) := (← a.scalar?, ← b.scalar?, ← t.scalar?)
    return .scalar (x + (y - x) * s)
  | .remap value inLow inHigh outLow outHigh => .ok do
    let (x, a, b) := (← value.scalar?, ← inLow.scalar?, ← inHigh.scalar?)
    let (c, d) := (← outLow.scalar?, ← outHigh.scalar?)
    return .scalar (c + (x - a) / (b - a) * (d - c))
  | .trig f a => .ok do return .scalar (f.apply (← a.scalar?))
  | .component (.handle _) _ => .ok none
  | .component object which =>
    match object.items?, which with
    | some items, .axis i =>
      match items[i]? with
      | some v => .ok (some v)
      | none => .error (.componentRange which object)
    | _, _ => .error (.noComponents which object)
  | .normalize v => .ok do
    let xs ← v.scalars?
    vector (xs.map (· / Number.length xs))
  | .length v => .ok do return .scalar (Number.length (← v.scalars?))
  | .dot a b => .ok do return .scalar (Number.dot (← a.scalars?) (← b.scalars?))
  | .cross a b => .ok do cross? (← a.scalars?) (← b.scalars?)
  | .distance a b => .ok do
    return .scalar (Number.length (List.zipWith (· - ·) (← a.scalars?) (← b.scalars?)))
  | .angle a b => .ok do
    return .scalar (Number.clamp (cosine (← a.scalars?) (← b.scalars?)) (-1) 1).acos
  | .vector components =>
    match Value.ofItems? components with
    | some v => .ok (some v)
    | none => .error (.sequenceLength components.length)
  | .rotateOrder (.order o) => .ok (some (.order o))
  | .rotateOrder (.scalar x) =>
    match RotateOrder.ofIndex? (Number.toIndex x) with
    | some o => .ok (some (.order o))
    | none => .error (.noOrder x)
  | .int a => .ok do return .scalar (Number.truncate (← a.scalar?))
  | .bool a => .ok do return .bool (← truth? a)
  | .switch (.scalar x) options =>
    match options[Number.toIndex x]? with
    | some v => .ok (some v)
    | none => .error (.noOption x)
  | _ => .ok none

end Calculator

/-- The state of the calculator. -/
structure Calculator where
  /-- The operations so far. -/
  calls : List String := []
  /-- The assignments so far, source before destination. -/
  assignments : List (String × String) := []
  /-- The number of handles made so far. -/
  made : Nat := 0
  deriving Repr, DecidableEq

namespace Calculator

/-- The number of operations of this name. -/
def count (c : Calculator) (name : String) : Nat :=
  (c.calls.filter fun call => call.startsWith (name ++ "(")).length

/-- The calculator with an operation recorded. -/
def record (c : Calculator) (name : String) (operands : List (Value Name)) : Calculator :=
  let texts := String.intercalate ", " (operands.map Value.text)
  { c with calls := c.calls ++ [name ++ "(" ++ texts ++ ")"] }

/-- A fresh handle, named after the operation that asks for it. -/
def symbolic (name : String) : Action Refusal Calculator (Value Name) := do
  Action.change fun c => { c with made := c.made + 1 }
  return .handle ⟨name ++ "#" ++ toString (← Action.state).made⟩

/-- Record an operation and compute its result. -/
def perform (op : Operation Name) : Action Refusal Calculator (Value Name) := do
  Action.change fun c => c.record op.name op.operands
  match ← Action.ofExcept (compute op) with
  | some v => return v
  | none => symbolic op.name

/-- Record an assignment. -/
def drive (source destination : Value Name) : Action Refusal Calculator Unit :=
  Action.change fun c =>
    let c := c.record "equal" [source, destination]
    { c with assignments := c.assignments ++ [(source.text, destination.text)] }

instance : Backend Calculator Name Refusal where
  explain := Refusal.message
  perform := perform
  drive := drive
  conclude v := pure v
  isScalar _ v := v.scalar?.isSome
  isVector _ v := v.items?.isSome

end Calculator

end RigExpr
