import RigExpr.Backend
import RigExpr.Graph.Basic
import RigExpr.Graph.Variadic

/-!
# Building a graph

A backend that builds a graph: every operation becomes a node, and a handle is a
plug. A literal operand becomes a constant node, one for each value; a sequence
with handles in it becomes a node that joins its components. The inputs and
outputs towards the host are nodes too, and an assignment connects an output.

* `Builder.input` and `Builder.output` make the nodes of the host.
* `Builder.materialize` makes the plug of a value.
* `Builder.perform` makes the node of an operation.
-/

namespace RigExpr

/-- A graph under construction. -/
structure Builder where
  graph : Graph := {}
  /-- The kind of each node, by id. -/
  kinds : Table String Kind := {}
  /-- The plug of each constant, by text. -/
  constants : Table String Plug := {}
  /-- The plug of each input towards the host, by name. -/
  inputs : Table String Plug := {}
  /-- The plug of each output towards the host, by name. -/
  outputs : Table String Plug := {}
  /-- The number of nodes made so far. -/
  made : Nat := 0
  /-- The value of the last expression that was no assignment. -/
  result : Option (Value Plug) := none

namespace Builder

/-- Why an operation is refused. -/
inductive Refusal
  /-- A vector does not have two to four components. -/
  | sequenceLength (count : Nat)
  /-- A literal cannot be driven. -/
  | literalDestination (v : Value Plug)
  /-- Only outputs can be driven. -/
  | notAnOutput (p : Plug)
  /-- There is no such node. -/
  | unknownNode (p : Plug)
  /-- A sequence does not have this component. -/
  | componentRange (which : Component) (count : Nat)
  /-- A node does not have this output. -/
  | noOutlet (p : Plug) (outlet : String)
  /-- A literal does not have this component. -/
  | noComponent (v : Value Plug) (which : Component)
  /-- An Euler rotation has one or three operands besides its order. -/
  | eulerCount (count : Nat)
  /-- There is no rotate order at this index. -/
  | noOrder (index : Float)
  /-- A literal is no rotate order. -/
  | notAnOrder (v : Value Plug)
  /-- A quaternion has operands besides its order. -/
  | noQuatOperands

/-- The refusal in words. -/
def Refusal.message : Refusal → String
  | sequenceLength count => (CompileError.sequenceLength count).message
  | literalDestination v => "cannot assign to literal " ++ v.text
  | notAnOutput p => "cannot drive " ++ p.text ++ ": only output plugs accept assignments"
  | unknownNode p => "unknown node " ++ p.text
  | componentRange which count =>
    "component " ++ which.text ++ " is out of range for a " ++ toString count ++ "-vector"
  | noOutlet p outlet => p.text ++ " has no output '" ++ outlet ++ "'"
  | noComponent v which => v.text ++ " has no component " ++ which.text
  | eulerCount count =>
    "euler expects a vector or three angles, got " ++ toString count ++ " values"
  | noOrder index => "no rotate order at index " ++ Number.text index
  | notAnOrder v => v.text ++ " is not a rotate order"
  | noQuatOperands => "quat needs at least one value besides the rotate order"

/-- A step of the construction. -/
abbrev Build := Action Refusal Builder

/-! ## Nodes -/

/-- The builder with one more node, and the id of the node. -/
def push (b : Builder) (kind : Kind) (params : Params) (inputs : List (String × Plug)) :
    String × Builder :=
  let made := b.made + 1
  let id := kind.stem ++ "_" ++ toString made
  let node : Node := { id, kind, params, inputs := Table.ofList inputs }
  (id, { b with
    made
    kinds := b.kinds.insert id kind
    graph := { nodes := b.graph.nodes ++ [node] } })

/-- Add a node, and return its default output. -/
def addNode (kind : Kind) (params : Params) (inputs : List (String × Plug)) : Build Plug := do
  let (id, b) := (← Action.state).push kind params inputs
  Action.say .debug ("node " ++ id ++ ": " ++ kind.title)
  Action.change fun _ => b
  return { node := id }

/-- The plug of an input towards the host, with the value it has when the host
    gives none. An input that is there stays as it is. -/
def input (name : String) (value : Option Signal) : Build (Value Plug) := do
  match (← Action.state).inputs.get? name with
  | some p => return .handle p
  | none =>
    let p ← addNode .input { name := some name, value } []
    Action.change fun b => { b with inputs := b.inputs.insert name p }
    return .handle p

/-- The plug of an output towards the host. -/
def output (name : String) : Build (Value Plug) := do
  match (← Action.state).outputs.get? name with
  | some p => return .handle p
  | none =>
    let p ← addNode .output { name := some name } []
    Action.change fun b => { b with outputs := b.outputs.insert name p }
    return .handle p

/-- The plugs of inputs and outputs with their names. -/
def bindings (inputs outputs : List String) : Build (List (String × Value Plug)) := do
  let ins ← inputs.mapM fun name => do return (name, ← input name none)
  let outs ← outputs.mapM fun name => do return (name, ← output name)
  return ins ++ outs

/-- The plug of a constant. -/
def constant (s : Signal) : Build Plug := do
  match (← Action.state).constants.get? s.text with
  | some p => return p
  | none =>
    let p ← addNode .constant { value := some s } []
    Action.change fun b => { b with constants := b.constants.insert s.text p }
    return p

/-- The plugs under the keys of numbered inputs. -/
def numbered {α : Type} (operands : List α) : List (String × α) :=
  operands.mapIdx fun i a => (Variadic.key i, a)

/-- Join plugs to a vector. -/
def join (parts : List Plug) : Build Plug := addNode .join {} (numbered parts)

/-- The plug of a value. -/
def materialize : Value Plug → Build Plug
  | .handle p => return p
  | .scalar x => constant (.float x)
  | .bool b => constant (.bool b)
  | .order o => constant (.float (Number.ofIndex o.index))
  | .pair x y =>
    match (Value.pair x y).scalars? with
    | some xs => constant (.vector xs)
    | none => do join [← materialize x, ← materialize y]
  | .triple x y z =>
    match (Value.triple x y z).scalars? with
    | some xs => constant (.vector xs)
    | none => do join [← materialize x, ← materialize y, ← materialize z]
  | .quad x y z w =>
    match (Value.quad x y z w).scalars? with
    | some xs => constant (.vector xs)
    | none => do join [← materialize x, ← materialize y, ← materialize z, ← materialize w]

/-- The plugs of operands with their keys, from the first on. -/
def wire : List (String × Value Plug) → Build (List (String × Plug))
  | [] => return []
  | (key, v) :: rest => do
    let p ← materialize v
    return (key, p) :: (← wire rest)

/-- Add a node with operands. -/
def emit (kind : Kind) (params : Params) (operands : List (String × Value Plug)) :
    Build (Value Plug) := do
  let inputs ← wire operands
  return .handle (← addNode kind params inputs)

/-! ## What is known about plugs -/

/-- The kind of the node of a plug. -/
def kind? (b : Builder) (p : Plug) : Option Kind := b.kinds.get? p.node

/-- What is known in advance about a signal. -/
inductive Shape
  | scalar | vector | unknown
  deriving Repr, DecidableEq

/-- The shape of a signal. -/
def Shape.ofSignal : Signal → Shape
  | .vector _ => .vector
  | _ => .scalar

/-- The shape of the signal at a plug. -/
def shape (b : Builder) (p : Plug) : Shape :=
  if p.outlet ≠ Kind.mainOutlet then .vector
  else
    match b.kind? p with
    | some kind =>
      if kind.yieldsScalar then .scalar
      else if kind.yieldsVector then .vector
      else if kind = .constant ∨ kind = .input then
        match (b.graph.node? p.node).bind fun n => n.params.value with
        | some s => .ofSignal s
        | none => .unknown
      else .unknown
    | none => .unknown

/-- Whether the value is known to be a number or truth value. -/
def isScalar (b : Builder) : Value Plug → Bool
  | .scalar _ => true
  | .bool _ => true
  | .handle p => b.shape p = .scalar
  | _ => false

/-- Whether the value is known to be a vector. -/
def isVector (b : Builder) : Value Plug → Bool
  | .handle p => b.shape p = .vector
  | v => v.items?.isSome

/-! ## Rotations -/

/-- Whether the value is a rotate order. -/
def isOrder (b : Builder) : Value Plug → Bool
  | .order _ => true
  | .handle p => b.kind? p = some .rotateOrder
  | _ => false

/-- The operands before a rotate order at the end, and that order. -/
def splitOrder (b : Builder) (args : List (Value Plug)) :
    List (Value Plug) × Option (Value Plug) :=
  match args.getLast? with
  | some v => if b.isOrder v then (args.dropLast, some v) else (args, none)
  | none => (args, none)

/-- Add the node of a rotation, with its order as a parameter or an operand. -/
def rotation (kind : Kind) (operands : List (String × Value Plug)) (order : Option (Value Plug)) :
    Build (Value Plug) :=
  match order with
  | some (.order o) => emit kind { order := some o } operands
  | some v => emit kind {} (operands ++ [("order", v)])
  | none => emit kind {} operands

/-- Add the node of an Euler rotation. -/
def euler (args : List (Value Plug)) : Build (Value Plug) := do
  let (operands, order) := (← Action.state).splitOrder args
  match operands with
  | [v] => rotation .euler [("in", v)] order
  | [x, y, z] => rotation .euler (numbered [x, y, z]) order
  | _ => throw (.eulerCount operands.length)

/-- The output of an Euler rotation that is its quaternion. -/
def eulerQuat? (b : Builder) : List (Value Plug) → Option (Value Plug) → Option Plug
  | [.handle p], none =>
    if p.outlet = Kind.mainOutlet ∧ b.kind? p = some .euler then some { p with outlet := "quat" }
    else none
  | _, _ => none

/-- Add the node of a quaternion, unless an Euler rotation has it. -/
def quat (args : List (Value Plug)) : Build (Value Plug) := do
  let b ← Action.state
  let (operands, order) := b.splitOrder args
  match b.eulerQuat? operands order with
  | some p => return .handle p
  | none =>
    if operands.isEmpty then throw .noQuatOperands
    else rotation .quat (numbered operands) order

/-- The rotate order of a value. -/
def rotateOrder : Value Plug → Build (Value Plug)
  | .order o => return .order o
  | .scalar x =>
    if 0 ≤ x ∧ x - Number.truncate x == 0 then
      match RotateOrder.ofIndex? (Number.toIndex x) with
      | some o => return .order o
      | none => throw (.noOrder x)
    else throw (.notAnOrder (.scalar x))
  | .handle p => emit .rotateOrder {} [("in", .handle p)]
  | v => throw (.notAnOrder v)

/-! ## Operations -/

/-- A component of a value: of a sequence without a node, of a plug by a node or
    as another output. -/
def component (object : Value Plug) (which : Component) : Build (Value Plug) := do
  match object, which with
  | .handle p, .axis i => emit .component { index := some i } [("in", .handle p)]
  | .handle p, .named outlet =>
    match (← Action.state).kind? p with
    | none => throw (.unknownNode p)
    | some kind =>
      if p.outlet = Kind.mainOutlet ∧ kind.hasOutlet outlet then return .handle { p with outlet }
      else throw (.noOutlet p outlet)
  | v, .axis i =>
    match v.items? with
    | some items =>
      match items[i]? with
      | some item => return item
      | none => throw (.componentRange which items.length)
    | none => throw (.noComponent v which)
  | v, .named _ => throw (.noComponent v which)

/-- The kind of an arithmetic operation. -/
def ofArith : Arith → Kind
  | .add => .add
  | .subtract => .subtract
  | .multiply => .multiply
  | .divide => .divide
  | .power => .power

/-- The kind of a logical operation. -/
def ofLogic : Logic → Kind
  | .or => .or
  | .and => .and
  | .xor => .xor

/-- The kind of a trigonometric function. -/
def ofTrig : Trig → Kind
  | .cos => .cos
  | .sin => .sin
  | .acos => .acos
  | .asin => .asin
  | .atan => .atan

/-- Add a node with one operand. -/
def unary (kind : Kind) (a : Value Plug) : Build (Value Plug) := emit kind {} [("in", a)]

/-- Add a node with a left and a right operand. -/
def binary (kind : Kind) (lhs rhs : Value Plug) : Build (Value Plug) :=
  emit kind {} [("lhs", lhs), ("rhs", rhs)]

/-- Add a node with two vectors as operands. -/
def vectors (kind : Kind) (a b : Value Plug) : Build (Value Plug) :=
  emit kind {} [("a", a), ("b", b)]

/-- Add the node of an operation, or find its result among what is there. -/
def perform : Operation Plug → Build (Value Plug)
  | .arith op a b => binary (ofArith op) a b
  | .logic op a b => binary (ofLogic op) a b
  | .not a => unary .not a
  | .clamp value low high => emit .clamp {} [("in", value), ("min", low), ("max", high)]
  | .condition test first second ifTrue ifFalse =>
    emit .condition { comparison := some test }
      [("lhs", first), ("rhs", second), ("then", ifTrue), ("else", ifFalse)]
  | .lerp a b t => emit .lerp {} [("a", a), ("b", b), ("t", t)]
  | .remap value inLow inHigh outLow outHigh =>
    emit .remap {}
      [("in", value), ("in_min", inLow), ("in_max", inHigh), ("out_min", outLow),
       ("out_max", outHigh)]
  | .trig f a => unary (ofTrig f) a
  | .noise a => unary .noise a
  | .slope a => unary .dnoise a
  | .component object which => component object which
  | .normalize v => unary .normalize v
  | .length v => unary .length v
  | .dot a b => vectors .dot a b
  | .cross a b => vectors .cross a b
  | .distance a b => vectors .distance a b
  | .angle a b => vectors .angle a b
  | .vector components =>
    match Value.ofItems? components with
    | some v => do return .handle (← materialize v)
    | none => throw (.sequenceLength components.length)
  | .euler args => euler args
  | .rotateOrder v => rotateOrder v
  | .quat args => quat args
  | .transform args => emit .transform {} (["translate", "rotate", "scale"].zip args)
  | .matrix args => emit .matrix {} (numbered args)
  | .slerp a b t => emit .slerp {} [("a", a), ("b", b), ("t", t)]
  | .int a => unary .int a
  | .bool a => unary .bool a
  | .switch selector options =>
    emit .switch {} (numbered options ++ [("selector", selector)])

/-- Connect an output to what drives it. -/
def connect (b : Builder) (id : String) (source : Plug) : Builder :=
  let change (n : Node) : Node := { n with inputs := n.inputs.insert "in" source }
  { b with graph := { nodes := b.graph.nodes.map fun n => if n.id = id then change n else n } }

/-- Drive an output. -/
def drive (source destination : Value Plug) : Build Unit := do
  match destination with
  | .handle d =>
    if (← Action.state).kind? d = some .output then
      let s ← materialize source
      match (← Action.state).graph.node? d.node with
      | none => throw (.unknownNode d)
      | some n =>
        Action.change fun b => b.connect d.node s
        if n.inputs.contains "in" then
          Action.say .warn
            ("output " ++ d.text ++ " was already driven; rewiring to " ++ s.text)
    else throw (.notAnOutput d)
  | v => throw (.literalDestination v)

/-- Keep the value of an expression. -/
def conclude (v : Value Plug) : Build (Value Plug) := do
  Action.say .debug ("result: " ++ v.text)
  Action.change fun b => { b with result := some v }
  return v

instance : Backend Builder Plug Refusal where
  explain := Refusal.message
  perform := perform
  drive := drive
  conclude := conclude
  isScalar := isScalar
  isVector := isVector

end Builder

end RigExpr
